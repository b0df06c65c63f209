import ControlFile.Expr.Basic
import ControlFile.Token.Basic
import ControlFile.Vocabulary.Basic

/-!
# Items

A control file is a sequence of items.  So are the body of a macro, a branch of a conditional and
the members of a site; an `Item` says what it is, and which stretch of text it came from.

A conditional is a `Chain` of branches which ends with the items of its else part, if it has one.
-/

namespace ControlFile

/-! ### Variables -/

/-- Where a declared variable is known. -/
inductive VariableScope
  | prm
  | localPrm
deriving DecidableEq, Inhabited

def VariableScope.word : VariableScope → String
  | .prm => "prm"
  | .localPrm => "local"

/-- An equation for a variable that has been declared before. -/
structure Assignment where
  refinement : Refinement
  name : String
  equation : Equation
deriving Inhabited

/-- The equation `n = n op r`, seen as `n op= r`.  Parentheses around the body and around the name
do not matter; every other equation stays as it is. -/
def Assignment.compoundForm (a : Assignment) : Equation :=
  match a.equation.op, a.equation.body.stripParens with
  | .set, .binary op lhs rhs =>
    match AssignOp.ofBinary? op with
    | some compound =>
      if lhs.stripParens.ident? = some a.name then { a.equation with op := compound, body := rhs }
      else a.equation
    | none => a.equation
  | _, _ => a.equation

/-! ### Sites -/

/-- A value behind that of an occupancy. -/
structure OccModifier where
  word : OccupancyWord
  value : Parameter
deriving Inhabited

/-- The atom on a site, and how much of it is there. -/
structure Occupancy where
  atom : String
  value : Parameter
  modifiers : List OccModifier
deriving Inhabited

/-- One thing for each anisotropic displacement parameter, in the order in which they are
written. -/
structure Adps (α : Type) where
  u11 : α
  u22 : α
  u33 : α
  u12 : α
  u13 : α
  u23 : α
deriving Inhabited

namespace Adps

def toList {α : Type} (a : Adps α) : List α := [a.u11, a.u22, a.u33, a.u12, a.u13, a.u23]

/-- The names of the six parameters. -/
def words : Adps AdpWord := ⟨.u11, .u22, .u33, .u12, .u13, .u23⟩

/-- The result of `f` on each, in order. -/
def mapM {m : Type → Type} [Monad m] {α β : Type} (f : α → m β) (a : Adps α) : m (Adps β) := do
  let u11 ← f a.u11
  let u22 ← f a.u22
  let u33 ← f a.u33
  let u12 ← f a.u12
  let u13 ← f a.u13
  let u23 ← f a.u23
  return ⟨u11, u22, u33, u12, u13, u23⟩

end Adps

/-- A statement of a site. -/
inductive SiteStatement
  | coordinate (axis : Axis) (value : Parameter)
  | occupancy (occ : Occupancy)
  | scalar (word : SiteScalar) (value : Parameter)
  | adps (values : Adps Parameter)
deriving Inhabited

/-! ### Directives, macros and conditions -/

/-- A directive that stands alone. -/
inductive Directive
  | define (name : String)
  | undef (name : String)
  | seed
  | includeFile (path : String)
  | deleteMacros (names : List String)
  | prm (name : String) (equation : Equation)
  | out (expr : Expr)
deriving Inhabited

/-- A parameter of a macro. An argument by reference is not expanded before the body uses it. -/
structure MacroParam where
  name : Option String
  byReference : Bool
deriving DecidableEq, Inhabited

/-- The head of a macro: its name and parameters.  `parenthesized` says that a list of parameters,
which may be empty, was written. -/
structure Signature where
  name : String
  byReference : Bool
  params : List MacroParam
  parenthesized : Bool
  range : Extent
deriving DecidableEq, Inhabited

/-- Whether the parameter at `index` is by reference, by its own mark or by that of the head. -/
def Signature.isByReference (s : Signature) (index : Nat) : Bool :=
  s.byReference || (s.params[index]?.map (·.byReference)).getD false

/-- A test for an argument: for its form, or for its text. -/
inductive ArgumentTest
  | form (form : ArgumentForm)
  | text (text : String)
deriving DecidableEq, Inhabited

/-- The condition of a branch. -/
inductive Condition
  | expr (expr : Expr)
  | defined (symbol : String) (negated : Bool)
  | argument (param : String) (test : ArgumentTest)
deriving Inhabited

/-! ### Items -/

mutual

/-- An item, and the stretch of text it came from. -/
structure Item where
  kind : ItemKind
  range : Extent

/-- What an item is. -/
inductive ItemKind
  | keyword (word : String) (equation : Option Equation)
  | expr (expr : Expr)
  | parameter (param : Parameter)
  | equation (equation : Equation)
  | assignment (name : String) (equation : Equation)
  | declaration (scope : VariableScope) (param : Parameter)
  | existing (assignment : Assignment)
  | site (name : String) (members : List Item)
  | siteStatement (statement : SiteStatement)
  | directive (directive : Directive)
  | macroDecl (isList : Bool) (signatures : List Signature) (body : List Item)
  | conditional (family : Family) (chain : Chain)
  | bodyOp (op : BodyOp) (param : String)
  | block (items : List Item)

/-- The branches of a conditional, in order, and what is taken if none of them is. -/
inductive Chain
  | done
  | otherwise (items : List Item)
  | branch (condition : Condition) (items : List Item) (rest : Chain)

end

instance : Inhabited ItemKind := ⟨.block []⟩

instance : Inhabited Item := ⟨⟨default, default⟩⟩

instance : Inhabited Chain := ⟨.done⟩

end ControlFile
