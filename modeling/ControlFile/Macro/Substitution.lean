import ControlFile.Macro.Argument
import ControlFile.Macro.Tables

/-!
# Substitution in the body of a macro

When a macro is expanded its body is copied, with each parameter replaced by its argument and the
unique mark by the unique name of the expansion.  Tests of arguments are decided, and the
operators on arguments are applied.  Calls, conditions and directives in the body are left for
later.

Substitution in expressions is a function into results or faults.  Substitution in items also
gives out unique names, which it goes on doing when it fails later: its state is their number.
-/

namespace ControlFile

/-- The arguments that parameters are bound to. If a name is bound twice the first entry counts. -/
abbrev Bindings := Assoc Argument

/-- What is put in the place of parameters and of the unique mark. -/
structure Substitution where
  bound : Bindings
  unique : String
deriving Inhabited

namespace Substitution

variable (s : Substitution)

/-- The argument of a parameter. -/
def lookup (name : String) : Option Argument := s.bound.get? name

/-- In the place of a name. -/
def name (n : String) : Except Fault String :=
  if n = uniqueMark then .ok s.unique
  else
    match s.lookup n with
    | some a =>
      match a.toWord? with
      | some word => .ok word
      | none => .error (.argument (.notAName n))
    | none => .ok n

/-- In the place of a name that stands for a value. -/
def ident (n : String) : Except Fault Expr :=
  if n = uniqueMark then .ok (.ident s.unique)
  else
    match s.lookup n with
    | some a =>
      match a.toExpr? with
      | some e => .ok e
      | none => .error (.argument (.notAnExpression n))
    | none => .ok (.ident n)

/-- In an error estimate. -/
def uncertainty : Option Uncertainty → Except Fault (Option Uncertainty)
  | some (.name n) =>
    match s.lookup n with
    | some (.expr (.literal value)) => .ok (some (.literal value))
    | some _ => do return some (.name (← s.name n))
    | none => .ok (some (.name n))
  | u => .ok u

/-- In a name that may be missing. -/
def name? : Option String → Except Fault (Option String)
  | some n => do return some (← s.name n)
  | none => .ok none

/-- The argument of the parameter that an argument consists of. -/
def passedThrough? : Expr → Option Argument
  | .ident n => s.lookup n
  | _ => none

/-- The argument that a place without a value takes as a whole.  A mark in the body wins over that
of the argument. -/
def wholeParameter? (refinement : Refinement) : Option String → Value → Option Parameter
  | some n, .absent =>
    (s.lookup n).map fun a =>
      let p := a.toParameter
      if refinement = .plain then p else { p with refinement }
  | _, _ => none

end Substitution

/-! ### Expressions -/

mutual

def Expr.substitute (s : Substitution) : Expr → Except Fault Expr
  | .literal value => .ok (.literal value)
  | .ident n => s.ident n
  | .call n arguments range => do
    let as ← Argument.substituteAll s arguments
    return .call (← s.name n) as range
  | .unary op operand => do return .unary op (← operand.substitute s)
  | .binary op lhs rhs => do
    let l ← lhs.substitute s
    let r ← rhs.substitute s
    return .binary op l r
  | .paren inner => do return .paren (← inner.substitute s)

def Argument.substituteAll (s : Substitution) : List Argument → Except Fault (List Argument)
  | [] => .ok []
  | a :: as => do
    let b ← a.substitute s
    let bs ← Argument.substituteAll s as
    return b :: bs

/-- A parameter that is passed on keeps the form of its argument. -/
def Argument.substitute (s : Substitution) : Argument → Except Fault Argument
  | .hole => .ok .hole
  | .expr e =>
    match s.passedThrough? e with
    | some a => .ok a
    | none => do return .expr (← e.substitute s)
  | .parameter p => do return .parameter (← p.substitute s)
  | .equation e => do return .equation (← e.substitute s)

def Parameter.substitute (s : Substitution) : Parameter → Except Fault Parameter
  | ⟨refinement, n, value⟩ =>
    match s.wholeParameter? refinement n value with
    | some p => .ok p
    | none => do
      let m ← s.name? n
      let w ← value.substitute s
      return ⟨refinement, m, w⟩

def Value.substitute (s : Substitution) : Value → Except Fault Value
  | .absent => .ok .absent
  | .literal value => .ok (.literal value)
  | .equation e => do return .equation (← e.substitute s)

def Equation.substitute (s : Substitution) : Equation → Except Fault Equation
  | ⟨op, body, uncertainty⟩ => do
    let u ← s.uncertainty uncertainty
    return ⟨op, ← body.substitute s, u⟩

end

/-! ### Items -/

/-- Substitution that gives out unique names. -/
abbrev Substituting := EStateM Fault Nat

instance : MonadLift (Except Fault) Substituting where
  monadLift
    | .ok a => fun n => .ok a n
    | .error f => fun n => .error f n

namespace Substituting

/-- The next unique name. -/
def nextUnique : Substituting String := fun n => .ok (uniqueName (n + 1)) (n + 1)

end Substituting

def OccModifier.substitute (s : Substitution) (m : OccModifier) : Except Fault OccModifier := do
  return ⟨m.word, ← m.value.substitute s⟩

def SiteStatement.substitute (s : Substitution) : SiteStatement → Except Fault SiteStatement
  | .coordinate axis value => do return .coordinate axis (← value.substitute s)
  | .occupancy occ => do
    let modifiers ← occ.modifiers.mapM (OccModifier.substitute s)
    let atom ← s.name occ.atom
    let value ← occ.value.substitute s
    return .occupancy ⟨atom, value, modifiers⟩
  | .scalar word value => do return .scalar word (← value.substitute s)
  | .adps values => do return .adps (← values.mapM (Parameter.substitute s))

def Directive.substitute (s : Substitution) : Directive → Except Fault Directive
  | .define n => do return .define (← s.name n)
  | .undef n => do return .undef (← s.name n)
  | .seed => .ok .seed
  | .includeFile path => .ok (.includeFile path)
  | .deleteMacros names => do return .deleteMacros (← names.mapM s.name)
  | .prm n equation => do
    let m ← s.name n
    return .prm m (← equation.substitute s)
  | .out expr => do return .out (← expr.substitute s)

/-- A test of an argument is decided; the argument has to be there. -/
def Condition.substitute (s : Substitution) : Condition → Except Fault Condition
  | .expr e => do return .expr (← e.substitute s)
  | .defined symbol negated => do return .defined (← s.name symbol) negated
  | .argument param test =>
    match s.lookup param with
    | some a => .ok (.expr (.literal (.integer (if a.passes test then 1 else 0))))
    | none => .error (.unresolved param)

/-- Applies an operator to the argument of a parameter.  An operator on anything else is kept. -/
def BodyOp.substitute (s : Substitution) (op : BodyOp) (param : String) :
    Substituting (Option ItemKind) := do
  match s.lookup param with
  | none => return some (.bodyOp op param)
  | some a =>
    match op with
    | .argu => return a.toItem?
    | .firstWord => return a.firstWord?
    | .uniqueNotRefine =>
      let p := a.toUnrefined
      match p.name with
      | some _ => return some (.parameter p)
      | none => return some (.parameter { p with name := some (← Substituting.nextUnique) })
    | .out =>
      match a.toExpr? with
      | some e => return some (.directive (.out e))
      | none => throw (.argument (.noValue param))

/-- An expression that stands as an item.  A parameter alone takes its argument as it is, and is
dropped if that is a hole. -/
def Expr.substituteItem (s : Substitution) (e : Expr) : Except Fault (Option ItemKind) :=
  match s.passedThrough? e with
  | some a => .ok a.toItem?
  | none => do return some (.expr (← e.substitute s))

mutual

def Item.substitute (s : Substitution) : Item → Substituting (Option Item)
  | ⟨kind, range⟩ => do
    match ← kind.substitute s with
    | some k => return some ⟨k, range⟩
    | none => return none

def ItemKind.substitute (s : Substitution) : ItemKind → Substituting (Option ItemKind)
  | .expr e => e.substituteItem s
  | .keyword word none => return some (.keyword word none)
  | .keyword word (some equation) => do return some (.keyword word (some (← equation.substitute s)))
  | .parameter p => do return some (.parameter (← p.substitute s))
  | .equation e => do return some (.equation (← e.substitute s))
  | .assignment n e => do
    let m ← s.name n
    return some (.assignment m (← e.substitute s))
  | .declaration scope p => do return some (.declaration scope (← p.substitute s))
  | .existing a => do
    let m ← s.name a.name
    return some (.existing ⟨a.refinement, m, ← a.equation.substitute s⟩)
  | .site n members => do
    let m ← s.name n
    return some (.site m (← Item.substituteAll s members))
  | .siteStatement statement => do return some (.siteStatement (← statement.substitute s))
  | .directive d => do return some (.directive (← d.substitute s))
  | .macroDecl isList signatures body => return some (.macroDecl isList signatures body)
  | .conditional family chain => do return some (.conditional family (← chain.substitute s))
  | .bodyOp op param => op.substitute s param
  | .block items => do return some (.block (← Item.substituteAll s items))

def Chain.substitute (s : Substitution) : Chain → Substituting Chain
  | .done => return .done
  | .otherwise items => do return .otherwise (← Item.substituteAll s items)
  | .branch condition items rest => do
    let c ← condition.substitute s
    let is ← Item.substituteAll s items
    return .branch c is (← rest.substitute s)

/-- The items of a list, without those that are dropped. -/
def Item.substituteAll (s : Substitution) : List Item → Substituting (List Item)
  | [] => return []
  | i :: is => do
    let j ← i.substitute s
    let js ← Item.substituteAll s is
    return j.toList ++ js

end

/-- The arguments of a call bound to the parameters of a macro, pair by pair.  Parameters without a
name bind nothing; of two parameters with one name the later counts. -/
def Bindings.ofArguments (params : List MacroParam) (arguments : List Argument) : Bindings :=
  (params.zip arguments).foldl
    (fun bound (p, a) =>
      match p.name with
      | some n => (n, a) :: bound
      | none => bound)
    []

end ControlFile
