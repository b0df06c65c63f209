import ControlFile.Number.Binary
import ControlFile.Operator
import ControlFile.Text.Extent

/-!
# Expressions

An expression is built from literals, names, calls, signs and operations; parentheses are kept as
they were written.  The arguments of a call are expressions, equations, parameters, or left out.

Calls and arguments are one family of types: an argument may be an equation, whose body is an
expression again.  Recursive functions on them have one clause for each member of the family.
-/

namespace ControlFile

/-! ### Literals -/

/-- A literal. A string is held without its quotes. -/
inductive Literal
  | integer (value : Int)
  | decimal (value : Float)
  | string (text : String)
deriving Inhabited

namespace Literal

/-- The number that a literal stands for. -/
def toFloat? : Literal → Option Float
  | .integer value => some (Binary.ofInt value)
  | .decimal value => some value
  | .string _ => none

/-- The literal of a computed number: an integer if it is whole and below `2 ^ 53`. -/
def ofNumber (value : Float) : Literal :=
  match (Binary.ofFloat? value).bind Binary.toInt? with
  | some n => if n.natAbs < Nat.pow 2 53 then .integer n else .decimal value
  | none => .decimal value

end Literal

/-- The name that stands for the unique name of an expansion. -/
def uniqueMark : String := "#m_unique"

/-- Whether a parameter takes part in the refinement. -/
inductive Refinement
  | plain
  | refined
  | unrefined
deriving DecidableEq, Inhabited

def Refinement.symbol : Refinement → String
  | .plain => ""
  | .refined => "@"
  | .unrefined => "!"

/-- An error estimate behind an equation. -/
inductive Uncertainty
  | literal (value : Literal)
  | name (name : String)
deriving Inhabited

/-! ### Expressions, arguments and equations -/

mutual

/-- An expression. -/
inductive Expr
  | literal (value : Literal)
  | ident (name : String)
  | call (name : String) (arguments : List Argument) (range : Extent)
  | unary (op : UnaryOp) (operand : Expr)
  | binary (op : BinaryOp) (lhs rhs : Expr)
  | paren (inner : Expr)

/-- An argument of a call. A `hole` is a place left empty, as in `f(a,,c)`. -/
inductive Argument
  | hole
  | parameter (param : Parameter)
  | expr (expr : Expr)
  | equation (equation : Equation)

/-- A place for a value: a refinement mark, a name and a value, each of which may be missing. -/
structure Parameter where
  refinement : Refinement
  name : Option String
  value : Value

/-- The value of a parameter. -/
inductive Value
  | absent
  | literal (value : Literal)
  | equation (equation : Equation)

/-- An assignment operator, the expression behind it, and an error estimate. -/
structure Equation where
  op : AssignOp
  body : Expr
  uncertainty : Option Uncertainty

end

instance : Inhabited Expr := ⟨.ident ""⟩

instance : Inhabited Argument := ⟨.hole⟩

instance : Inhabited Value := ⟨.absent⟩

instance : Inhabited Parameter := ⟨⟨.plain, none, .absent⟩⟩

instance : Inhabited Equation := ⟨⟨.set, default, none⟩⟩

namespace Argument

def isHole : Argument → Bool
  | .hole => true
  | _ => false

end Argument

namespace Parameter

/-- A place with nothing in it. -/
def empty : Parameter := ⟨.plain, none, .absent⟩

def ofLiteral (value : Literal) : Parameter := ⟨.plain, none, .literal value⟩

def ofName (name : String) : Parameter := ⟨.plain, some name, .absent⟩

def ofEquation (equation : Equation) : Parameter := ⟨.plain, none, .equation equation⟩

end Parameter

/-- The value is there. -/
def Value.isPresent : Value → Bool
  | .absent => false
  | _ => true

namespace Expr

/-- Whether the expression is an operation.  All others keep together wherever they are put. -/
def isCompound : Expr → Bool
  | .unary .. | .binary .. => true
  | _ => false

/-- The expression, in parentheses if it is an operation. -/
def parenthesized (e : Expr) : Expr := if e.isCompound then .paren e else e

/-- The expression without the parentheses around it. -/
def stripParens : Expr → Expr
  | .paren inner => inner.stripParens
  | e => e

/-- The name that the expression is. -/
def ident? : Expr → Option String
  | .ident name => some name
  | _ => none

@[simp] theorem stripParens_paren (e : Expr) : (Expr.paren e).stripParens = e.stripParens := by
  rw [stripParens]

theorem isCompound_parenthesized (e : Expr) : e.parenthesized.isCompound = false := by
  cases e <;> rfl

end Expr

end ControlFile
