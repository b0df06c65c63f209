import ControlFile.Diagnostic.Basic
import ControlFile.Expr.Printer

/-!
# The value of an expression

Conditions and preprocessor variables are numbers.  `Expr.evaluate` computes the number of an
expression whose macros have been expanded; `env` gives the values of names.  Every part of the
expression has to be finite, operands are computed from left to right, and the first fault is
the one that is reported.  Comparisons are `1` or `0`.
-/

namespace ControlFile

/-! ### Functions -/

/-- A function that can be called in a condition. -/
inductive Function
  | abs
  | sqrt
  | exp
  | ln
  | sin
  | cos
  | tan
  | min
  | max
deriving DecidableEq, Inhabited

namespace Function

def name : Function → String
  | .abs => "Abs"
  | .sqrt => "Sqrt"
  | .exp => "Exp"
  | .ln => "Ln"
  | .sin => "Sin"
  | .cos => "Cos"
  | .tan => "Tan"
  | .min => "Min"
  | .max => "Max"

def all : List Function := [.abs, .sqrt, .exp, .ln, .sin, .cos, .tan, .min, .max]

def ofName? (text : String) : Option Function := all.find? (·.name == text)

/-- The value at the given arguments, if their number is right.  The least and the greatest of
several values is the last one that is: it decides the sign where zeros of both signs are given. -/
def onValues? : Function → List Float → Option Float
  | .abs, [x] => some x.abs
  | .sqrt, [x] => some x.sqrt
  | .exp, [x] => some x.exp
  | .ln, [x] => some x.log
  | .sin, [x] => some x.sin
  | .cos, [x] => some x.cos
  | .tan, [x] => some x.tan
  | .min, x :: xs => some (xs.foldl (fun a b => if a < b then a else b) x)
  | .max, x :: xs => some (xs.foldl (fun a b => if b < a then a else b) x)
  | _, _ => none

end Function

/-! ### Operations -/

def UnaryOp.apply : UnaryOp → Float → Float
  | .plus, x => x
  | .minus, x => -x

/-- The number of a truth value. -/
def truthValue (b : Bool) : Float := if b then 1.0 else 0.0

/-- The value of an operation. -/
def BinaryOp.apply (op : BinaryOp) (x y : Float) : Except Fault Float :=
  match op with
  | .eq => .ok (truthValue (x == y))
  | .lt => .ok (truthValue (x < y))
  | .gt => .ok (truthValue (x > y))
  | .le => .ok (truthValue (x ≤ y))
  | .ge => .ok (truthValue (x ≥ y))
  | .add => .ok (x + y)
  | .sub => .ok (x - y)
  | .mul | .juxtaposed => .ok (x * y)
  | .div => if y == 0.0 then .error (.value .divisionByZero) else .ok (x / y)
  | .rem => if y == 0.0 then .error (.value .divisionByZero) else .ok (floatRemainder x y)
  | .pow => .ok (x.pow y)

/-! ### Evaluation -/

/-- The value of `e`, if it is finite. -/
def Expr.checkFinite (e : Expr) (value : Float) : Except Fault Float :=
  if value.isFinite then .ok value else .error (.value (.notFinite e.render))

mutual

/-- The number that an expression stands for. -/
def Expr.evaluate (env : String → Option Float) : Expr → Except Fault Float
  | .literal value =>
    match value with
    | .string text => .error (.value (.stringValue text))
    | .integer n => Expr.checkFinite (.literal value) (Binary.ofInt n)
    | .decimal x => Expr.checkFinite (.literal value) x
  | .ident name =>
    match env name with
    | some value => Expr.checkFinite (.ident name) value
    | none => .error (.unresolved name)
  | .call name arguments range =>
    match Function.ofName? name with
    | none => .error (.unresolved name)
    | some f => do
      let values ← Argument.evaluateAll env name arguments
      match f.onValues? values with
      | some value => Expr.checkFinite (.call name arguments range) value
      | none => .error (.value (.argumentCount name values.length))
  | .paren inner => do
    let value ← inner.evaluate env
    Expr.checkFinite (.paren inner) value
  | .unary op operand => do
    let value ← operand.evaluate env
    Expr.checkFinite (.unary op operand) (op.apply value)
  | .binary op lhs rhs => do
    let x ← lhs.evaluate env
    let y ← rhs.evaluate env
    let value ← op.apply x y
    Expr.checkFinite (.binary op lhs rhs) value

/-- The numbers of the arguments of `function`, each of which has to be an expression. -/
def Argument.evaluateAll (env : String → Option Float) (function : String) :
    List Argument → Except Fault (List Float)
  | [] => .ok []
  | a :: as => do
    let value ← a.evaluate env function
    let values ← Argument.evaluateAll env function as
    return value :: values

/-- The number of an argument of `function`. -/
def Argument.evaluate (env : String → Option Float) (function : String) :
    Argument → Except Fault Float
  | .expr expr => expr.evaluate env
  | .hole => .error (.value (.notAnExpression "" function))
  | .parameter param => .error (.value (.notAnExpression param.render function))
  | .equation equation => .error (.value (.notAnExpression equation.render function))

end

end ControlFile
