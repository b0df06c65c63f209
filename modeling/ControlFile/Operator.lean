/-!
# Operators

The operators of expressions and of assignments, with their spelling.  Two operands written next
to each other, as in `2x`, are multiplied; `BinaryOp.juxtaposed` is that product, and it has no
spelling.
-/

namespace ControlFile

/-- A sign before an operand. -/
inductive UnaryOp
  | plus
  | minus
deriving DecidableEq, Inhabited

def UnaryOp.symbol : UnaryOp → String
  | .plus => "+"
  | .minus => "-"

/-- An operation on two operands. -/
inductive BinaryOp
  | eq
  | lt
  | gt
  | le
  | ge
  | add
  | sub
  | mul
  | div
  | rem
  | juxtaposed
  | pow
deriving DecidableEq, Inhabited

namespace BinaryOp

def symbol : BinaryOp → String
  | .eq => "=="
  | .lt => "<"
  | .gt => ">"
  | .le => "<="
  | .ge => ">="
  | .add => "+"
  | .sub => "-"
  | .mul => "*"
  | .div => "/"
  | .rem => "%"
  | .juxtaposed => ""
  | .pow => "^"

/-- How tightly an operation binds: comparisons least, powers most.  Level 4 is that of signs. -/
def level : BinaryOp → Nat
  | .eq | .lt | .gt | .le | .ge => 1
  | .add | .sub => 2
  | .mul | .div | .rem | .juxtaposed => 3
  | .pow => 5

end BinaryOp

/-- What an equation does to the value on its left. -/
inductive AssignOp
  | set
  | add
  | sub
  | mul
  | div
  | pow
deriving DecidableEq, Inhabited

namespace AssignOp

def symbol : AssignOp → String
  | .set => "="
  | .add => "+="
  | .sub => "-="
  | .mul => "*="
  | .div => "/="
  | .pow => "^="

/-- The assignment `n op= r` that says the same as `n = n op r`. -/
def ofBinary? : BinaryOp → Option AssignOp
  | .add => some .add
  | .sub => some .sub
  | .mul => some .mul
  | .div => some .div
  | .pow => some .pow
  | _ => none

end AssignOp

end ControlFile
