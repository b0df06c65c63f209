import ControlFile.Expr.Basic
import ControlFile.Number.Shortest

/-!
# Writing expressions

`Expr.render` writes an expression as it would be written in a control file: operations have a
space on either side of their symbol, and only the parentheses that are in the tree are written.
`Expr.renderFull` writes parentheses around every operation instead, so that it shows how an
expression is built.
-/

namespace ControlFile

def Literal.render : Literal → String
  | .integer value => toString value
  | .decimal value => floatText value
  | .string text => "\"" ++ text ++ "\""

def Uncertainty.render : Uncertainty → String
  | .literal value => value.render
  | .name n => n

/-- The symbol of an operation between two spaces, or one space for two factors next to each
other. -/
def BinaryOp.spaced : BinaryOp → String
  | .juxtaposed => " "
  | op => " " ++ op.symbol ++ " "

/-- What stands before an argument that is not the first. -/
def Argument.separator (a : Argument) : String := if a.isHole then "," else ", "

/-- What stands between a mark or name and the value behind it. -/
def Value.separator (before : Bool) : Value → String
  | .absent => ""
  | _ => if before then " " else ""

mutual

def Expr.render : Expr → String
  | .literal value => value.render
  | .ident name => name
  | .call name arguments _ => name ++ "(" ++ Argument.renderFirst arguments ++ ")"
  | .unary op operand => op.symbol ++ operand.render
  | .binary op lhs rhs => lhs.render ++ op.spaced ++ rhs.render
  | .paren inner => "(" ++ inner.render ++ ")"

def Argument.render : Argument → String
  | .hole => ""
  | .parameter param => param.render
  | .expr expr => expr.render
  | .equation equation => equation.render

/-- A list of arguments. -/
def Argument.renderFirst : List Argument → String
  | [] => ""
  | a :: as => a.render ++ Argument.renderRest as

/-- The arguments behind the first. -/
def Argument.renderRest : List Argument → String
  | [] => ""
  | a :: as => a.separator ++ a.render ++ Argument.renderRest as

def Parameter.render : Parameter → String
  | ⟨refinement, name, value⟩ =>
    let marked := refinement != .plain
    refinement.symbol
      ++ (match name with
          | some n => (if marked then " " else "") ++ n
          | none => "")
      ++ value.separator (marked || name.isSome) ++ value.render

def Value.render : Value → String
  | .absent => ""
  | .literal value => value.render
  | .equation equation => equation.render

def Equation.render : Equation → String
  | ⟨op, body, uncertainty⟩ =>
    op.symbol ++ " " ++ body.render ++ ";"
      ++ (match uncertainty with
          | some u => " : " ++ u.render
          | none => "")

end

/-! ### Every operation in parentheses -/

mutual

/-- The expression with every operation in parentheses, and with no others.  Parameters and
equations among the arguments of a call are written as they stand. -/
def Expr.renderFull : Expr → String
  | .literal value => value.render
  | .ident name => name
  | .call name arguments _ => name ++ "(" ++ Argument.renderFullFirst arguments ++ ")"
  | .unary op operand => "(" ++ op.symbol ++ operand.renderFull ++ ")"
  | .binary op lhs rhs => "(" ++ lhs.renderFull ++ op.spaced ++ rhs.renderFull ++ ")"
  | .paren inner => inner.renderFull

def Argument.renderFull : Argument → String
  | .expr expr => expr.renderFull
  | .hole => ""
  | .parameter param => param.render
  | .equation equation => equation.render

def Argument.renderFullFirst : List Argument → String
  | [] => ""
  | a :: as => a.renderFull ++ Argument.renderFullRest as

def Argument.renderFullRest : List Argument → String
  | [] => ""
  | a :: as => a.separator ++ a.renderFull ++ Argument.renderFullRest as

end

end ControlFile
