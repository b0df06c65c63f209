import ControlFile.Expr.Parser
import ControlFile.Expr.Printer
import ControlFile.Proofs.Token.Lexeme

/-!
# What the writing of an expression shows

An expression is written without any parentheses but its own, so its writing shows how it is built
only if it is built as the grammar groups it.  `Expr.Grammatical` says so: the operands of an
operation bind tightly enough (`Expr.rank`), names and literals are tokens, and a place for a value
in an argument has the form that is read there.

Two things are lost in any case.  A call does not keep its place in the text (`Expr.bare`), and a
minus before a number is read as part of the number, whether there was space between the two or
not (`Expr.foldSigns`).
-/

namespace ControlFile

/-! ### Literals -/

namespace Literal

/-- Whether a literal is written with a minus. -/
def isNegative : Literal → Bool
  | .integer n => n < 0
  | .decimal x => ((Binary.ofFloat? x).map (·.negative)).getD false
  | .string _ => false

def isNumber : Literal → Bool
  | .string _ => false
  | _ => true

/-- The number with the other sign. -/
def negated : Literal → Literal
  | .integer n => .integer (-n)
  | .decimal x => .decimal (-x)
  | .string text => .string text

/-- A literal that can be written: an integer of 64 bits, a finite number, or a string that ends
where its quotes say. -/
def Legible : Literal → Prop
  | .integer n => fitsInteger n = true
  | .decimal x => x.isFinite = true
  | .string text => '\x22' ∉ text.toList ∧ '\n' ∉ text.toList

instance : (value : Literal) → Decidable value.Legible
  | .integer n => inferInstanceAs (Decidable (fitsInteger n = true))
  | .decimal x => inferInstanceAs (Decidable (x.isFinite = true))
  | .string text => inferInstanceAs (Decidable ('\x22' ∉ text.toList ∧ '\n' ∉ text.toList))

/-- A number that is written without a minus. -/
def isUnsigned (value : Literal) : Bool :=
  value.isNumber && !value.isNegative && decide value.Legible

end Literal

/-! ### Ranks -/

namespace Expr

/-- How tightly an expression holds together: 6 for what needs no parentheses anywhere, then the
levels of the operations, that of signs being 4. -/
def rank : Expr → Nat
  | .literal value => if value.isNegative then 4 else 6
  | .ident _ | .call .. | .paren _ => 6
  | .unary .. => 4
  | .binary op .. => op.level

/-- What may follow a power sign: an operand with at most one sign. -/
def isExponent : Expr → Bool
  | .literal _ => true
  | .unary _ operand => operand.rank == 6
  | e => e.rank == 6

/-- Whether the expression is a power whose last exponent is a number with a minus.  It is not a
base: before another power sign, the minus is not part of the number. -/
def endsNegative : Expr → Bool
  | .binary .pow _ (.literal value) => value.isNegative
  | _ => false

/-- Whether the expression may follow another one as a factor. -/
def startsFactor : Expr → Bool
  | .literal value => value.isNumber
  | .binary _ lhs _ => lhs.startsFactor
  | _ => true

end Expr

/-- The operands bind tightly enough.  Operations group to the left, so only the left operand may
be an operation of the same level. -/
def BinaryOp.Groups (juxtapose : Bool) (op : BinaryOp) (lhs rhs : Expr) : Prop :=
  match op with
  | .pow => 5 ≤ lhs.rank ∧ lhs.endsNegative = false ∧ rhs.isExponent = true
  | .juxtaposed => juxtapose = true ∧ 3 ≤ lhs.rank ∧ 5 ≤ rhs.rank ∧ rhs.startsFactor = true
  | op => op.level ≤ lhs.rank ∧ op.level < rhs.rank

/-- The lexer takes the text for a name. -/
def IsName (text : String) : Prop := LexesAs .ident text

/-- A name, or the mark that stands for one. -/
def IsNameOrMark (text : String) : Prop := text = uniqueMark ∨ IsName text

/-! ### Grammatical expressions -/

def Uncertainty.Legible : Uncertainty → Prop
  | .literal value => value.Legible ∧ value.isNumber = true
  | .name n => IsName n

/-- A value that is left out or is a literal. -/
def Value.IsPlain : Value → Prop
  | .absent => True
  | .literal value => value.Legible
  | .equation _ => False

/-- A name for a parameter, which may be left out. -/
def IsParameterName (v : Vocabulary) : Option String → Prop
  | some n => n = uniqueMark ∨ IsName n ∧ v.isReserved n = false
  | none => True

/-- A marked place, as it is read among the arguments of a call. -/
def Parameter.IsMarked (v : Vocabulary) (p : Parameter) : Prop :=
  p.refinement ≠ .plain ∧ IsParameterName v p.name ∧ p.value.IsPlain

/-- One argument that is left out.  It is written as no argument at all. -/
def Argument.IsHoleOnly : List Argument → Prop
  | [.hole] => True
  | _ => False

mutual

/-- The expression is built as the grammar groups it.  `juxtapose` says whether factors may stand
next to each other. -/
def Expr.Grammatical (v : Vocabulary) (juxtapose : Bool) : Expr → Prop
  | .literal value => value.Legible
  | .ident name => IsNameOrMark name
  | .call name arguments _ =>
    IsName name ∧ ¬Argument.IsHoleOnly arguments ∧ Argument.AllGrammatical v arguments
  | .unary _ operand => 5 ≤ operand.rank ∧ operand.Grammatical v juxtapose
  | .binary op lhs rhs =>
    op.Groups juxtapose lhs rhs ∧ lhs.Grammatical v juxtapose ∧ rhs.Grammatical v juxtapose
  | .paren inner => inner.Grammatical v true

def Argument.AllGrammatical (v : Vocabulary) : List Argument → Prop
  | [] => True
  | a :: as => a.Grammatical v ∧ Argument.AllGrammatical v as

def Argument.Grammatical (v : Vocabulary) : Argument → Prop
  | .hole => True
  | .parameter param => param.IsMarked v
  | .expr expr => expr.Grammatical v true
  | .equation equation => equation.Grammatical v

def Equation.Grammatical (v : Vocabulary) : Equation → Prop
  | ⟨_, body, uncertainty⟩ =>
    body.Grammatical v true ∧ ∀ u, uncertainty = some u → u.Legible

end

/-! ### Nesting -/

mutual

/-- How many parentheses and calls are open at once. -/
def Expr.nesting : Expr → Nat
  | .literal _ | .ident _ => 0
  | .call _ arguments _ => Argument.nestingAll arguments
  | .unary _ operand => operand.nesting
  | .binary _ lhs rhs => max lhs.nesting rhs.nesting
  | .paren inner => inner.nesting + 1

def Argument.nestingAll : List Argument → Nat
  | [] => 0
  | a :: as => max a.nesting (Argument.nestingAll as)

def Argument.nesting : Argument → Nat
  | .hole | .parameter _ => 0
  | .expr expr => expr.nesting + 1
  | .equation equation => equation.nesting + 1

def Equation.nesting : Equation → Nat
  | ⟨_, body, _⟩ => body.nesting

end

/-! ### Expressions without places -/

mutual

/-- The expression without the places of its calls. -/
def Expr.bare : Expr → Expr
  | .literal value => .literal value
  | .ident name => .ident name
  | .call name arguments _ => .call name (Argument.bareAll arguments) (.emptyAt 0)
  | .unary op operand => .unary op operand.bare
  | .binary op lhs rhs => .binary op lhs.bare rhs.bare
  | .paren inner => .paren inner.bare

def Argument.bareAll : List Argument → List Argument
  | [] => []
  | a :: as => a.bare :: Argument.bareAll as

def Argument.bare : Argument → Argument
  | .hole => .hole
  | .parameter param => .parameter param.bare
  | .expr expr => .expr expr.bare
  | .equation equation => .equation equation.bare

def Parameter.bare : Parameter → Parameter
  | ⟨refinement, name, value⟩ => ⟨refinement, name, value.bare⟩

def Value.bare : Value → Value
  | .absent => .absent
  | .literal value => .literal value
  | .equation equation => .equation equation.bare

def Equation.bare : Equation → Equation
  | ⟨op, body, uncertainty⟩ => ⟨op, body.bare, uncertainty⟩

end

/-! ### Signs that become part of a number -/

/-- The number that a sign and an operand are read as, unless a power sign follows. -/
def UnaryOp.foldedLiteral? (followed : Bool) : UnaryOp → Expr → Option Literal
  | .minus, .literal value =>
    if !followed && value.isUnsigned then some value.negated else none
  | _, _ => none

mutual

/-- The expression with each minus taken into the number behind it.  `followed` says that a power
sign follows the expression: a minus before the last number is then kept. -/
def Expr.foldSigns (followed : Bool) : Expr → Expr
  | .literal value => .literal value
  | .ident name => .ident name
  | .call name arguments range => .call name (Argument.foldSignsAll arguments) range
  | .unary op operand =>
    match op.foldedLiteral? followed operand with
    | some value => .literal value
    | none => .unary op (operand.foldSigns followed)
  | .binary op lhs rhs => .binary op (lhs.foldSigns (op == .pow)) (rhs.foldSigns followed)
  | .paren inner => .paren (inner.foldSigns false)

def Argument.foldSignsAll : List Argument → List Argument
  | [] => []
  | a :: as => a.foldSigns :: Argument.foldSignsAll as

def Argument.foldSigns : Argument → Argument
  | .hole => .hole
  | .parameter param => .parameter param.foldSigns
  | .expr expr => .expr (expr.foldSigns false)
  | .equation equation => .equation equation.foldSigns

def Parameter.foldSigns : Parameter → Parameter
  | ⟨refinement, name, value⟩ => ⟨refinement, name, value.foldSigns⟩

def Value.foldSigns : Value → Value
  | .absent => .absent
  | .literal value => .literal value
  | .equation equation => .equation equation.foldSigns

def Equation.foldSigns : Equation → Equation
  | ⟨op, body, uncertainty⟩ => ⟨op, body.foldSigns false, uncertainty⟩

end

/-- Only a minus becomes part of a number, and only of one without a minus. -/
theorem UnaryOp.exists_of_foldedLiteral? {op : UnaryOp} {followed : Bool} {e : Expr} {value : Literal}
    (h : op.foldedLiteral? followed e = some value) :
    op = .minus ∧ ∃ w, e = .literal w ∧ w.isUnsigned = true ∧ value = w.negated := by
  unfold foldedLiteral? at h
  split at h
  · rename_i w
    split at h
    · rename_i hw
      cases h
      rw [Bool.and_eq_true] at hw
      exact ⟨rfl, w, rfl, hw.2, rfl⟩
    · cases h
  · cases h

end ControlFile
