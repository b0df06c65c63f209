import ControlFile.Expr.Basic
import ControlFile.Number.Decimal
import ControlFile.Token.Cursor

/-!
# Reading expressions

An expression is a comparison of sums of products of signed powers:

    comparison  ==  <  >  <=  >=     1
    sum         +  -                 2
    product     *  /  %  or nothing  3
    sign        +  -                 4
    power       ^                    5

All operations group to the left, powers too: `a^b^c` is `(a^b)^c`.  A sign before a power applies
to the power, while a minus that touches a number is part of the number, unless a `^` follows.

Two factors next to each other are a product only where this is asked for: in equations,
conditions, arguments and parentheses.  Between items they are two items; there, a minus that
touches a number and has space before it starts a new item as well.

A name is a call only if the parenthesis touches it.

Nesting is limited.  `expression` counts down the levels that are left, and the parsers of one
level take the parser of the next level, `inner`, for what stands in parentheses and arguments.
-/

namespace ControlFile

/-! ### Literals -/

/-- The text of a string without its quotes. -/
def unquote (text : String) : String := String.ofList (text.toList.drop 1).dropLast

/-- Whether a whole number fits into 64 bits with a sign. -/
def fitsInteger (n : Int) : Bool := Int64.minValue.toInt ≤ n && n ≤ Int64.maxValue.toInt

/-- The literal that a token stands for, with a minus before it if `negative` says so. -/
def Token.literal (negative : Bool) (t : Token) : Except Fault Literal :=
  match t.kind with
  | .integer =>
    let n : Int := Decimal.digitsValue t.text.toList
    let value := if negative then -n else n
    if fitsInteger value then .ok (.integer value) else .error (.integerOutOfRange t.text)
  | .decimal =>
    match Decimal.readNumber? t.text.toList with
    | some x => .ok (.decimal (if negative then -x else x))
    | none => .error (.decimalOutOfRange t.text)
  | .string => .ok (.string (unquote t.text))
  | _ => .error (.expected .expression (some t.text))

namespace Cursor

/-- At a minus that touches a number. -/
def isAtMinusNumber (c : Cursor) : Bool :=
  c.isAt (.operator .sub) && ((c.peekKind? 1).map TokenKind.isNumber).getD false && !c.isSpaced 1

/-- At a minus that is part of the number it touches. -/
def isAtNegativeLiteral (c : Cursor) : Bool :=
  c.isAtMinusNumber && c.peekKind? 2 != some (.operator .pow)

/-- At a minus that touches a number and has space before it. -/
def isAtDetachedNegative (c : Cursor) : Bool := c.isAtMinusNumber && c.isSpaced 0

/-- At a name with an opening parenthesis that touches it, the name being the current token. -/
def isAtCall (c : Cursor) : Bool :=
  c.peekKind? 1 == some (.mark .openParen) && !c.isSpaced 1

/-- The sign at the cursor. -/
def sign? (c : Cursor) : Option UnaryOp :=
  match c.kind? with
  | some (.operator .add) => some .plus
  | some (.operator .sub) => some .minus
  | _ => none

end Cursor

namespace TokenKind

/-- What can start an operand that is not a string. -/
def startsOperand : TokenKind → Bool
  | .ident | .integer | .decimal | .mark .openParen | .directive .unique => true
  | _ => false

/-- What can start an expression. -/
def startsExpression (k : TokenKind) : Bool :=
  k.startsOperand || k == .string || k == .operator .add || k == .operator .sub

end TokenKind

/-- Words that cannot be the name of a parameter: keywords and the words of a site. -/
def Vocabulary.isReserved (v : Vocabulary) (word : String) : Bool :=
  v.contains word || (SiteWord.ofWord? word).isSome

/-- At a name for a parameter. -/
def Cursor.isAtParameterName (v : Vocabulary) (c : Cursor) : Bool :=
  match c.peek? 0 with
  | some t =>
    match t.kind with
    | .ident => !v.isReserved t.text
    | .directive .unique => true
    | _ => false
  | none => false

namespace Parser

/-- The literal at the current token. -/
def literal (negative : Bool) : Parser Literal := fun c =>
  match c.rest with
  | t :: _ =>
    match t.literal negative with
    | .ok value => .ok value c.advance
    | .error fault => .error ⟨fault, t.range⟩ c
  | [] => failExpected .expression c

/-- A literal with a minus that may touch it.  Nothing is consumed if there is none. -/
def signedLiteral? : Parser (Option Literal) := do
  let c ← get
  if c.isAtMinusNumber then
    advance
    return some (← literal true)
  else if ((c.kind?).map TokenKind.isLiteral).getD false then
    return some (← literal false)
  else return none

/-! ### Parameters and equations -/

/-- A mark for refinement, if there is one. -/
def refinement : Parser Refinement := do
  if ← takeIf (.mark .atSign) then return .refined
  else if ← takeIf (.mark .bang) then return .unrefined
  else return .plain

/-- A name for a parameter, if there is one. -/
def parameterName? (v : Vocabulary) : Parser (Option String) := do
  if (← get).isAtParameterName v then return some (← takeText) else return none

/-- The value of a parameter that is a literal, or nothing. -/
def literalValue : Parser Value := do
  match ← signedLiteral? with
  | some value => return .literal value
  | none => return .absent

/-- A mark, a name and a literal. The name and the literal may be missing. -/
def markedParameter (v : Vocabulary) : Parser Parameter := do
  let mark ← refinement
  let name ← parameterName? v
  let value ← literalValue
  return ⟨mark, name, value⟩

/-- The error estimate behind a colon. -/
def uncertainty : Parser Uncertainty := do
  if (← get).isAt .ident then return .name (← takeText)
  else
    match ← signedLiteral? with
    | some (.integer n) => return .literal (.integer n)
    | some (.decimal x) => return .literal (.decimal x)
    | _ => fail .missingUncertainty

/-- An equation, the assignment operator being the current token. -/
def equation (inner : Parser Expr) (op : AssignOp) : Parser Equation := do
  advance
  let body ← inner
  expect (.mark .semicolon) .equationEnd
  if ← takeIf (.mark .colon) then return ⟨op, body, some (← uncertainty)⟩
  else return ⟨op, body, none⟩

/-! ### Calls and operands -/

/-- One argument of a call. -/
def argument (v : Vocabulary) (inner : Parser Expr) : Parser Argument := do
  let c ← get
  match c.kind? with
  | some (.mark .comma) | some (.mark .closeParen) => return .hole
  | some (.mark .atSign) | some (.mark .bang) => return .parameter (← markedParameter v)
  | some (.assign op) => return .equation (← equation inner op)
  | some kind =>
    if kind.startsExpression then return .expr (← inner) else fail (.invalidArgument c.found)
  | none => fail (.invalidArgument c.found)

/-- The arguments of a call up to the closing parenthesis, `limit` of them at most.  Each takes a
comma or the parenthesis, so their number is bounded by that of the tokens. -/
def arguments (v : Vocabulary) (inner : Parser Expr) : (limit : Nat) → Parser (List Argument)
  | 0 => return []
  | limit + 1 => do
    let a ← argument v inner
    if ← takeIf (.mark .comma) then return a :: (← arguments v inner limit)
    else
      expect (.mark .closeParen) .argumentsEnd
      return [a]

/-- The call of `name`, which starts at `start`; the opening parenthesis is the current token. -/
def call (v : Vocabulary) (inner : Parser Expr) (name : String) (start : Nat) : Parser Expr := do
  advance
  let as ← if ← takeIf (.mark .closeParen) then pure []
    else arguments v inner ((← get).rest.length + 1)
  return .call name as ⟨start, (← get).lastEnd⟩

/-- A literal, a name, a call or an expression in parentheses. -/
def primary (v : Vocabulary) (inner : Parser Expr) : Parser Expr := do
  let c ← get
  match c.peek? 0 with
  | none => failExpected .expression
  | some t =>
    match t.kind with
    | .integer | .decimal | .string => return .literal (← literal false)
    | .ident =>
      advance
      if c.isAtCall then call v inner t.text t.range.start else return .ident t.text
    | .directive .unique =>
      advance
      return .ident uniqueMark
    | .mark .openParen =>
      advance
      let e ← inner
      expect (.mark .closeParen) .closeParen
      return .paren e
    | _ => failExpected .expression

/-! ### Operations -/

/-- An exponent, which may have a sign of its own. -/
def exponent (v : Vocabulary) (inner : Parser Expr) : Parser Expr := do
  let c ← get
  if c.isAtNegativeLiteral then
    advance
    return .literal (← literal true)
  else
    match c.sign? with
    | some op =>
      advance
      return .unary op (← primary v inner)
    | none => primary v inner

/-- The exponents behind `base`, `limit` of them at most. -/
def exponents (v : Vocabulary) (inner : Parser Expr) : (limit : Nat) → Expr → Parser Expr
  | 0, base => return base
  | limit + 1, base => do
    if ← takeIf (.operator .pow) then
      let e ← exponent v inner
      exponents v inner limit (.binary .pow base e)
    else return base

/-- An operand with its exponents. -/
def power (v : Vocabulary) (inner : Parser Expr) : Parser Expr := do
  let base ← primary v inner
  exponents v inner (← get).rest.length base

/-- A power with an optional sign. -/
def signed (v : Vocabulary) (inner : Parser Expr) : Parser Expr := do
  let c ← get
  if c.isAtNegativeLiteral then
    advance
    return .literal (← literal true)
  else
    match c.sign? with
    | some op =>
      advance
      return .unary op (← power v inner)
    | none => power v inner

/-- The operation that goes on at the cursor.  A power does not: it is part of an operand. -/
def operation? (juxtapose : Bool) (c : Cursor) : Option BinaryOp :=
  match c.kind? with
  | some (.operator .pow) | some (.operator .juxtaposed) => none
  | some (.operator .sub) => if !juxtapose && c.isAtDetachedNegative then none else some .sub
  | some (.operator op) => some op
  | some kind => if juxtapose && kind.startsOperand then some .juxtaposed else none
  | none => none

/-- Consumes the symbol of an operation, if it has one. -/
def skipSymbol (op : BinaryOp) : Parser Unit :=
  if op = .juxtaposed then pure () else advance

/-- The operations of one level behind `lhs`, `limit` of them at most. -/
def operations (juxtapose : Bool) (level : Nat) (operand : Parser Expr) :
    (limit : Nat) → Expr → Parser Expr
  | 0, lhs => return lhs
  | limit + 1, lhs => do
    match operation? juxtapose (← get) with
    | some op =>
      if op.level = level then
        skipSymbol op
        let rhs ← operand
        operations juxtapose level operand limit (.binary op lhs rhs)
      else return lhs
    | none => return lhs

/-- Operands joined by the operations of one level, grouped to the left. -/
def grouped (juxtapose : Bool) (level : Nat) (operand : Parser Expr) : Parser Expr := do
  let lhs ← operand
  operations juxtapose level operand (← get).rest.length lhs

/-- A comparison of sums of products. -/
def comparison (v : Vocabulary) (inner : Parser Expr) (juxtapose : Bool) : Parser Expr :=
  grouped juxtapose 1 (grouped juxtapose 2 (grouped juxtapose 3 (signed v inner)))

/-- An expression with at most `levels` levels of nesting. -/
def expression (v : Vocabulary) : (levels : Nat) → (juxtapose : Bool) → Parser Expr
  | 0, _ => fail .nestingTooDeep
  | levels + 1, juxtapose => comparison v (expression v levels true) juxtapose

@[simp] theorem expression_zero (v : Vocabulary) (juxtapose : Bool) :
    expression v 0 juxtapose = fail .nestingTooDeep := rfl

end Parser

end ControlFile
