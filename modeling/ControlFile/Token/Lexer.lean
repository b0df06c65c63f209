import ControlFile.Token.Basic

/-!
# Cutting a text into tokens

`Lexer.first` says what the first token of a text is and how many characters it takes; the longest
token that can start there is taken.  `Lexer.scan` repeats this to the end of the text.  A
character at which no token can start is an invalid token of its own, so every text can be cut.

* An identifier is a letter, and then letters, digits and `_`.
* A number has no sign.  With a fraction or an exponent it is a decimal.  The exponent needs a digit,
  or else it is not part of the number: `1e-x` is `1`, `e`, `-`, `x`.
* A string ends on the line on which it starts.
* A line comment starts with an apostrophe; a block comment that is not closed runs to the end.

The tokens stand one directly behind the other (`scan_cons`), and each of them takes a character.
-/

namespace ControlFile.Lexer

/-! ### Character classes -/

/-- Blank characters of a control file, all of them ASCII. -/
def isSpace (c : Char) : Bool := c == ' ' || c == '\t' || c == '\r' || c == '\n' || c == '\x0c'

/-- Characters of a word behind its first one: the letters and digits of ASCII, and `_`. -/
def isWordChar (c : Char) : Bool := c.isAlphanum || c == '_'

/-- How many characters at the start of the text satisfy `p`. -/
def countWhile (p : Char → Bool) (cs : List Char) : Nat := (cs.takeWhile p).length

theorem countWhile_le (p : Char → Bool) (cs : List Char) : countWhile p cs ≤ cs.length :=
  (List.takeWhile_sublist p).length_le

theorem take_countWhile (p : Char → Bool) (cs : List Char) :
    cs.take (countWhile p cs) = cs.takeWhile p := by
  induction cs with
  | nil => rfl
  | cons c cs ih => by_cases h : p c <;> simp_all [countWhile]

theorem drop_countWhile (p : Char → Bool) (cs : List Char) :
    cs.drop (countWhile p cs) = cs.dropWhile p := by
  induction cs with
  | nil => rfl
  | cons c cs ih => by_cases h : p c <;> simp_all [countWhile]

/-! ### Numbers -/

/-- The length of a point and at least one digit, or `0`. -/
def fractionLength : List Char → Nat
  | '.' :: cs => if countWhile Char.isDigit cs = 0 then 0 else countWhile Char.isDigit cs + 1
  | _ => 0

/-- The length of an exponent without its mark, or `0`: an optional minus, at least one digit, and
an optional fraction. -/
def powerLength (cs : List Char) : Nat :=
  let sign := if cs.head? = some '-' then 1 else 0
  let digits := countWhile Char.isDigit (cs.drop sign)
  if digits = 0 then 0 else sign + digits + fractionLength (cs.drop (sign + digits))

/-- The length of an exponent, or `0`. -/
def exponentLength : List Char → Nat
  | c :: cs =>
    if (c == 'e' || c == 'E') && powerLength cs != 0 then powerLength cs + 1 else 0
  | [] => 0

/-- A number whose first digit has been read: what it is, and how many characters follow. -/
def number (cs : List Char) : TokenKind × Nat :=
  let whole := countWhile Char.isDigit cs
  let fraction := fractionLength (cs.drop whole)
  let exponent := exponentLength (cs.drop (whole + fraction))
  (if fraction + exponent = 0 then .integer else .decimal, whole + fraction + exponent)

/-! ### Words, strings and comments -/

/-- A word that starts with the letter `c`. -/
def word (c : Char) (cs : List Char) : TokenKind × Nat :=
  let n := countWhile isWordChar cs
  match Keyword.ofWord? (String.ofList (c :: cs.take n)) with
  | some k => (.keyword k, n)
  | none => (.ident, n)

/-- A directive, behind its `#`. -/
def directive (cs : List Char) : TokenKind × Nat :=
  match cs with
  | c :: _ =>
    if c.isAlpha || c == '_' then
      let n := countWhile isWordChar cs
      (.directive (.ofWord (String.ofList ('#' :: cs.take n))), n)
    else (.invalid, 0)
  | [] => (.invalid, 0)

/-- A string, behind its opening quote. -/
def string (cs : List Char) : TokenKind × Nat :=
  let n := countWhile (fun c => c != '\x22' && c != '\n') cs
  if (cs.drop n).head? = some '\x22' then (.string, n + 1) else (.invalid, n)

/-- The length of a block comment behind its opening mark, if it is closed. -/
def commentLength? : List Char → Option Nat
  | [] => none
  | '*' :: '/' :: _ => some 2
  | _ :: cs => (commentLength? cs).map (· + 1)

/-! ### Punctuation -/

/-- A token of one character. -/
def single (c : Char) : TokenKind :=
  match c with
  | '\x7b' => .mark .openBrace
  | '\x7d' => .mark .closeBrace
  | '(' => .mark .openParen
  | ')' => .mark .closeParen
  | ';' => .mark .semicolon
  | ':' => .mark .colon
  | ',' => .mark .comma
  | '&' => .mark .ampersand
  | '@' => .mark .atSign
  | '!' => .mark .bang
  | '=' => .assign .set
  | '<' => .operator .lt
  | '>' => .operator .gt
  | '+' => .operator .add
  | '-' => .operator .sub
  | '*' => .operator .mul
  | '/' => .operator .div
  | '%' => .operator .rem
  | '^' => .operator .pow
  | _ => .invalid

/-- A token of the character `c` and an equals sign. -/
def withEquals (c : Char) : Option TokenKind :=
  match c with
  | '+' => some (.assign .add)
  | '-' => some (.assign .sub)
  | '*' => some (.assign .mul)
  | '/' => some (.assign .div)
  | '^' => some (.assign .pow)
  | '=' => some (.operator .eq)
  | '<' => some (.operator .le)
  | '>' => some (.operator .ge)
  | _ => none

/-- Punctuation that starts with `c`. -/
def punctuation (c : Char) (cs : List Char) : TokenKind × Nat :=
  match withEquals c with
  | some kind => if cs.head? = some '=' then (kind, 1) else (single c, 0)
  | none => (single c, 0)

/-! ### The first token -/

/-- The first token of the text `c :: cs`: what it is, and how many characters behind `c` it has. -/
def first (c : Char) (cs : List Char) : TokenKind × Nat :=
  if isSpace c then (.blank, countWhile isSpace cs)
  else if c == '\x27' then (.comment .line, countWhile (· != '\n') cs)
  else if c.isAlpha then word c cs
  else if c.isDigit then number cs
  else if c == '.' && fractionLength (c :: cs) != 0 then (.decimal, countWhile Char.isDigit cs)
  else if c == '\x22' then string cs
  else if c == '#' then directive cs
  else if c == '/' && cs.head? = some '*' then
    match commentLength? (cs.drop 1) with
    | some n => (.comment .block, n + 1)
    | none => (.unclosedComment, cs.length)
  else punctuation c cs

/-- The tokens of a text whose first byte is at `offset`. -/
def scan (offset : Nat) (spaced : Bool) : List Char → List Token
  | [] => []
  | c :: cs =>
    let (kind, n) := first c cs
    let text := c :: cs.take n
    let stop := offset + byteLength text
    ⟨kind, String.ofList text, ⟨offset, stop⟩, spaced⟩ :: scan stop kind.isTrivia (cs.drop n)
termination_by cs => cs.length
decreasing_by
  simp only [List.length_cons, List.length_drop]
  omega

@[simp] theorem scan_nil (offset : Nat) (spaced : Bool) : scan offset spaced [] = [] := by
  simp [scan]

theorem scan_cons (offset : Nat) (spaced : Bool) (c : Char) (cs : List Char) :
    scan offset spaced (c :: cs) =
      ⟨(first c cs).1, String.ofList (c :: cs.take (first c cs).2),
        ⟨offset, offset + byteLength (c :: cs.take (first c cs).2)⟩, spaced⟩ ::
      scan (offset + byteLength (c :: cs.take (first c cs).2)) (first c cs).1.isTrivia
        (cs.drop (first c cs).2) := by
  rw [scan]

end ControlFile.Lexer

namespace ControlFile

/-- The tokens of a text. -/
def Token.ofText (text : String) : List Token := Lexer.scan 0 true text.toList

/-- The tokens of a text from byte `offset` on.  There are none if the offset is behind the end of
the text or inside a character. -/
def Token.ofTextAt (text : String) (offset : Nat) : List Token :=
  match dropBytes offset text.toList with
  | some cs => Lexer.scan offset true cs
  | none => []

end ControlFile
