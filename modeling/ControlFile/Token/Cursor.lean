import ControlFile.Token.Stream

/-!
# Cursors

A cursor stands in a row of significant tokens.  It knows where the last token before it ended and
where the text ends, so that it can say at every moment which stretch of text it is at.

A `Parser` moves a cursor forward and gives a result or a diagnostic; also when it fails, the
cursor stays where the parser left it.  This is where reading goes on.
-/

namespace ControlFile

/-- A place in a row of tokens. -/
structure Cursor where
  rest : List Token
  lastEnd : Nat
  textEnd : Nat
deriving Inhabited

namespace Cursor

/-- The `n`th token ahead; the current one is that for `0`. -/
def peek? (c : Cursor) (n : Nat) : Option Token := c.rest[n]?

/-- What the current token is. -/
def kind? (c : Cursor) : Option TokenKind := (c.peek? 0).map (·.kind)

/-- What the `n`th token ahead is. -/
def peekKind? (c : Cursor) (n : Nat) : Option TokenKind := (c.peek? n).map (·.kind)

/-- Whether there is space before the `n`th token ahead.  There is at the end of the text. -/
def isSpaced (c : Cursor) (n : Nat) : Bool := ((c.peek? n).map (·.spaced)).getD true

def isAt (c : Cursor) (kind : TokenKind) : Bool := c.kind? == some kind

/-- What there is to be found, for a message. -/
def found (c : Cursor) : Found := (c.peek? 0).map (·.text)

/-- The current token's place; the end of the text has one too. -/
def here (c : Cursor) : Extent :=
  match c.rest with
  | t :: _ => t.range
  | [] => .emptyAt c.textEnd

/-- One token further, if there is one. -/
def advance (c : Cursor) : Cursor :=
  match c.rest with
  | t :: ts => { c with rest := ts, lastEnd := t.range.stop }
  | [] => c

/-- Past the tokens that satisfy `p`. -/
def skipWhile (p : Token → Bool) (c : Cursor) : Cursor :=
  { c with
    rest := c.rest.dropWhile p
    lastEnd := (((c.rest.takeWhile p).getLast?).map (·.range.stop)).getD c.lastEnd }

theorem length_rest_advance (c : Cursor) : c.advance.rest.length = c.rest.length - 1 := by
  unfold advance
  split <;> simp_all

end Cursor

/-- A parser that consumes tokens and either gives a result or fails. -/
abbrev Parser := EStateM Diagnostic Cursor

namespace Parser

variable {α : Type}

/-- Fails at the current token. -/
def fail (fault : Fault) : Parser α := fun c => .error ⟨fault, c.here⟩ c

/-- Fails because `what` does not come next. -/
def failExpected (what : Expected) : Parser α :=
  fun c => .error ⟨.expected what c.found, c.here⟩ c

/-- Consumes one token. -/
def advance : Parser Unit := modify Cursor.advance

/-- Consumes the current token if it is of the given kind, and says whether it is. -/
def takeIf (kind : TokenKind) : Parser Bool :=
  fun c => if c.isAt kind then .ok true c.advance else .ok false c

/-- Consumes a token of the given kind, which has to come next. -/
def expect (kind : TokenKind) (what : Expected) : Parser Unit :=
  fun c => if c.isAt kind then .ok () c.advance else .error ⟨.expected what c.found, c.here⟩ c

/-- Consumes the current token and gives its text. -/
def takeText : Parser String := fun c => .ok (((c.peek? 0).map (·.text)).getD "") c.advance

end Parser

end ControlFile
