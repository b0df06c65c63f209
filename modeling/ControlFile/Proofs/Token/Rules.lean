import ControlFile.Token.Lexer
import Mathlib.Computability.Language

/-!
# The rules of tokens

What a token may look like, apart from how it is cut.  A `Lexer.Rule` says which texts it takes, and
what kind of token they are.  Most rules are regular languages; the others are spelled out letter by
letter: keywords, directives and marks (`Lexer.rules` has all of them).

Only block comments look at what is behind them: a comment goes on up to the first mark that closes
it, and to the end of the text if there is none.

`Lexer.Stands` is the choice between the rules.  The longest text that any rule takes is the token.
Where two rules take the same text, one that is spelled out goes before one that is not.  There is at
most one such token (`Stands.unique`).
-/

namespace ControlFile.Lexer

open scoped Computability

/-! ### Languages of words -/

/-- The words of one character that satisfies `p`. -/
def oneOf (p : Char → Bool) : Language Char := {w | ∃ c, p c = true ∧ w = [c]}

/-- At least one digit. -/
def digits : Language Char := oneOf Char.isDigit * (oneOf Char.isDigit)∗

/-- A point and at least one digit. -/
def fraction : Language Char := oneOf (· == '.') * digits

/-- An exponent behind its mark. -/
def signedPower : Language Char := (1 + oneOf (· == '-')) * (digits * (1 + fraction))

/-- An exponent. -/
def exponentPart : Language Char := oneOf (fun c => c == 'e' || c == 'E') * signedPower

/-- A character of a string. -/
def isQuotable (c : Char) : Bool := c != '\x22' && c != '\n'

/-- A quote and all that may stand in a string. -/
def openString : Language Char := oneOf (· == '\x22') * (oneOf isQuotable)∗

/-- Characters that a directive may start with, behind its `#`. -/
def startsDirective (c : Char) : Bool := c.isAlpha || c == '_'

/-! ### Rules -/

/-- A rule takes some texts, depending on what is behind them, for tokens of one kind.  `exact` says
that it is spelled out. -/
structure Rule where
  kind : TokenKind
  exact : Bool
  Takes : (text rest : List Char) → Prop

namespace Rule

/-- A rule that takes the words of a language. -/
def regular (kind : TokenKind) (words : Language Char) : Rule := ⟨kind, false, fun w _ => w ∈ words⟩

/-- A rule that takes one word. -/
def spelled (word : String) (kind : TokenKind) : Rule := ⟨kind, true, fun w _ => w = word.toList⟩

def blank : Rule := regular .blank (oneOf isSpace * (oneOf isSpace)∗)

def lineComment : Rule :=
  regular (.comment .line) (oneOf (· == '\x27') * (oneOf (· != '\n'))∗)

/-- A comment up to the first mark that closes it. -/
def blockComment : Rule where
  kind := .comment .block
  exact := false
  Takes w _ := ∃ body, w = '/' :: '*' :: (body ++ ['*', '/']) ∧ ¬['*', '/'] <:+: body ++ ['*']

/-- A comment to the end of the text. -/
def unclosedComment : Rule where
  kind := .unclosedComment
  exact := false
  Takes w rest := ∃ body, w = '/' :: '*' :: body ∧ ¬['*', '/'] <:+: body ∧ rest = []

def name : Rule := regular .ident (oneOf Char.isAlpha * (oneOf isWordChar)∗)

def integer : Rule := regular .integer digits

/-- A number with a fraction, before which there may be no digit. -/
def pointed : Rule := regular .decimal ((oneOf Char.isDigit)∗ * fraction)

/-- A number with an exponent. -/
def scaled : Rule := regular .decimal (digits * ((1 + fraction) * exponentPart))

def string : Rule := regular .string (openString * oneOf (· == '\x22'))

def unclosedString : Rule := regular .invalid openString

def unknownDirective : Rule :=
  regular (.directive .unknown)
    (oneOf (· == '#') * (oneOf startsDirective * (oneOf isWordChar)∗))

def keyword (k : Keyword) : Rule := spelled k.word (.keyword k)

def directive (spelling : String × DirectiveWord) : Rule :=
  spelled spelling.1 (.directive spelling.2)

end Rule

/-- The punctuation, with its spelling. -/
def marks : List (String × TokenKind) :=
  [("+=", .assign .add), ("-=", .assign .sub), ("*=", .assign .mul), ("/=", .assign .div),
   ("^=", .assign .pow), ("==", .operator .eq), ("<=", .operator .le), (">=", .operator .ge),
   ("\x7b", .mark .openBrace), ("\x7d", .mark .closeBrace), ("(", .mark .openParen),
   (")", .mark .closeParen), (";", .mark .semicolon), (":", .mark .colon), (",", .mark .comma),
   ("&", .mark .ampersand), ("@", .mark .atSign), ("!", .mark .bang), ("=", .assign .set),
   ("<", .operator .lt), (">", .operator .gt), ("+", .operator .add), ("-", .operator .sub),
   ("*", .operator .mul), ("/", .operator .div), ("%", .operator .rem), ("^", .operator .pow)]

/-- The rules that are no spellings. -/
def generalRules : List Rule :=
  [.blank, .lineComment, .blockComment, .unclosedComment, .name, .integer, .pointed, .scaled, .string,
   .unclosedString, .unknownDirective]

/-- All rules of tokens. -/
def rules : List Rule :=
  generalRules ++ Keyword.all.map .keyword ++ DirectiveWord.spellings.map .directive ++
    marks.map fun m => .spelled m.1 m.2

/-! ### The choice of a token -/

/-- No rule takes a text that starts at `cs`. -/
def NoneTakes (cs : List Char) : Prop := ∀ rule ∈ rules, ∀ u v, cs = u ++ v → ¬rule.Takes u v

/-- The rule takes the text, and goes before the others that do. -/
structure Chosen (rule : Rule) (text rest : List Char) : Prop where
  mem : rule ∈ rules
  takes : rule.Takes text rest
  first : ∀ other ∈ rules, other.Takes text rest →
    other.kind = rule.kind ∨ rule.exact = true ∧ other.exact = false

/-- The first token of `text ++ rest` is `text`, of the given kind. -/
structure Stands (kind : TokenKind) (text rest : List Char) : Prop where
  /-- No rule takes more. -/
  longest : ∀ rule ∈ rules, ∀ u v, text ++ rest = u ++ v → rule.Takes u v →
    u.length ≤ text.length
  /-- A rule takes the text, and its kind is that of the token.  A character at which no rule takes
  anything is a token as well. -/
  chosen : (∃ rule, Chosen rule text rest ∧ rule.kind = kind) ∨
    kind = .invalid ∧ text.length = 1 ∧ NoneTakes (text ++ rest)
  /-- A token is invalid if it is a string that is not closed, or such a character. -/
  invalid : kind = .invalid ↔
    Rule.unclosedString.Takes text rest ∨ text.length = 1 ∧ NoneTakes (text ++ rest)

/-- **The rules leave no choice.** -/
theorem Stands.unique {kind kind' : TokenKind} {text text' rest rest' : List Char}
    (h : Stands kind text rest) (h' : Stands kind' text' rest')
    (heq : text ++ rest = text' ++ rest') : kind = kind' ∧ text = text' ∧ rest = rest' := by
  have hlength : text.length = text'.length := by
    rcases h.chosen with ⟨rule, hrule, -⟩ | ⟨-, hone, hnone⟩ <;>
      rcases h'.chosen with ⟨rule', hrule', -⟩ | ⟨-, hone', hnone'⟩
    · exact Nat.le_antisymm (h'.longest rule hrule.mem text rest heq.symm hrule.takes)
        (h.longest rule' hrule'.mem text' rest' heq hrule'.takes)
    · exact absurd hrule.takes (hnone' rule hrule.mem text rest heq.symm)
    · exact absurd hrule'.takes (hnone rule' hrule'.mem text' rest' heq)
    · rw [hone, hone']
  obtain ⟨rfl, rfl⟩ := List.append_inj heq hlength
  refine ⟨?_, rfl, rfl⟩
  rcases h.chosen with ⟨rule, hrule, rfl⟩ | ⟨rfl, -, hnone⟩ <;>
    rcases h'.chosen with ⟨rule', hrule', rfl⟩ | ⟨rfl, -, hnone'⟩
  · -- Of two rules that both go first, each would have to be spelled out and the other not.
    rcases hrule.first rule' hrule'.mem hrule'.takes with hkind | ⟨hexact, hgeneral⟩
    · exact hkind.symm
    · rcases hrule'.first rule hrule.mem hrule.takes with hkind | ⟨hexact', -⟩
      · exact hkind
      · rw [hgeneral] at hexact'
        cases hexact'
  · exact absurd hrule.takes (hnone' rule hrule.mem text rest rfl)
  · exact absurd hrule'.takes (hnone rule' hrule'.mem text rest rfl)
  · rfl

end ControlFile.Lexer
