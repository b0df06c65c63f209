import ControlFile.Token.Lexer
import ControlFile.Diagnostic.Basic

/-!
# Significant tokens

`TokenStream.ofText` sorts the tokens of a text: what the parser reads, the comments, and a
diagnostic for each token that is not well formed.  An unclosed comment is a comment and a
diagnostic; blanks are neither.
-/

namespace ControlFile

/-- What is wrong with a token. -/
def Token.fault? (t : Token) : Option Fault :=
  match t.kind with
  | .unclosedComment => some .unclosedComment
  | .invalid =>
    some (if t.text.toList.head? = some '\x22' then .unclosedString else .invalidCharacter t.text)
  | _ => none

/-- The diagnostic of a token that is not well formed. -/
def Token.diagnostic? (t : Token) : Option Diagnostic := t.fault?.map fun fault => ⟨fault, t.range⟩

/-- The tokens of a text, sorted. -/
structure TokenStream where
  tokens : List Token
  comments : List Comment
  diagnostics : List Diagnostic
deriving Inhabited

namespace TokenStream

def ofTokens (ts : List Token) : TokenStream where
  tokens := ts.filter Token.isSignificant
  comments := ts.filterMap Token.comment?
  diagnostics := ts.filterMap Token.diagnostic?

def ofText (text : String) : TokenStream := ofTokens (Token.ofText text)

end TokenStream

end ControlFile
