import ControlFile.Operator
import ControlFile.Text.Extent

/-!
# Tokens

A control file is cut into tokens.  Blanks and comments are tokens too: nothing of the text is
lost, and a token knows whether blank space or a comment stands directly before it, which is how
`f(x)` (a call) is told from `f (x)` (a product).

Directives start with `#`.  Conditionals come in two families which may not close each other: that
of the document (`#if` … `#endif`) and that of macro bodies (`#m_if` … `#m_endif`).
-/

namespace ControlFile

/-! ### Words with a fixed meaning -/

/-- A word that opens a declaration. -/
inductive Keyword
  | prm
  | localPrm
  | existingPrm
  | site
  | macroDecl
deriving DecidableEq, Inhabited

namespace Keyword

def word : Keyword → String
  | .prm => "prm"
  | .localPrm => "local"
  | .existingPrm => "existing_prm"
  | .site => "site"
  | .macroDecl => "macro"

def all : List Keyword := [.prm, .localPrm, .existingPrm, .site, .macroDecl]

def ofWord? (text : String) : Option Keyword := all.find? (·.word == text)

theorem ofWord?_word (k : Keyword) : ofWord? k.word = some k := by cases k <;> decide

end Keyword

/-- Which conditionals a directive belongs to. -/
inductive Family
  | document
  | macroBody
deriving DecidableEq, Inhabited

/-- The parts of a conditional: what opens it, and what ends a branch of it. -/
inductive ChainWord
  | opening
  | elseif
  | otherwise
  | endif
deriving DecidableEq, Inhabited

/-- What the body of a macro can do with an argument. -/
inductive BodyOp
  | argu
  | firstWord
  | uniqueNotRefine
  | out
deriving DecidableEq, Inhabited

def BodyOp.word : BodyOp → String
  | .argu => "#m_argu"
  | .firstWord => "#m_first_word"
  | .uniqueNotRefine => "#m_unique_not_refine"
  | .out => "#m_out"

/-- A form that an argument may be tested for. -/
inductive ArgumentForm
  | code
  | equation
  | codeRefine
  | oneWord
deriving DecidableEq, Inhabited

def ArgumentForm.word : ArgumentForm → String
  | .code => "#m_code"
  | .equation => "#m_eqn"
  | .codeRefine => "#m_code_refine"
  | .oneWord => "#m_one_word"

/-- A word that starts with `#`. -/
inductive DirectiveWord
  | includeFile
  | deleteMacros
  | define
  | undef
  | seed
  | prm
  | out
  | list
  | ifdef
  | ifndef
  | chain (family : Family) (word : ChainWord)
  | ifarg
  | bodyOp (op : BodyOp)
  | unique
  | form (form : ArgumentForm)
  | unknown
deriving DecidableEq, Inhabited

namespace DirectiveWord

/-- The directives with their spellings; one of them has two. -/
def spellings : List (String × DirectiveWord) :=
  [("#include", .includeFile), ("#delete_macros", .deleteMacros), ("#define", .define),
   ("#undef", .undef), ("#seed", .seed), ("#prm", .prm), ("#out", .out), ("#list", .list),
   ("#if", .chain .document .opening), ("#elseif", .chain .document .elseif),
   ("#else", .chain .document .otherwise), ("#endif", .chain .document .endif),
   ("#ifdef", .ifdef), ("#ifndef", .ifndef),
   ("#m_if", .chain .macroBody .opening), ("#m_elseif", .chain .macroBody .elseif),
   ("#m_else", .chain .macroBody .otherwise), ("#m_endif", .chain .macroBody .endif),
   ("#m_ifarg", .ifarg), ("#m_argu", .bodyOp .argu), ("#m_first_word", .bodyOp .firstWord),
   ("#m_unique_not_refine", .bodyOp .uniqueNotRefine), ("#m_unique", .unique),
   ("#m_out", .bodyOp .out), ("#m_code", .form .code), ("#m_eqn", .form .equation),
   ("#_eqn", .form .equation), ("#m_code_refine", .form .codeRefine),
   ("#m_one_word", .form .oneWord)]

/-- The directive that is spelled `text`. -/
def ofWord (text : String) : DirectiveWord := (spellings.lookup text).getD .unknown

/-- Whether the directive has a meaning only inside the body of a macro. -/
def isMacroScoped : DirectiveWord → Bool
  | .chain .macroBody _ | .ifarg | .bodyOp _ | .unique | .form _ => true
  | _ => false

/-- Whether the directive ends a branch of a conditional, of either family. -/
def closesBranch : DirectiveWord → Bool
  | .chain _ .elseif | .chain _ .otherwise | .chain _ .endif => true
  | _ => false

end DirectiveWord

/-- Punctuation. -/
inductive Mark
  | openBrace
  | closeBrace
  | openParen
  | closeParen
  | semicolon
  | colon
  | comma
  | ampersand
  | atSign
  | bang
deriving DecidableEq, Inhabited

/-! ### Tokens and comments -/

/-- A comment runs to the end of its line, or up to the mark that closes it. -/
inductive CommentKind
  | line
  | block
deriving DecidableEq, Inhabited

/-- What a token is. -/
inductive TokenKind
  | blank
  | comment (kind : CommentKind)
  | unclosedComment
  | ident
  | integer
  | decimal
  | string
  | keyword (word : Keyword)
  | mark (mark : Mark)
  | assign (op : AssignOp)
  | operator (op : BinaryOp)
  | directive (word : DirectiveWord)
  | invalid
deriving DecidableEq, Inhabited

namespace TokenKind

/-- Blank space and comments, closed or not. -/
def isTrivia : TokenKind → Bool
  | .blank | .comment _ | .unclosedComment => true
  | _ => false

def isComment : TokenKind → Bool
  | .comment _ | .unclosedComment => true
  | _ => false

def isNumber : TokenKind → Bool
  | .integer | .decimal => true
  | _ => false

def isLiteral : TokenKind → Bool
  | .integer | .decimal | .string => true
  | _ => false

def isKeyword : TokenKind → Bool
  | .keyword _ => true
  | _ => false

def isDirective : TokenKind → Bool
  | .directive _ => true
  | _ => false

def isMacroScoped : TokenKind → Bool
  | .directive d => d.isMacroScoped
  | _ => false

def isAssign : TokenKind → Bool
  | .assign _ => true
  | _ => false

def closesBranch : TokenKind → Bool
  | .directive d => d.closesBranch
  | _ => false

end TokenKind

/-- A piece of the text: what it is, its text, and where it stands.  `spaced` says that blank
space, a comment or the start of the text is directly before it. -/
structure Token where
  kind : TokenKind
  text : String
  range : Extent
  spaced : Bool
deriving DecidableEq, Inhabited

/-- A comment, with the marks that delimit it. -/
structure Comment where
  kind : CommentKind
  text : String
  range : Extent
deriving DecidableEq, Inhabited

/-- The comment that a token is. -/
def Token.comment? (t : Token) : Option Comment :=
  match t.kind with
  | .comment kind => some ⟨kind, t.text, t.range⟩
  | .unclosedComment => some ⟨.block, t.text, t.range⟩
  | _ => none

/-- Whether the token says something: it is neither blank, nor a comment, nor invalid. -/
def Token.isSignificant (t : Token) : Bool := !t.kind.isTrivia && t.kind != .invalid

end ControlFile
