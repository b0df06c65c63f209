import ControlFile.Diagnostic.Code
import ControlFile.Text.Extent
import ControlFile.Vocabulary.Basic

/-!
# Diagnostics

A `Fault` is what went wrong, as data; its wording is `Fault.message`, and its code is
`Fault.code`.  A `Diagnostic` is a fault at a place of a text.  A fault that arises inside a macro
is moved to the call that led to it; moving it changes nothing but its place
(`Diagnostic.fault_moveTo`).
-/

namespace ControlFile

/-! ### What the parser looks for -/

/-- The body in which an item stands. -/
inductive Body
  | topLevel
  | macroBody
  | listBody
  | siteBody
  | delimited
deriving DecidableEq, Inhabited

namespace Body

def description : Body → String
  | .topLevel => "at top level"
  | .macroBody => "in macro body"
  | .listBody => "in #list body"
  | .siteBody => "in site body"
  | .delimited => "in delimited block"

/-- What may stand in the body. -/
def expected : Body → String
  | .topLevel => "a keyword, declaration, directive or expression"
  | .macroBody | .delimited => "a keyword, declaration, directive, macro operator or expression"
  | .listBody => "a literal, identifier, parameter or '\x7b' block"
  | .siteBody => "site keywords (x, y, z, occ, adps, ...), directives or macro calls"

end Body

/-- What a name is wanted for. -/
inductive NameRole
  | variable
  | parameter
  | define
  | undef
  | prm
  | ifdef
  | ifndef
  | ifarg
  | bodyOp
  | macroName
deriving DecidableEq, Inhabited

def NameRole.description : NameRole → String
  | .variable => "variable name"
  | .parameter => "parameter name"
  | .define => "symbol after '#define'"
  | .undef => "symbol after '#undef'"
  | .prm => "name after '#prm'"
  | .ifdef => "symbol after '#ifdef'"
  | .ifndef => "symbol after '#ifndef'"
  | .ifarg => "macro parameter after '#m_ifarg'"
  | .bodyOp => "macro parameter name"
  | .macroName => "macro name"

/-- What has to come next. -/
inductive Expected
  | closeParen
  | expression
  | equationEnd
  | argumentsEnd
  | name (role : NameRole)
  | value
  | valueOf (name : String)
  | assignmentAfter (name : String)
  | adp (word : AdpWord)
  | includePath
  | deletedNames
  | deletedNamesEnd
  | prmEquals (name : String)
  | argumentTest
  | conditionEnd
  | bodyStart
  | parametersEnd
deriving DecidableEq, Inhabited

namespace Expected

def description : Expected → String
  | .closeParen => "')'"
  | .expression => "expression"
  | .equationEnd => "';' to end the equation"
  | .argumentsEnd => "',' or ')' in argument list"
  | .name role => role.description
  | .value => "a value"
  | .valueOf n => "a value for '" ++ n ++ "'"
  | .assignmentAfter n => "'=' or compound assignment after '" ++ n ++ "'"
  | .adp word => "'" ++ word.word ++ "' in adps block"
  | .includePath => "file name string after '#include'"
  | .deletedNames => "'\x7b' after '#delete_macros'"
  | .deletedNamesEnd => "'\x7d' to close '#delete_macros'"
  | .prmEquals n => "'=' after '#prm " ++ n ++ "'"
  | .argumentTest => "'#m_code', '#m_eqn', '#m_code_refine', '#m_one_word' or a string"
  | .conditionEnd => "';' after condition"
  | .bodyStart => "'\x7b' to open the macro body"
  | .parametersEnd => "',' or ')' in parameter list"

def code : Expected → Code
  | .closeParen => .unclosedParen
  | .expression => .missingExpression
  | .equationEnd | .conditionEnd => .missingSemicolon
  | .argumentsEnd => .unclosedArguments
  | .name _ => .missingName
  | .value | .valueOf _ => .missingValue
  | .adp _ => .malformedAdps
  | .deletedNamesEnd => .unclosedBrace
  | .assignmentAfter _ | .includePath | .deletedNames | .prmEquals _ | .argumentTest
  | .bodyStart | .parametersEnd => .expectedToken

end Expected

/-- What was found instead: the text of a token, or the end of the text. -/
abbrev Found := Option String

def Found.description : Found → String
  | some text => "'" ++ text ++ "'"
  | none => "end of input"

/-! ### Faults -/

/-- Why an expression has no number. -/
inductive ValueFault
  | stringValue (text : String)
  | notFinite (expression : String)
  | divisionByZero
  | notAnExpression (argument function : String)
  | argumentCount (function : String) (count : Nat)
deriving DecidableEq, Inhabited

def ValueFault.message : ValueFault → String
  | .stringValue text => "string \"" ++ text ++ "\" has no numeric value"
  | .notFinite expression => "`" ++ expression ++ "` is not a finite number"
  | .divisionByZero => "division by zero"
  | .notAnExpression argument function =>
    "argument `" ++ argument ++ "` of " ++ function ++ " is not an expression"
  | .argumentCount function count =>
    function ++ " called with " ++ toString count ++ " argument(s)"

/-- What is wrong with the argument of a macro. -/
inductive ArgumentFault
  | notAName (parameter : String)
  | notAnExpression (parameter : String)
  | noValue (parameter : String)
  | notOneExpression (macroName : String)
deriving DecidableEq, Inhabited

def ArgumentFault.message : ArgumentFault → String
  | .notAName parameter => "argument for `" ++ parameter ++ "` is not a name"
  | .notAnExpression parameter => "argument for `" ++ parameter ++ "` is not an expression"
  | .noValue parameter => "argument for `" ++ parameter ++ "` has no value"
  | .notOneExpression name => "macro `" ++ name ++ "` does not expand to a single expression"

/-- The largest number of nested levels that is parsed. -/
def maxNesting : Nat := 64

/-- What went wrong. -/
inductive Fault
  | invalidCharacter (text : String)
  | unclosedString
  | unclosedComment
  | integerOutOfRange (text : String)
  | decimalOutOfRange (text : String)
  | expected (what : Expected) (found : Found)
  | unexpected (found : Found) (body : Body)
  | invalidArgument (found : Found)
  | missingUncertainty
  | nestingTooDeep
  | missingSiteName
  | missingAtom
  | misplacedSiteWord (word : SiteWord)
  | refinementNotAllowed
  | nestedMacro
  | strayCloseBrace
  | unclosedBlock
  | unclosedMacro
  | directiveOutsideMacro (text : String)
  | unknownDirective (text : String)
  | mixedConditional (closing opening : String)
  | unclosedConditional (opening : String)
  | argument (fault : ArgumentFault)
  | unresolved (name : String)
  | depthExceeded (name : String) (limit : Nat)
  | arityMismatch (name : String) (arity given : Nat)
  | value (fault : ValueFault)
  | includeNotFound (path : String)
  | cancelled
deriving DecidableEq, Inhabited

/-- The kinds of faults. -/
inductive FaultKind
  | lexical
  | grammatical
  | unresolved
  | depthExceeded
  | arityMismatch
  | value
  | includeNotFound
  | cancelled
deriving DecidableEq, Inhabited

namespace Fault

def kind : Fault → FaultKind
  | .invalidCharacter _ | .unclosedString | .unclosedComment | .integerOutOfRange _
  | .decimalOutOfRange _ => .lexical
  | .unresolved _ => .unresolved
  | .depthExceeded _ _ => .depthExceeded
  | .arityMismatch _ _ _ => .arityMismatch
  | .value _ => .value
  | .includeNotFound _ => .includeNotFound
  | .cancelled => .cancelled
  | _ => .grammatical

def code : Fault → Code
  | .invalidCharacter _ => .invalidCharacter
  | .unclosedString => .unclosedString
  | .unclosedComment => .unclosedComment
  | .integerOutOfRange _ | .decimalOutOfRange _ => .numberOutOfRange
  | .expected what _ => what.code
  | .unexpected _ _ => .unexpectedToken
  | .invalidArgument _ => .invalidArgument
  | .missingUncertainty => .missingValue
  | .nestingTooDeep => .nestingTooDeep
  | .missingSiteName => .missingName
  | .missingAtom => .missingAtom
  | .misplacedSiteWord _ => .unexpectedToken
  | .refinementNotAllowed => .refinementNotAllowed
  | .nestedMacro => .nestedMacro
  | .strayCloseBrace => .unexpectedClose
  | .unclosedBlock | .unclosedMacro => .unclosedBrace
  | .directiveOutsideMacro _ => .directiveOutsideMacro
  | .unknownDirective _ => .unexpectedToken
  | .mixedConditional _ _ => .mixedConditional
  | .unclosedConditional _ => .unclosedConditional
  | .argument _ => .invalidArgument
  | .unresolved _ => .unresolved
  | .depthExceeded _ _ => .depthExceeded
  | .arityMismatch _ _ _ => .arityMismatch
  | .value _ => .conditionFailed
  | .includeNotFound _ => .includeNotFound
  | .cancelled => .cancelled

/-- The wording without the code. -/
def detail : Fault → String
  | .invalidCharacter text => "invalid character '" ++ text ++ "'"
  | .unclosedString => "string literal is not closed on its line"
  | .unclosedComment => "block comment is not closed before end of input"
  | .integerOutOfRange text => "integer literal '" ++ text ++ "' is out of range"
  | .decimalOutOfRange text => "float literal '" ++ text ++ "' is out of range"
  | .expected what found => "expected " ++ what.description ++ ", found " ++ found.description
  | .unexpected found body =>
    "unexpected " ++ found.description ++ " " ++ body.description ++ ", expected " ++ body.expected
  | .invalidArgument found => "invalid argument " ++ found.description
  | .missingUncertainty => "expected a number or name after ':'"
  | .nestingTooDeep => "nesting deeper than " ++ toString maxNesting ++ " levels"
  | .missingSiteName => "expected site name after 'site'"
  | .missingAtom => "expected atom type after 'occ'"
  | .misplacedSiteWord word =>
    let parent := match word with | .adp _ => "adps" | _ => "occ"
    "'" ++ word.word ++ "' is only valid after '" ++ parent ++ "'"
  | .refinementNotAllowed => "refinement flags are not allowed here"
  | .nestedMacro => "macros cannot be declared inside a macro body"
  | .strayCloseBrace => "unexpected '\x7d'"
  | .unclosedBlock => "'\x7b' is never closed"
  | .unclosedMacro => "macro body is never closed"
  | .directiveOutsideMacro text => "'" ++ text ++ "' is only allowed inside a macro body"
  | .unknownDirective text => "unknown directive '" ++ text ++ "'"
  | .mixedConditional closing opening => "'" ++ closing ++ "' cannot close '" ++ opening ++ "'"
  | .unclosedConditional opening => "'" ++ opening ++ "' is never closed"
  | .argument fault => fault.message
  | .unresolved name => "unresolved reference `" ++ name ++ "`"
  | .depthExceeded name limit =>
    "expanding `" ++ name ++ "` exceeded the expansion depth limit of " ++ toString limit
  | .arityMismatch name arity given =>
    "macro `" ++ name ++ "` takes " ++ toString arity ++ " argument(s) but " ++ toString given
      ++ " were supplied"
  | .value fault => fault.message
  | .includeNotFound path => "include file `" ++ path ++ "` not found"
  | .cancelled => "parse cancelled"

/-- The wording, with the code before it. -/
def message (f : Fault) : String := f.code.label ++ ": " ++ f.detail

end Fault

/-! ### Diagnostics -/

/-- A fault at a place of a text. -/
structure Diagnostic where
  fault : Fault
  range : Extent
deriving DecidableEq, Inhabited

namespace Diagnostic

/-- The same fault at another place. -/
def moveTo (range : Extent) (d : Diagnostic) : Diagnostic := { d with range }

@[simp] theorem fault_moveTo (range : Extent) (d : Diagnostic) :
    (d.moveTo range).fault = d.fault := rfl

@[simp] theorem range_moveTo (range : Extent) (d : Diagnostic) :
    (d.moveTo range).range = range := rfl

/-- Sorted by where they start; those that start at one place keep their order. -/
def sortByStart (ds : List Diagnostic) : List Diagnostic :=
  ds.mergeSort fun a b => a.range.start ≤ b.range.start

theorem sortByStart_perm (ds : List Diagnostic) : (sortByStart ds).Perm ds :=
  List.mergeSort_perm ds _

end Diagnostic

end ControlFile
