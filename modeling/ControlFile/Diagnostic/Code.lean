/-!
# Codes of diagnostics

Every diagnostic has a code by which it can be filtered and looked up.  The first two digits of the
code give its category.
-/

namespace ControlFile

/-- A code of a diagnostic. -/
inductive Code
  | invalidCharacter
  | unclosedString
  | unclosedComment
  | numberOutOfRange
  | missingSemicolon
  | unclosedBrace
  | unclosedParen
  | unexpectedClose
  | unclosedConditional
  | mixedConditional
  | nestingTooDeep
  | missingName
  | refinementNotAllowed
  | missingAtom
  | missingValue
  | malformedAdps
  | directiveOutsideMacro
  | nestedMacro
  | unclosedArguments
  | invalidArgument
  | missingExpression
  | unresolved
  | depthExceeded
  | arityMismatch
  | conditionFailed
  | includeNotFound
  | cancelled
  | unexpectedToken
  | expectedToken
deriving DecidableEq, Inhabited

/-- What a diagnostic is about. -/
inductive Category
  | lexical
  | structural
  | declaration
  | expression
  | preprocessor
  | general
deriving DecidableEq, Inhabited

def Category.description : Category → String
  | .lexical => "lexical error"
  | .structural => "structural error"
  | .declaration => "declaration error"
  | .expression => "expression error"
  | .preprocessor => "preprocessor error"
  | .general => "syntax error"

namespace Code

/-- All codes, in the order of their labels. -/
def all : List Code :=
  [.invalidCharacter, .unclosedString, .unclosedComment, .numberOutOfRange, .missingSemicolon,
   .unclosedBrace, .unclosedParen, .unexpectedClose, .unclosedConditional, .mixedConditional,
   .nestingTooDeep, .missingName, .refinementNotAllowed, .missingAtom, .missingValue,
   .malformedAdps, .directiveOutsideMacro, .nestedMacro, .unclosedArguments, .invalidArgument,
   .missingExpression, .unresolved, .depthExceeded, .arityMismatch, .conditionFailed,
   .includeNotFound, .cancelled, .unexpectedToken, .expectedToken]

/-- The label that stands at the start of a message. -/
def label : Code → String
  | .invalidCharacter => "E0101"
  | .unclosedString => "E0102"
  | .unclosedComment => "E0103"
  | .numberOutOfRange => "E0104"
  | .missingSemicolon => "E0201"
  | .unclosedBrace => "E0202"
  | .unclosedParen => "E0203"
  | .unexpectedClose => "E0205"
  | .unclosedConditional => "E0206"
  | .mixedConditional => "E0207"
  | .nestingTooDeep => "E0208"
  | .missingName => "E0301"
  | .refinementNotAllowed => "E0302"
  | .missingAtom => "E0303"
  | .missingValue => "E0304"
  | .malformedAdps => "E0305"
  | .directiveOutsideMacro => "E0306"
  | .nestedMacro => "E0307"
  | .unclosedArguments => "E0404"
  | .invalidArgument => "E0405"
  | .missingExpression => "E0406"
  | .unresolved => "E0501"
  | .depthExceeded => "E0502"
  | .arityMismatch => "E0503"
  | .conditionFailed => "E0504"
  | .includeNotFound => "E0505"
  | .cancelled => "E0506"
  | .unexpectedToken => "E0901"
  | .expectedToken => "E0902"

/-- A short text for each code, which names no particulars. -/
def summary : Code → String
  | .invalidCharacter => "invalid character"
  | .unclosedString => "unterminated string literal"
  | .unclosedComment => "unterminated block comment"
  | .numberOutOfRange => "numeric literal out of range"
  | .missingSemicolon => "missing semicolon"
  | .unclosedBrace => "unclosed brace"
  | .unclosedParen => "unclosed parenthesis"
  | .unexpectedClose => "unexpected closing delimiter"
  | .unclosedConditional => "unterminated conditional"
  | .mixedConditional => "mismatched conditional terminator"
  | .nestingTooDeep => "nesting too deep"
  | .missingName => "missing identifier"
  | .refinementNotAllowed => "refinement not allowed here"
  | .missingAtom => "missing atom type"
  | .missingValue => "missing value"
  | .malformedAdps => "malformed adps block"
  | .directiveOutsideMacro => "macro directive outside macro body"
  | .nestedMacro => "nested macro declaration"
  | .unclosedArguments => "unclosed argument list"
  | .invalidArgument => "invalid argument"
  | .missingExpression => "expected expression"
  | .unresolved => "unresolved reference"
  | .depthExceeded => "recursion limit exceeded"
  | .arityMismatch => "arity mismatch"
  | .conditionFailed => "condition evaluation failed"
  | .includeNotFound => "include not found"
  | .cancelled => "parse cancelled"
  | .unexpectedToken => "unexpected token"
  | .expectedToken => "expected token"

def category : Code → Category
  | .invalidCharacter | .unclosedString | .unclosedComment | .numberOutOfRange => .lexical
  | .missingSemicolon | .unclosedBrace | .unclosedParen | .unexpectedClose
  | .unclosedConditional | .mixedConditional | .nestingTooDeep => .structural
  | .missingName | .refinementNotAllowed | .missingAtom | .missingValue | .malformedAdps
  | .directiveOutsideMacro | .nestedMacro => .declaration
  | .unclosedArguments | .invalidArgument | .missingExpression => .expression
  | .unresolved | .depthExceeded | .arityMismatch | .conditionFailed | .includeNotFound
  | .cancelled => .preprocessor
  | .unexpectedToken | .expectedToken => .general

/-- Whether the code is about delimiters and nesting. -/
def isStructural (c : Code) : Bool := c.category == .structural

/-- Whether the code arises in expansion, not in parsing. -/
def isExpansion (c : Code) : Bool := c.category == .preprocessor

/-- The code with the given label. -/
def ofLabel? (label : String) : Option Code := all.find? (·.label == label)

end Code

end ControlFile
