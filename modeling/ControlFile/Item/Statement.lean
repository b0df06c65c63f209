import ControlFile.Expr.Parser
import ControlFile.Item.Basic

/-!
# Reading single statements

Declarations, the statements of a site, the heads of macros and the conditions of branches.  None
of them contains items, and each of them either is read or fails.

Inside the body of a macro a value may be missing where a name stands: it can arrive with an
argument.
-/

namespace ControlFile

/-- Where an item stands: in which body, and whether inside the body of a macro. -/
structure Scope where
  body : Body
  inMacro : Bool
deriving DecidableEq, Inhabited

namespace Parser

/-- A name, which has to come next; keywords are names too. -/
def name (role : NameRole) : Parser String := do
  let c ← get
  if c.isAt .ident || c.isAt (.directive .unique) then takeText else failExpected (.name role)

/-- Fails at a place that is not the current token's. -/
def failAt {α : Type} (range : Extent) (fault : Fault) : Parser α := throw ⟨fault, range⟩

/-! ### Variables -/

/-- A declaration of a variable, its first word being the current token. -/
def declaration (expr : Parser Expr) (scope : Scope) (kind : VariableScope) : Parser ItemKind := do
  advance
  let mark ← refinement
  let n ← name .variable
  let value ← if (← get).isAt (.assign .set) then pure (.equation (← equation expr .set))
    else literalValue
  if value.isPresent || scope.inMacro then return .declaration kind ⟨mark, some n, value⟩
  else failExpected (.valueOf n)

/-- An equation for a declared variable, its first word being the current token. -/
def existing (expr : Parser Expr) : Parser ItemKind := do
  advance
  let mark ← refinement
  let n ← name .parameter
  match (← get).kind? with
  | some (.assign op) => return .existing ⟨mark, n, ← equation expr op⟩
  | _ => failExpected (.assignmentAfter n)

/-! ### Sites -/

/-- What a word of touching tokens, such as `Fe+3`, goes on with. -/
def continuesWord (t : Token) : Bool :=
  !t.spaced && (match t.kind with
    | .ident | .integer | .decimal | .operator .add | .operator .sub | .operator .mul => true
    | _ => false)

/-- A word of touching tokens.  `starts` says what it may start with. -/
def freeWord? (starts : TokenKind → Bool) : Parser (Option String) := fun c =>
  match c.rest with
  | t :: ts =>
    if t.kind = .directive .unique then .ok (some t.text) c.advance
    else if starts t.kind then
      .ok (some (String.join (t.text :: (ts.takeWhile continuesWord).map (·.text))))
        (c.advance.skipWhile continuesWord)
    else .ok none c
  | [] => .ok none c

/-- A value of a site: an equation, or a mark, a name and a literal.  A refined place may be left
empty, and `fixed` values may not be marked. -/
def valueSlot (v : Vocabulary) (expr : Parser Expr) (scope : Scope) (fixed : Bool) :
    Parser Parameter := do
  let c ← get
  if c.isAt (.assign .set) then return .ofEquation (← equation expr .set)
  else
    let mark ← refinement
    if fixed && mark != .plain then failAt c.here .refinementNotAllowed
    else
      let n ← parameterName? v
      let value ← literalValue
      if value.isPresent || (mark == .refined && n.isNone) || (n.isSome && scope.inMacro) then
        return ⟨mark, n, value⟩
      else failExpected .value

/-- The word of a site at the cursor. -/
def siteWord? (c : Cursor) : Option SiteWord :=
  match c.peek? 0 with
  | some t => if t.kind = .ident then SiteWord.ofWord? t.text else none
  | none => none

/-- The values behind that of an occupancy, `limit` of them at most. -/
def occModifiers (slot : Parser Parameter) : (limit : Nat) → Parser (List OccModifier)
  | 0 => return []
  | limit + 1 => do
    match siteWord? (← get) with
    | some (.occupancy word) =>
      advance
      let value ← slot
      return ⟨word, value⟩ :: (← occModifiers slot limit)
    | _ => return []

/-- An occupancy, behind its first word, which ends at `wordEnd`. -/
def occupancy (slot : Parser Parameter) (wordEnd : Nat) : Parser Occupancy := do
  match ← freeWord? (· == .ident) with
  | none => failAt (.emptyAt wordEnd) .missingAtom
  | some atom =>
    let value ← slot
    let modifiers ← occModifiers slot (← get).rest.length
    return ⟨atom, value, modifiers⟩

/-- One of the six displacement parameters, with the word that has to come next. -/
def adp (slot : Parser Parameter) (word : AdpWord) : Parser Parameter := do
  if siteWord? (← get) = some (.adp word) then
    advance
    slot
  else failExpected (.adp word)

/-- A statement of a site, its first word being the current token. -/
def siteStatement (v : Vocabulary) (expr : Parser Expr) (scope : Scope) (word : SiteWord) :
    Parser ItemKind := do
  let here := (← get).here
  let slot := valueSlot v expr scope
  advance
  match word with
  | .axis a => return .siteStatement (.coordinate a (← slot false))
  | .occ => return .siteStatement (.occupancy (← occupancy (slot false) here.stop))
  | .scalar s => return .siteStatement (.scalar s (← slot s.isFixed))
  | .adps => return .siteStatement (.adps (← Adps.words.mapM (adp (slot false))))
  | .occupancy _ | .adp _ => failAt here (.misplacedSiteWord word)

/-! ### Items that start with an identifier -/

/-- An item that starts with the identifier `word`. -/
def wordItem (v : Vocabulary) (levels : Nat) (scope : Scope) (word : String) :
    Parser ItemKind := do
  let c ← get
  let siteWord := if scope.body == .siteBody || scope.inMacro then SiteWord.ofWord? word else none
  if c.isAtCall then return .expr (← expression v levels false)
  else
    match siteWord with
    | some w => siteStatement v (expression v levels true) scope w
    | none =>
      if v.contains word then
        advance
        if (← get).isAt (.assign .set) then
          return .keyword word (some (← equation (expression v levels true) .set))
        else return .keyword word none
      else
        match c.peekKind? 1 with
        | some (.assign op) =>
          advance
          return .assignment word (← equation (expression v levels true) op)
        | _ => return .expr (← expression v levels false)

/-! ### Macros -/

/-- The parameters of a macro up to the closing parenthesis, `limit` of them at most. -/
def macroParams : (limit : Nat) → Parser (List MacroParam)
  | 0 => return []
  | limit + 1 => do
    let byReference ← takeIf (.mark .ampersand)
    let n ← if (← get).isAt .ident then pure (some (← takeText)) else pure none
    if ← takeIf (.mark .comma) then return ⟨n, byReference⟩ :: (← macroParams limit)
    else
      expect (.mark .closeParen) .parametersEnd
      return [⟨n, byReference⟩]

/-- The list of parameters of a macro, the opening parenthesis being the current token. -/
def macroParamList : Parser (List MacroParam) := do
  advance
  if ← takeIf (.mark .closeParen) then return [] else macroParams ((← get).rest.length + 1)

/-- The head of a macro. -/
def signature : Parser Signature := do
  let start := (← get).here.start
  let byReference ← takeIf (.mark .ampersand)
  if (← get).isAt .ident then
    let n ← takeText
    let c ← get
    let parenthesized := c.isAt (.mark .openParen) && !c.isSpaced 0
    let params ← if parenthesized then macroParamList else pure []
    return ⟨n, byReference, params, parenthesized, ⟨start, (← get).lastEnd⟩⟩
  else failExpected (.name .macroName)

/-- The heads of a list of macros, `limit` of them at most. Commas between them may be left out. -/
def signatures : (limit : Nat) → Parser (List Signature)
  | 0 => return []
  | limit + 1 => do
    let s ← signature
    let _ ← takeIf (.mark .comma)
    let c ← get
    if c.isAt .ident || c.isAt (.mark .ampersand) then return s :: (← signatures limit)
    else return [s]

/-! ### Directives and conditions -/

/-- The names of deleted macros, `limit` of them at most. Commas between them may be left out. -/
def deletedNames : (limit : Nat) → Parser (List String)
  | 0 => return []
  | limit + 1 => do
    if (← get).isAt .ident then
      let n ← takeText
      let _ ← takeIf (.mark .comma)
      return n :: (← deletedNames limit)
    else return []

/-- The condition that is an expression, behind its directive. -/
def exprCondition (expr : Parser Expr) : Parser Condition := do
  let _ ← takeIf (.assign .set)
  let e ← expr
  expect (.mark .semicolon) .conditionEnd
  return .expr e

/-- What an argument is tested for. -/
def argumentTest : Parser ArgumentTest := do
  let c ← get
  match c.kind? with
  | some (.directive (.form form)) =>
    advance
    return .form form
  | some .string => return .text (unquote (← takeText))
  | _ => failExpected .argumentTest

/-- The condition of the first branch, the opening directive `word` being the current token. -/
def openingCondition (expr : Parser Expr) (word : DirectiveWord) : Parser Condition := do
  advance
  match word with
  | .ifdef =>
    let negated ← takeIf (.mark .bang)
    return .defined (← name .ifdef) negated
  | .ifndef => return .defined (← name .ifndef) true
  | .ifarg =>
    let param ← name .ifarg
    return .argument param (← argumentTest)
  | _ => exprCondition expr

/-- The path of an included file. -/
def includePath : Parser String := do
  if (← get).isAt .string then return unquote (← takeText) else failExpected .includePath

/-- A directive that stands alone, at the current token; `none` if `word` is no such directive. -/
def plainDirective? (v : Vocabulary) (levels : Nat) (word : DirectiveWord) :
    Option (Parser Directive) :=
  match word with
  | .includeFile => some do
    advance
    return .includeFile (← includePath)
  | .deleteMacros => some do
    advance
    expect (.mark .openBrace) .deletedNames
    let names ← deletedNames (← get).rest.length
    expect (.mark .closeBrace) .deletedNamesEnd
    return .deleteMacros names
  | .define => some do
    advance
    return .define (← name .define)
  | .undef => some do
    advance
    return .undef (← name .undef)
  | .seed => some do
    advance
    return .seed
  | .prm => some do
    advance
    let n ← name .prm
    if (← get).isAt (.assign .set) then
      return .prm n (← equation (expression v levels true) .set)
    else failExpected (.prmEquals n)
  | .out => some do
    advance
    return .out (← expression v levels false)
  | _ => none

end Parser

end ControlFile
