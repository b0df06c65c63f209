import ControlFile.Item.Parser

/-!
# The reader as a machine

`Parser.expression` and `ItemParser.item` are told by their arguments how many levels of nesting are
left, and whether they are in the body of a macro; and their loops are told how often they may go
round.  The machine of this module is told nothing.  It counts in two registers what is open, the
levels and the bodies of macros, and each register that is set has to be set back, also where reading
fails; and its loops go round until something in the text ends them.

So nothing in its text says that the machine ends.  Its functions are fixed points, with the value
`none` where they go on for ever.  Each of them says at its head which of them it calls (`letI`): the
value of a fixed point keeps the place of every recursive call that is written out, and the value should
not depend on where the text of the function stands.

What reads single tokens only, and looks at no register, is taken over as it is.
-/

namespace ControlFile

/-- A reader: where reading stands, and how many levels and bodies of macros are open. -/
structure Reader where
  reading : Reading
  nesting : Nat
  macroDepth : Nat
deriving Inhabited

namespace Reader

/-- A run of the machine.  It has no value if it does not end. -/
abbrev Run := StateT Reader Option

/-- A run that may fail. -/
abbrev Grammar := ExceptT Diagnostic Run

variable {α : Type}

/-- Before a row of tokens. -/
def start (tokens : List Token) (textEnd : Nat) : Reader := ⟨⟨⟨tokens, 0, textEnd⟩, []⟩, 0, 0⟩

def cursor : Grammar Cursor := return (← get).reading.cursor

/-! ### Registers -/

def inMacro : Grammar Bool := return 0 < (← get).macroDepth

/-- Opens a level.  At the limit it fails. -/
def enter : Grammar Unit := do
  if maxNesting ≤ (← get).nesting then throw ⟨.nestingTooDeep, (← cursor).here⟩
  else modify fun x => { x with nesting := x.nesting + 1 }

def leave : Run Unit := modify fun x => { x with nesting := x.nesting - 1 }

def enterMacro : Run Unit := modify fun x => { x with macroDepth := x.macroDepth + 1 }

def leaveMacro : Run Unit := modify fun x => { x with macroDepth := x.macroDepth - 1 }

/-- Runs `p` one level deeper. -/
abbrev nested (p : Grammar α) : Grammar α := (do
  match ← ExceptT.run enter with
  | .error d => return .error d
  | .ok () =>
    let result ← ExceptT.run p
    leave
    return result : Run (Except Diagnostic α))

/-- Runs `p` as the body of a macro. -/
abbrev inBody (p : Run α) : Run α := do
  enterMacro
  let result ← p
  leaveMacro
  return result

/-- A run that cannot fail. -/
abbrev always (p : Run α) : Grammar α := (do return .ok (← p) : Run (Except Diagnostic α))

/-- Goes where reading can go on after a failure. -/
def recover : Run Unit :=
  modify fun x => { x with reading := { x.reading with cursor := x.reading.cursor.recover } }

/-- Reads an item; if this fails it is reported, and reading recovers. -/
abbrev attempt (p : Grammar (Option Item)) : Run (Option Item) := do
  match ← ExceptT.run p with
  | .ok item => return item
  | .error d =>
    modify fun x => { x with reading := x.reading.report d }
    recover
    return none

/-- Parsers that look at no register. -/
instance : MonadLift ItemParser Grammar where
  monadLift p := ExceptT.mk fun x =>
    match p x.reading with
    | .ok a reading => some (.ok a, { x with reading })
    | .error d reading => some (.error d, { x with reading })

/-- Skips a token. -/
def skip : Run Unit := modify fun x => { x with reading := x.reading.advance }

/-! ### Expressions -/

section Expressions

variable (v : Vocabulary)

mutual

/-- An expression. -/
def expression (juxtapose : Bool) : Grammar Expr :=
  letI binary : Bool → Nat → Grammar Expr := by apply binary
  nested (binary juxtapose 1)
partial_fixpoint

/-- Operands joined by the operations of a level and of those above it. -/
def binary (juxtapose : Bool) (least : Nat) : Grammar Expr :=
  letI operations : Bool → Nat → Expr → Grammar Expr := by apply operations
  letI signed : Grammar Expr := by apply signed
  do
  let lhs ← signed
  operations juxtapose least lhs
partial_fixpoint

/-- The operations behind `lhs`, up to one of a lower level than `least`. -/
def operations (juxtapose : Bool) (least : Nat) (lhs : Expr) : Grammar Expr :=
  letI binary : Bool → Nat → Grammar Expr := by apply binary
  letI operations : Bool → Nat → Expr → Grammar Expr := by apply operations
  do
  match Parser.operation? juxtapose (← cursor) with
  | some op =>
    if op.level < least then return lhs
    else
      Parser.skipSymbol op
      let rhs ← binary juxtapose (op.level + 1)
      operations juxtapose least (.binary op lhs rhs)
  | none => return lhs
partial_fixpoint

/-- A power with an optional sign. -/
def signed : Grammar Expr :=
  letI power : Grammar Expr := by apply power
  do
  let c ← cursor
  if c.isAtNegativeLiteral then
    Parser.advance
    return .literal (← Parser.literal true)
  else
    match c.sign? with
    | some op =>
      Parser.advance
      return .unary op (← power)
    | none => power
partial_fixpoint

/-- An operand with its exponents. -/
def power : Grammar Expr :=
  letI exponents : Expr → Grammar Expr := by apply exponents
  letI primary : Grammar Expr := by apply primary
  do
  let base ← primary
  exponents base
partial_fixpoint

/-- The exponents behind `base`. -/
def exponents (base : Expr) : Grammar Expr :=
  letI exponents : Expr → Grammar Expr := by apply exponents
  letI exponent : Grammar Expr := by apply exponent
  do
  if ← Parser.takeIf (.operator .pow) then
    let e ← exponent
    exponents (.binary .pow base e)
  else return base
partial_fixpoint

/-- An exponent, which may have a sign of its own. -/
def exponent : Grammar Expr :=
  letI primary : Grammar Expr := by apply primary
  do
  let c ← cursor
  if c.isAtNegativeLiteral then
    Parser.advance
    return .literal (← Parser.literal true)
  else
    match c.sign? with
    | some op =>
      Parser.advance
      return .unary op (← primary)
    | none => primary
partial_fixpoint

/-- A literal, a name, a call or an expression in parentheses. -/
def primary : Grammar Expr :=
  letI expression : Bool → Grammar Expr := by apply expression
  letI call : String → Nat → Grammar Expr := by apply call
  do
  let c ← cursor
  match c.peek? 0 with
  | none => Parser.failExpected .expression
  | some t =>
    match t.kind with
    | .integer | .decimal | .string => return .literal (← Parser.literal false)
    | .ident =>
      Parser.advance
      if c.isAtCall then call t.text t.range.start else return .ident t.text
    | .directive .unique =>
      Parser.advance
      return .ident uniqueMark
    | .mark .openParen =>
      Parser.advance
      let e ← expression true
      Parser.expect (.mark .closeParen) .closeParen
      return .paren e
    | _ => Parser.failExpected .expression
partial_fixpoint

/-- The call of `name`, which starts at `start`; the opening parenthesis is the current token. -/
def call (name : String) (start : Nat) : Grammar Expr :=
  letI arguments : Grammar (List Argument) := by apply arguments
  do
  Parser.advance
  let as ← if ← Parser.takeIf (.mark .closeParen) then pure [] else arguments
  return .call name as ⟨start, (← cursor).lastEnd⟩
partial_fixpoint

/-- The arguments of a call up to the closing parenthesis. -/
def arguments : Grammar (List Argument) :=
  letI arguments : Grammar (List Argument) := by apply arguments
  letI argument : Grammar Argument := by apply argument
  do
  let a ← argument
  if ← Parser.takeIf (.mark .comma) then return a :: (← arguments)
  else
    Parser.expect (.mark .closeParen) .argumentsEnd
    return [a]
partial_fixpoint

/-- One argument of a call. -/
def argument : Grammar Argument :=
  letI expression : Bool → Grammar Expr := by apply expression
  letI equation : AssignOp → Grammar Equation := by apply equation
  do
  let c ← cursor
  match c.kind? with
  | some (.mark .comma) | some (.mark .closeParen) => return .hole
  | some (.mark .atSign) | some (.mark .bang) => return .parameter (← Parser.markedParameter v)
  | some (.assign op) => return .equation (← equation op)
  | some kind =>
    if kind.startsExpression then return .expr (← expression true)
    else Parser.fail (.invalidArgument c.found)
  | none => Parser.fail (.invalidArgument c.found)
partial_fixpoint

/-- An equation, the assignment operator being the current token. -/
def equation (op : AssignOp) : Grammar Equation :=
  letI expression : Bool → Grammar Expr := by apply expression
  do
  Parser.advance
  let body ← expression true
  Parser.expect (.mark .semicolon) .equationEnd
  if ← Parser.takeIf (.mark .colon) then return ⟨op, body, some (← Parser.uncertainty)⟩
  else return ⟨op, body, none⟩
partial_fixpoint

end

/-! ### Statements -/

/-- A declaration of a variable, its first word being the current token. -/
def declaration (kind : VariableScope) : Grammar ItemKind := do
  Parser.advance
  let mark ← Parser.refinement
  let n ← Parser.name .variable
  let value ← if (← cursor).isAt (.assign .set) then pure (.equation (← equation v .set))
    else Parser.literalValue
  if value.isPresent || (← inMacro) then return .declaration kind ⟨mark, some n, value⟩
  else Parser.failExpected (.valueOf n)

/-- An equation for a declared variable, its first word being the current token. -/
def existing : Grammar ItemKind := do
  Parser.advance
  let mark ← Parser.refinement
  let n ← Parser.name .parameter
  match (← cursor).kind? with
  | some (.assign op) => return .existing ⟨mark, n, ← equation v op⟩
  | _ => Parser.failExpected (.assignmentAfter n)

/-- A value of a site. -/
def valueSlot (fixed : Bool) : Grammar Parameter := do
  let c ← cursor
  if c.isAt (.assign .set) then return .ofEquation (← equation v .set)
  else
    let mark ← Parser.refinement
    if fixed && mark != .plain then Parser.failAt c.here .refinementNotAllowed
    else
      let n ← Parser.parameterName? v
      let value ← Parser.literalValue
      if value.isPresent || (mark == .refined && n.isNone) || (n.isSome && (← inMacro)) then
        return ⟨mark, n, value⟩
      else Parser.failExpected .value

/-- The values behind that of an occupancy. -/
def occModifiers : Grammar (List OccModifier) :=
  letI occModifiers : Grammar (List OccModifier) := by apply occModifiers
  do
  match Parser.siteWord? (← cursor) with
  | some (.occupancy word) =>
    Parser.advance
    let value ← valueSlot v false
    return ⟨word, value⟩ :: (← occModifiers)
  | _ => return []
partial_fixpoint

/-- An occupancy, behind its first word, which ends at `wordEnd`. -/
def occupancy (wordEnd : Nat) : Grammar Occupancy := do
  match ← Parser.freeWord? (· == .ident) with
  | none => Parser.failAt (.emptyAt wordEnd) .missingAtom
  | some atom =>
    let value ← valueSlot v false
    let modifiers ← occModifiers v
    return ⟨atom, value, modifiers⟩

/-- One of the six displacement parameters, with the word that has to come next. -/
def adp (word : AdpWord) : Grammar Parameter := do
  if Parser.siteWord? (← cursor) = some (.adp word) then
    Parser.advance
    valueSlot v false
  else Parser.failExpected (.adp word)

/-- A statement of a site, its first word being the current token. -/
def siteStatement (word : SiteWord) : Grammar ItemKind := do
  let here := (← cursor).here
  Parser.advance
  match word with
  | .axis a => return .siteStatement (.coordinate a (← valueSlot v false))
  | .occ => return .siteStatement (.occupancy (← occupancy v here.stop))
  | .scalar s => return .siteStatement (.scalar s (← valueSlot v s.isFixed))
  | .adps => return .siteStatement (.adps (← Adps.words.mapM (adp v)))
  | .occupancy _ | .adp _ => Parser.failAt here (.misplacedSiteWord word)

/-- An item that starts with the identifier `word`. -/
def wordItem (body : Body) (word : String) : Grammar ItemKind := do
  let c ← cursor
  let siteWord := if body == .siteBody || (← inMacro) then SiteWord.ofWord? word else none
  if c.isAtCall then return .expr (← expression v false)
  else
    match siteWord with
    | some w => siteStatement v w
    | none =>
      if v.contains word then
        Parser.advance
        if (← cursor).isAt (.assign .set) then return .keyword word (some (← equation v .set))
        else return .keyword word none
      else
        match c.peekKind? 1 with
        | some (.assign op) =>
          Parser.advance
          return .assignment word (← equation v op)
        | _ => return .expr (← expression v false)

end Expressions

/-! ### Heads of macros, and directives -/

/-- The parameters of a macro up to the closing parenthesis. -/
def macroParams : Grammar (List MacroParam) :=
  letI macroParams : Grammar (List MacroParam) := by apply macroParams
  do
  let byReference ← Parser.takeIf (.mark .ampersand)
  let n ← if (← cursor).isAt .ident then pure (some (← Parser.takeText)) else pure none
  if ← Parser.takeIf (.mark .comma) then return ⟨n, byReference⟩ :: (← macroParams)
  else
    Parser.expect (.mark .closeParen) .parametersEnd
    return [⟨n, byReference⟩]
partial_fixpoint

/-- The list of parameters of a macro, the opening parenthesis being the current token. -/
def macroParamList : Grammar (List MacroParam) := do
  Parser.advance
  if ← Parser.takeIf (.mark .closeParen) then return [] else macroParams

/-- The head of a macro. -/
def signature : Grammar Signature := do
  let start := (← cursor).here.start
  let byReference ← Parser.takeIf (.mark .ampersand)
  if (← cursor).isAt .ident then
    let n ← Parser.takeText
    let c ← cursor
    let parenthesized := c.isAt (.mark .openParen) && !c.isSpaced 0
    let params ← if parenthesized then macroParamList else pure []
    return ⟨n, byReference, params, parenthesized, ⟨start, (← cursor).lastEnd⟩⟩
  else Parser.failExpected (.name .macroName)

/-- The heads of a list of macros. -/
def signatures : Grammar (List Signature) :=
  letI signatures : Grammar (List Signature) := by apply signatures
  do
  let s ← signature
  let _ ← Parser.takeIf (.mark .comma)
  let c ← cursor
  if c.isAt .ident || c.isAt (.mark .ampersand) then return s :: (← signatures)
  else return [s]
partial_fixpoint

/-- The names of deleted macros. -/
def deletedNames : Grammar (List String) :=
  letI deletedNames : Grammar (List String) := by apply deletedNames
  do
  if (← cursor).isAt .ident then
    let n ← Parser.takeText
    let _ ← Parser.takeIf (.mark .comma)
    return n :: (← deletedNames)
  else return []
partial_fixpoint

section Items

variable (v : Vocabulary)

/-- The condition that is an expression, behind its directive. -/
def exprCondition : Grammar Condition := do
  let _ ← Parser.takeIf (.assign .set)
  let e ← expression v true
  Parser.expect (.mark .semicolon) .conditionEnd
  return .expr e

/-- The condition of the first branch, the opening directive `word` being the current token. -/
def openingCondition (word : DirectiveWord) : Grammar Condition := do
  Parser.advance
  match word with
  | .ifdef =>
    let negated ← Parser.takeIf (.mark .bang)
    return .defined (← Parser.name .ifdef) negated
  | .ifndef => return .defined (← Parser.name .ifndef) true
  | .ifarg =>
    let param ← Parser.name .ifarg
    return .argument param (← Parser.argumentTest)
  | _ => exprCondition v

/-- A directive that stands alone, at the current token; `none` if `word` is no such directive. -/
def plainDirective? (word : DirectiveWord) : Option (Grammar Directive) :=
  match word with
  | .includeFile => some do
    Parser.advance
    return .includeFile (← Parser.includePath)
  | .deleteMacros => some do
    Parser.advance
    Parser.expect (.mark .openBrace) .deletedNames
    let names ← deletedNames
    Parser.expect (.mark .closeBrace) .deletedNamesEnd
    return .deleteMacros names
  | .define => some do
    Parser.advance
    return .define (← Parser.name .define)
  | .undef => some do
    Parser.advance
    return .undef (← Parser.name .undef)
  | .seed => some do
    Parser.advance
    return .seed
  | .prm => some do
    Parser.advance
    let n ← Parser.name .prm
    if (← cursor).isAt (.assign .set) then return .prm n (← equation v .set)
    else Parser.failExpected (.prmEquals n)
  | .out => some do
    Parser.advance
    return .out (← expression v false)
  | _ => none

/-! ### Items -/

mutual

/-- Items until `stop` holds of the current token or the text ends.  A token that no item consumes is
skipped. -/
def items (body : Body) (stop : TokenKind → Bool) : Run (List Item) :=
  letI items : Body → (TokenKind → Bool) → Run (List Item) := by apply items
  letI item : Body → Grammar (Option Item) := by apply item
  do
  let before ← get
  match before.reading.cursor.kind? with
  | none => return []
  | some kind =>
    if stop kind then return []
    else
      let i ← attempt (item body)
      if (← get).reading.cursor.rest.length = before.reading.cursor.rest.length then skip
      return i.toList ++ (← items body stop)
partial_fixpoint

/-- The members of a site. -/
def members : Run (List Item) :=
  letI members : Run (List Item) := by apply members
  letI item : Body → Grammar (Option Item) := by apply item
  do
  let before ← get
  if ItemParser.isAtMember before.reading.cursor then
    let i ← attempt (item .siteBody)
    if (← get).reading.cursor.rest.length = before.reading.cursor.rest.length then return i.toList
    else return i.toList ++ (← members)
  else return []
partial_fixpoint

/-- A site, its first word being the current token. -/
def site : Grammar ItemKind :=
  letI members : Run (List Item) := by apply members
  do
  let wordEnd := (← cursor).here.stop
  ItemParser.advance
  match ← Parser.freeWord? (fun k => k == .ident || k.isNumber) with
  | none => Parser.failAt (.emptyAt wordEnd) .missingSiteName
  | some name => return .site name (← always members)
partial_fixpoint

/-- The branches behind the first. -/
def laterBranches (opening : ItemParser.Opening) (body : Body) : Grammar Chain :=
  letI items : Body → (TokenKind → Bool) → Run (List Item) := by apply items
  letI laterBranches : ItemParser.Opening → Body → Grammar Chain := by apply laterBranches
  do
  match (← cursor).kind? with
  | some (.directive (.chain family .elseif)) =>
    if family = opening.family then
      ItemParser.advance
      let condition ← exprCondition v
      let is ← always (items body ItemParser.endsBranch)
      return .branch condition is (← laterBranches opening body)
    else
      ItemParser.closeChain opening
      return .done
  | some (.directive (.chain family .otherwise)) =>
    if family = opening.family then
      ItemParser.advance
      let is ← always (items body ItemParser.endsBranch)
      ItemParser.closeChain opening
      return .otherwise is
    else
      ItemParser.closeChain opening
      return .done
  | _ =>
    ItemParser.closeChain opening
    return .done
partial_fixpoint

/-- A conditional, the directive `word` that opens it being the current token. -/
def conditional (family : Family) (word : DirectiveWord) (body : Body) : Grammar ItemKind :=
  letI items : Body → (TokenKind → Bool) → Run (List Item) := by apply items
  letI laterBranches : ItemParser.Opening → Body → Grammar Chain := by apply laterBranches
  do
  let c ← cursor
  let opening : ItemParser.Opening := ⟨family, c.found.getD "", c.here⟩
  let condition ← openingCondition v word
  let is ← always (items body ItemParser.endsBranch)
  let rest ← laterBranches opening body
  return .conditional family (.branch condition is rest)
partial_fixpoint

/-- A macro or a list of macros, its first word being the current token. -/
def macroDecl (isList : Bool) : Grammar ItemKind :=
  letI items : Body → (TokenKind → Bool) → Run (List Item) := by apply items
  do
  ItemParser.advance
  let heads ← if isList then signatures else pure [← signature]
  let opening := (← cursor).here
  Parser.expect (.mark .openBrace) .bodyStart
  let is ← always (inBody
    (items (if isList then .listBody else .macroBody) (· == .mark .closeBrace)))
  if !(← ItemParser.takeIf (.mark .closeBrace)) then ItemParser.report ⟨.unclosedMacro, opening⟩
  return .macroDecl isList heads is
partial_fixpoint

/-- A block in braces, the opening one being the current token. -/
def block : Grammar ItemKind :=
  letI items : Body → (TokenKind → Bool) → Run (List Item) := by apply items
  do
  let opening := (← cursor).here
  ItemParser.advance
  let is ← always (items .delimited (· == .mark .closeBrace))
  if ← ItemParser.takeIf (.mark .closeBrace) then return .block is
  else Parser.failAt opening .unclosedBlock
partial_fixpoint

/-- The directive `word` at the current token, wherever it stands. -/
def directiveAnywhere (body : Body) (word : DirectiveWord) : Grammar (Option ItemKind) :=
  letI conditional : Family → DirectiveWord → Body → Grammar ItemKind := by apply conditional
  do
  match plainDirective? v word with
  | some parse => return some (.directive (← parse))
  | none =>
    match word with
    | .chain .document .opening | .ifdef | .ifndef =>
      nested do return some (← conditional .document word body)
    | .chain .macroBody .opening | .ifarg =>
      nested do return some (← conditional .macroBody word body)
    | .bodyOp op =>
      ItemParser.advance
      return some (.bodyOp op (← Parser.name .bodyOp))
    | .unique => return some (.expr (← expression v false))
    | .unknown =>
      let c ← cursor
      ItemParser.report ⟨.unknownDirective (c.found.getD ""), c.here⟩
      ItemParser.advance
      return none
    | _ => ItemParser.unexpected ⟨body, ← inMacro⟩
partial_fixpoint

/-- The directive `word` at the current token.  One that is refused where it stands is read all the
same. -/
def directive (body : Body) (word : DirectiveWord) : Grammar (Option ItemKind) :=
  letI directiveAnywhere : Body → DirectiveWord → Grammar (Option ItemKind) := by apply directiveAnywhere
  do
  let c ← cursor
  let refused := ItemParser.needsMacro word && !(← inMacro)
  let kind ← directiveAnywhere body word
  if refused then
    ItemParser.report ⟨.directiveOutsideMacro (c.found.getD ""), c.here⟩
    return none
  else return kind
partial_fixpoint

/-- A macro at the current token.  Inside the body of a macro it is read and refused. -/
def macroItem (isList : Bool) : Grammar (Option ItemKind) :=
  letI macroDecl : Bool → Grammar ItemKind := by apply macroDecl
  do
  let here := (← cursor).here
  let refused ← inMacro
  let kind ← nested (macroDecl isList)
  if refused then
    ItemParser.report ⟨.nestedMacro, here⟩
    return none
  else return some kind
partial_fixpoint

/-- What the item at the token `t` is. -/
def kindAt (body : Body) (t : Token) : Grammar (Option ItemKind) :=
  letI site : Grammar ItemKind := by apply site
  letI block : Grammar ItemKind := by apply block
  letI directive : Body → DirectiveWord → Grammar (Option ItemKind) := by apply directive
  letI macroItem : Bool → Grammar (Option ItemKind) := by apply macroItem
  do
  match t.kind with
  | .keyword .prm => return some (← declaration v .prm)
  | .keyword .localPrm => return some (← declaration v .localPrm)
  | .keyword .existingPrm => return some (← existing v)
  | .keyword .site => return some (← site)
  | .keyword .macroDecl => macroItem false
  | .directive .list => macroItem true
  | .directive word => directive body word
  | .mark .atSign | .mark .bang => return some (.parameter (← Parser.markedParameter v))
  | .assign op => return some (.equation (← equation v op))
  | .ident => return some (← wordItem v body t.text)
  | .mark .closeBrace =>
    ItemParser.report ⟨.strayCloseBrace, t.range⟩
    ItemParser.advance
    return none
  | kind =>
    if kind == .mark .openBrace && body == .listBody then nested do return some (← block)
    else if kind.startsExpression then return some (.expr (← expression v false))
    else ItemParser.unexpected ⟨body, ← inMacro⟩
partial_fixpoint

/-- What the item at the cursor is. -/
def itemKind (body : Body) : Grammar (Option ItemKind) :=
  letI kindAt : Body → Token → Grammar (Option ItemKind) := by apply kindAt
  do
  match (← cursor).peek? 0 with
  | none => ItemParser.unexpected ⟨body, ← inMacro⟩
  | some t => kindAt body t
partial_fixpoint

/-- One item.  There is none if the tokens have been consumed and reported. -/
def item (body : Body) : Grammar (Option Item) :=
  letI itemKind : Body → Grammar (Option ItemKind) := by apply itemKind
  do
  let start := (← cursor).here.start
  match ← itemKind body with
  | some k => return some ⟨k, ⟨start, (← cursor).lastEnd⟩⟩
  | none => return none
partial_fixpoint

end

/-- The items of a whole document. -/
def document : Run (List Item) := items v .topLevel fun _ => false

end Items

end Reader

end ControlFile
