import ControlFile.Item.Statement

/-!
# Reading items

An item that cannot be read is reported and skipped, up to the next semicolon or to what closes the
body it stands in, and reading goes on behind it.  So a text always has items, and a list of
diagnostics besides.

The items of bodies, branches and blocks are read one level of nesting deeper.  `item` counts down
the levels that are left; the parsers of one level take the one of the next level, `deeper`, if
there is one.

A site has no end mark.  It goes on as long as a word of a site, a call or a directive follows; its
members are items of the same level, but no sites.
-/

namespace ControlFile

/-- Where reading stands: the cursor, and what has been reported. -/
structure Reading where
  cursor : Cursor
  reported : List Diagnostic
deriving Inhabited

namespace Reading

def report (d : Diagnostic) (r : Reading) : Reading := { r with reported := r.reported ++ [d] }

def advance (r : Reading) : Reading := { r with cursor := r.cursor.advance }

end Reading

/-- Where reading can go on after a failure: behind a semicolon, or before what closes a body or a
branch. -/
def Cursor.recover (c : Cursor) : Cursor :=
  let stopped := c.skipWhile fun t =>
    t.kind != .mark .semicolon && t.kind != .mark .closeBrace && !t.kind.closesBranch
  if stopped.isAt (.mark .semicolon) then stopped.advance else stopped

/-- A parser that may report diagnostics besides its result. -/
abbrev ItemParser := EStateM Diagnostic Reading

instance : MonadLift Parser ItemParser where
  monadLift p := fun r =>
    match p r.cursor with
    | .ok a c => .ok a { r with cursor := c }
    | .error e c => .error e { r with cursor := c }

instance : MonadLift (StateM Reading) ItemParser where
  monadLift p := fun r => let (a, r') := p r; .ok a r'

namespace ItemParser

def report (d : Diagnostic) : ItemParser Unit := modify (Reading.report d)

def cursor : ItemParser Cursor := return (← get).cursor

def advance : ItemParser Unit := modify Reading.advance

/-- Consumes the current token if it is of the given kind, and says whether it is. -/
def takeIf (kind : TokenKind) : ItemParser Bool := Parser.takeIf kind

/-! ### Sequences -/

/-- Reads an item; if this fails it is reported, and reading recovers. -/
def attempt (one : ItemParser (Option Item)) : StateM Reading (Option Item) := fun r =>
  match one r with
  | .ok item r' => (item, r')
  | .error d r' => (none, { r'.report d with cursor := r'.cursor.recover })

/-- Reads items until `stop` holds of the current token or the text ends, `limit` of them at most.
A token that no item consumes is skipped, so each step consumes one. -/
def items (one : ItemParser (Option Item)) (stop : TokenKind → Bool) :
    (limit : Nat) → StateM Reading (List Item)
  | 0 => return []
  | limit + 1 => do
    let before ← get
    match before.cursor.kind? with
    | none => return []
    | some kind =>
      if stop kind then return []
      else
        let item ← attempt one
        if (← get).cursor.rest.length = before.cursor.rest.length then modify Reading.advance
        return item.toList ++ (← items one stop limit)

/-- Reads items until `stop` holds of the current token or the text ends. -/
def allItems (one : ItemParser (Option Item)) (stop : TokenKind → Bool) :
    StateM Reading (List Item) := do
  items one stop (← get).cursor.rest.length

/-- Reads an item and notes which stretch of text it takes. -/
def located (kind : ItemParser (Option ItemKind)) : ItemParser (Option Item) := do
  let start := (← cursor).here.start
  match ← kind with
  | some k => return some ⟨k, ⟨start, (← cursor).lastEnd⟩⟩
  | none => return none

/-! ### Sites -/

/-- Whether the next item belongs to the site. -/
def isAtMember (c : Cursor) : Bool :=
  match c.peek? 0 with
  | some t =>
    match t.kind with
    | .ident => (SiteWord.ofWord? t.text).isSome || c.isAtCall
    | .directive d => !d.closesBranch
    | _ => false
  | none => false

/-- The members of a site, `limit` of them at most. -/
def members (one : ItemParser (Option Item)) : (limit : Nat) → StateM Reading (List Item)
  | 0 => return []
  | limit + 1 => do
    let before ← get
    if isAtMember before.cursor then
      let item ← attempt one
      if (← get).cursor.rest.length = before.cursor.rest.length then return item.toList
      else return item.toList ++ (← members one limit)
    else return []

/-- A site, its first word being the current token. -/
def site (member : ItemParser (Option Item)) : ItemParser ItemKind := do
  let wordEnd := (← cursor).here.stop
  advance
  match ← Parser.freeWord? (fun k => k == .ident || k.isNumber) with
  | none => throw ⟨.missingSiteName, .emptyAt wordEnd⟩
  | some name => return .site name (← members member (← cursor).rest.length)

/-! ### Conditionals -/

/-- What ends a branch: a directive that closes one, or the brace of the body around it. -/
def endsBranch (k : TokenKind) : Bool := k.closesBranch || k == .mark .closeBrace

/-- What opened a conditional. -/
structure Opening where
  family : Family
  text : String
  range : Extent
deriving Inhabited

/-- The end of a conditional.  The end directive of the other family is consumed and reported; any
other directive that closes a branch is left for what is around the conditional. -/
def closeChain (opening : Opening) : ItemParser Unit := do
  let c ← cursor
  match c.kind? with
  | some (.directive (.chain family .endif)) =>
    if family = opening.family then advance
    else
      report ⟨.mixedConditional (c.found.getD "") opening.text, c.here⟩
      advance
  | some kind =>
    if kind.closesBranch then return ()
    else report ⟨.unclosedConditional opening.text, opening.range⟩
  | none => report ⟨.unclosedConditional opening.text, opening.range⟩

/-- The branches behind the first, `limit` of them at most. -/
def laterBranches (opening : Opening) (expr : Parser Expr) (body : StateM Reading (List Item)) :
    (limit : Nat) → ItemParser Chain
  | 0 => return .done
  | limit + 1 => do
    match (← cursor).kind? with
    | some (.directive (.chain family .elseif)) =>
      if family = opening.family then
        advance
        let condition ← Parser.exprCondition expr
        let items ← body
        return .branch condition items (← laterBranches opening expr body limit)
      else
        closeChain opening
        return .done
    | some (.directive (.chain family .otherwise)) =>
      if family = opening.family then
        advance
        let items ← body
        closeChain opening
        return .otherwise items
      else
        closeChain opening
        return .done
    | _ =>
      closeChain opening
      return .done

/-- A conditional, the directive `word` that opens it being the current token. -/
def conditional (family : Family) (word : DirectiveWord) (expr : Parser Expr)
    (body : StateM Reading (List Item)) : ItemParser ItemKind := do
  let c ← cursor
  let opening : Opening := ⟨family, c.found.getD "", c.here⟩
  let condition ← Parser.openingCondition expr word
  let items ← body
  let rest ← laterBranches opening expr body ((← cursor).rest.length + 1)
  return .conditional family (.branch condition items rest)

/-! ### Macros and blocks -/

/-- A macro or a list of macros, its first word being the current token. -/
def macroDecl (isList : Bool) (body : StateM Reading (List Item)) : ItemParser ItemKind := do
  advance
  let signatures ← if isList then Parser.signatures ((← cursor).rest.length + 1)
    else pure [← Parser.signature]
  let opening := (← cursor).here
  Parser.expect (.mark .openBrace) .bodyStart
  let items ← body
  if !(← takeIf (.mark .closeBrace)) then report ⟨.unclosedMacro, opening⟩
  return .macroDecl isList signatures items

/-- A block in braces, the opening one being the current token. -/
def block (body : StateM Reading (List Item)) : ItemParser ItemKind := do
  let opening := (← cursor).here
  advance
  let items ← body
  if ← takeIf (.mark .closeBrace) then return .block items
  else throw ⟨.unclosedBlock, opening⟩

/-! ### Items of one level -/

/-- The parser of the next level, if there is one. -/
abbrev Deeper := Option (Scope → ItemParser (Option Item))

/-- Runs `parse` with the parser of the next level. -/
def nested {α : Type} (deeper : Deeper) (parse : (Scope → ItemParser (Option Item)) → ItemParser α) :
    ItemParser α :=
  match deeper with
  | some next => parse next
  | none => Parser.fail .nestingTooDeep

/-- Reports the current token as unexpected, and skips it. -/
def unexpected (scope : Scope) : ItemParser (Option ItemKind) := do
  let c ← cursor
  report ⟨.unexpected c.found scope.body, c.here⟩
  advance
  return none

/-- The directive `word` at the current token, wherever it stands. -/
def directiveAnywhere (v : Vocabulary) (levels : Nat) (deeper : Deeper) (scope : Scope)
    (word : DirectiveWord) : ItemParser (Option ItemKind) := do
  let expr := Parser.expression v levels
  let inner := Parser.expression v (levels - 1) true
  match Parser.plainDirective? v levels word with
  | some parse => return some (.directive (← parse))
  | none =>
    match word with
    | .chain .document .opening | .ifdef | .ifndef =>
      nested deeper fun next => do
        return some (← conditional .document word inner (allItems (next scope) endsBranch))
    | .chain .macroBody .opening | .ifarg =>
      nested deeper fun next => do
        return some (← conditional .macroBody word inner (allItems (next scope) endsBranch))
    | .bodyOp op =>
      advance
      return some (.bodyOp op (← Parser.name .bodyOp))
    | .unique => return some (.expr (← expr false))
    | .unknown =>
      let c ← cursor
      report ⟨.unknownDirective (c.found.getD ""), c.here⟩
      advance
      return none
    | _ => unexpected scope

/-- Whether the directive is refused outside the bodies of macros.  Those that only occur behind
another directive are refused for that reason already. -/
def needsMacro : DirectiveWord → Bool
  | .chain .macroBody .opening | .ifarg | .bodyOp _ | .unique => true
  | _ => false

/-- The directive `word` at the current token.  One that is refused where it stands is read all the
same, so that reading goes on behind it. -/
def directive (v : Vocabulary) (levels : Nat) (deeper : Deeper) (scope : Scope)
    (word : DirectiveWord) : ItemParser (Option ItemKind) := do
  let c ← cursor
  let kind ← directiveAnywhere v levels deeper scope word
  if needsMacro word && !scope.inMacro then
    report ⟨.directiveOutsideMacro (c.found.getD ""), c.here⟩
    return none
  else return kind

/-- A macro at the current token.  Inside the body of a macro it is read and refused. -/
def macroItem (deeper : Deeper) (scope : Scope) (isList : Bool) : ItemParser (Option ItemKind) := do
  let here := (← cursor).here
  let body : Scope := ⟨if isList then .listBody else .macroBody, true⟩
  let kind ← nested deeper fun next =>
    macroDecl isList (allItems (next body) (· == .mark .closeBrace))
  if scope.inMacro then
    report ⟨.nestedMacro, here⟩
    return none
  else return some kind

/-- An item that is no site, at the token `t`. -/
def leaf (v : Vocabulary) (levels : Nat) (deeper : Deeper) (scope : Scope) (t : Token) :
    ItemParser (Option ItemKind) := do
  let expr := Parser.expression v levels
  match t.kind with
  | .keyword .prm => return some (← Parser.declaration (expr true) scope .prm)
  | .keyword .localPrm => return some (← Parser.declaration (expr true) scope .localPrm)
  | .keyword .existingPrm => return some (← Parser.existing (expr true))
  | .keyword .macroDecl => macroItem deeper scope false
  | .directive .list => macroItem deeper scope true
  | .directive word => directive v levels deeper scope word
  | .mark .atSign | .mark .bang => return some (.parameter (← Parser.markedParameter v))
  | .assign op => return some (.equation (← Parser.equation (expr true) op))
  | .ident => return some (← Parser.wordItem v levels scope t.text)
  | .mark .closeBrace =>
    report ⟨.strayCloseBrace, t.range⟩
    advance
    return none
  | kind =>
    if kind == .mark .openBrace && scope.body == .listBody then
      nested deeper fun next => do
        let body := allItems (next { scope with body := .delimited }) (· == .mark .closeBrace)
        return some (← block body)
    else if kind.startsExpression then return some (.expr (← expr false))
    else unexpected scope

/-- What the item at the cursor is. -/
def itemKind (v : Vocabulary) (levels : Nat) (deeper : Deeper) (scope : Scope) :
    ItemParser (Option ItemKind) := do
  match (← cursor).peek? 0 with
  | none => unexpected scope
  | some t =>
    if t.kind = .keyword .site then
      let member := located do
        match (← cursor).peek? 0 with
        | none => return none
        | some t => leaf v levels deeper { scope with body := .siteBody } t
      return some (← site member)
    else leaf v levels deeper scope t

/-- One item, with at most `levels` levels of nesting in it.  There is none if the tokens have been
consumed and reported. -/
def item (v : Vocabulary) : (levels : Nat) → Scope → ItemParser (Option Item)
  | 0, scope => located (itemKind v 0 none scope)
  | levels + 1, scope => located (itemKind v (levels + 1) (some (item v levels)) scope)

end ItemParser

/-! ### Texts -/

/-- What is read from a text: its items, the diagnostics in the order of their places, and its
comments. -/
structure Parsed where
  items : List Item
  diagnostics : List Diagnostic
  comments : List Comment
deriving Inhabited

namespace Parsed

/-- A text without faults. -/
def isOk (p : Parsed) : Bool := p.diagnostics.isEmpty

/-- The items of a row of significant tokens, and what was reported. -/
def itemsOf (v : Vocabulary) (tokens : List Token) (textEnd : Nat) : List Item × List Diagnostic :=
  let start : Reading := ⟨⟨tokens, 0, textEnd⟩, []⟩
  let one := ItemParser.item v maxNesting ⟨.topLevel, false⟩
  let (items, r) := ItemParser.allItems one (fun _ => false) start
  (items, r.reported)

/-- Reads a text. -/
def ofText (v : Vocabulary) (text : String) : Parsed :=
  let stream := TokenStream.ofText text
  let (items, reported) := itemsOf v stream.tokens (byteLength text.toList)
  ⟨items, Diagnostic.sortByStart (stream.diagnostics ++ reported), stream.comments⟩

end Parsed

end ControlFile
