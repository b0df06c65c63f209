import ControlFile.Proofs.Item.Depth
import ControlFile.Proofs.Item.FollowingItem

/-!
# Reading comes to an end

`Reader.Production` lists the functions of the machine, and what each of them reads.  All of them end,
wherever they start and whatever the registers are, and the registers are as they were
(`Reader.ends_balanced`): a level and the body of a macro that are opened are closed, also where reading
fails.  What they come to is what the parsers come to that have the levels which are left as an
argument.

So the limit has the same meaning throughout a text.  A whole document is read to its end, and what is
read is not nested deeper than the limit.
-/

namespace ControlFile.Reader

/-! ### Functions of the machine -/

/-- A function of the machine that reads an `α`. -/
inductive Production : Type → Type
  | expression (juxtapose : Bool) : Production Expr
  | comparison (juxtapose : Bool) : Production Expr
  | sum (juxtapose : Bool) : Production Expr
  | product (juxtapose : Bool) : Production Expr
  | signed : Production Expr
  | power : Production Expr
  | exponent : Production Expr
  | primary : Production Expr
  | call (callee : String) (start : Nat) : Production Expr
  | argument : Production Argument
  | equation (op : AssignOp) : Production Equation
  | literal (negative : Bool) : Production Literal
  | signedLiteral : Production (Option Literal)
  | uncertainty : Production Uncertainty
  | refinement : Production Refinement
  | parameterName : Production (Option String)
  | markedParameter : Production Parameter
  | name (role : NameRole) : Production String
  | freeWord (starts : TokenKind → Bool) : Production (Option String)
  | declaration (kind : VariableScope) : Production ItemKind
  | existing : Production ItemKind
  | valueSlot (fixed : Bool) : Production Parameter
  | occupancy (wordEnd : Nat) : Production Occupancy
  | adps : Production (Adps Parameter)
  | siteStatement (word : SiteWord) : Production ItemKind
  | wordItem (body : Body) (word : String) : Production ItemKind
  | site : Production ItemKind
  | signature : Production Signature
  | macroParamList : Production (List MacroParam)
  | macroDecl (isList : Bool) : Production ItemKind
  | macroItem (isList : Bool) : Production (Option ItemKind)
  | openingCondition (word : DirectiveWord) : Production Condition
  | exprCondition : Production Condition
  | conditional (family : Family) (word : DirectiveWord) (body : Body) : Production ItemKind
  | directive (body : Body) (word : DirectiveWord) : Production (Option ItemKind)
  | directiveAnywhere (body : Body) (word : DirectiveWord) : Production (Option ItemKind)
  | block : Production ItemKind
  | item (body : Body) : Production (Option Item)
  | items (body : Body) (stop : TokenKind → Bool) : Production (List Item)
  | recover : Production Unit

namespace Production

variable {α : Type} (v : Vocabulary)

/-- What the machine does. -/
def run : Production α → Grammar α
  | .expression juxtapose => Reader.expression v juxtapose
  | .comparison juxtapose => Reader.binary v juxtapose 1
  | .sum juxtapose => Reader.binary v juxtapose 2
  | .product juxtapose => Reader.binary v juxtapose 3
  | .signed => Reader.signed v
  | .power => Reader.power v
  | .exponent => Reader.exponent v
  | .primary => Reader.primary v
  | .call callee start => Reader.call v callee start
  | .argument => Reader.argument v
  | .equation op => Reader.equation v op
  | .literal negative => Parser.literal negative
  | .signedLiteral => Parser.signedLiteral?
  | .uncertainty => Parser.uncertainty
  | .refinement => Parser.refinement
  | .parameterName => Parser.parameterName? v
  | .markedParameter => Parser.markedParameter v
  | .name role => Parser.name role
  | .freeWord starts => Parser.freeWord? starts
  | .declaration kind => Reader.declaration v kind
  | .existing => Reader.existing v
  | .valueSlot fixed => Reader.valueSlot v fixed
  | .occupancy wordEnd => Reader.occupancy v wordEnd
  | .adps => Adps.words.mapM (Reader.adp v)
  | .siteStatement word => Reader.siteStatement v word
  | .wordItem body word => Reader.wordItem v body word
  | .site => Reader.site v
  | .signature => Reader.signature
  | .macroParamList => Reader.macroParamList
  | .macroDecl isList => Reader.macroDecl v isList
  | .macroItem isList => Reader.macroItem v isList
  | .openingCondition word => Reader.openingCondition v word
  | .exprCondition => Reader.exprCondition v
  | .conditional family word body => Reader.conditional v family word body
  | .directive body word => Reader.directive v body word
  | .directiveAnywhere body word => Reader.directiveAnywhere v body word
  | .block => Reader.block v
  | .item body => Reader.item v body
  | .items body stop => always (Reader.items v body stop)
  | .recover => always Reader.recover

/-- The parser of the same, with `L` levels left. -/
def parser (L : Nat) (inMacro : Bool) : Production α → ItemParser α
  | .expression juxtapose => Parser.expression v L juxtapose
  | .comparison juxtapose => Parser.comparison v (Parser.expression v L true) juxtapose
  | .sum juxtapose => Parser.grouped juxtapose 2
      (Parser.grouped juxtapose 3 (Parser.signed v (Parser.expression v L true)))
  | .product juxtapose => Parser.grouped juxtapose 3 (Parser.signed v (Parser.expression v L true))
  | .signed => Parser.signed v (Parser.expression v L true)
  | .power => Parser.power v (Parser.expression v L true)
  | .exponent => Parser.exponent v (Parser.expression v L true)
  | .primary => Parser.primary v (Parser.expression v L true)
  | .call callee start => Parser.call v (Parser.expression v L true) callee start
  | .argument => Parser.argument v (Parser.expression v L true)
  | .equation op => Parser.equation (Parser.expression v L true) op
  | .literal negative => Parser.literal negative
  | .signedLiteral => Parser.signedLiteral?
  | .uncertainty => Parser.uncertainty
  | .refinement => Parser.refinement
  | .parameterName => Parser.parameterName? v
  | .markedParameter => Parser.markedParameter v
  | .name role => Parser.name role
  | .freeWord starts => Parser.freeWord? starts
  | .declaration kind => Parser.declaration (Parser.expression v L true) ⟨.topLevel, inMacro⟩ kind
  | .existing => Parser.existing (Parser.expression v L true)
  | .valueSlot fixed => slot fixed
  | .occupancy wordEnd => Parser.occupancy (slot false) wordEnd
  | .adps => (Adps.words.mapM (Parser.adp (slot false)) : Parser (Adps Parameter))
  | .siteStatement word =>
    Parser.siteStatement v (Parser.expression v L true) ⟨.siteBody, inMacro⟩ word
  | .wordItem body word => Parser.wordItem v L ⟨body, inMacro⟩ word
  | .site => ItemParser.site (siteMember v L (nextLevel v L) ⟨.siteBody, inMacro⟩)
  | .signature => Parser.signature
  | .macroParamList => Parser.macroParamList
  | .macroDecl isList => ItemParser.macroDecl isList (ItemParser.allItems
      (ItemParser.item v L ⟨if isList then .listBody else .macroBody, true⟩) (· == .mark .closeBrace))
  | .macroItem isList => ItemParser.macroItem (nextLevel v L) ⟨.topLevel, inMacro⟩ isList
  | .openingCondition word => Parser.openingCondition (Parser.expression v L true) word
  | .exprCondition => Parser.exprCondition (Parser.expression v L true)
  | .conditional family word body => ItemParser.conditional family word (Parser.expression v L true)
      (ItemParser.allItems (ItemParser.item v L ⟨body, inMacro⟩) ItemParser.endsBranch)
  | .directive body word => ItemParser.directive v L (nextLevel v L) ⟨body, inMacro⟩ word
  | .directiveAnywhere body word =>
    ItemParser.directiveAnywhere v L (nextLevel v L) ⟨body, inMacro⟩ word
  | .block => ItemParser.block (ItemParser.allItems (ItemParser.item v L ⟨.delimited, inMacro⟩)
      (· == .mark .closeBrace))
  | .item body => ItemParser.item v L ⟨body, inMacro⟩
  | .items body stop => ItemParser.allItems (ItemParser.item v L ⟨body, inMacro⟩) stop
  | .recover => modify fun r => { r with cursor := r.cursor.recover }
where
  slot : Bool → Parser Parameter :=
    Parser.valueSlot v (Parser.expression v L true) ⟨.siteBody, inMacro⟩

variable {v}

/-- **The machine does what the parser does**, with the levels that are left. -/
theorem follows (g : Production α) (x : Reader) :
    Follows x 0 (g.run v) (g.parser v x.levels x.isInMacro) := by
  have hinner (y : Reader) (hy : y.levels = x.levels) :
      Parses y 0 (Reader.expression v true) (Parser.expression v x.levels true) :=
    (parses_expression v true hy).weaken
  have hdeeper := followsDeeper_nextLevel v x.levels
  have hslot (fixed : Bool) (c : Cursor) := parses_valueSlot v fixed ⟨.siteBody, x.isInMacro⟩
    (L := x.levels) (x := x.moveTo c) rfl rfl
  have hitem (body : Body) (r : Reading) :=
    follows_item v (x := x.resume r) (L := x.levels) ⟨body, x.isInMacro⟩ rfl rfl
  cases g with
  | expression juxtapose => exact (parses_expression v juxtapose rfl).weaken
  | comparison juxtapose => exact (parses_comparison hinner juxtapose rfl).weaken
  | sum juxtapose => exact (parses_binary hinner 2 juxtapose (by decide) rfl).weaken
  | product juxtapose => exact (parses_binary hinner 1 juxtapose (by decide) rfl).weaken
  | signed => exact (parses_signed hinner rfl).weaken
  | power => exact (parses_power hinner rfl).weaken
  | exponent => exact (parses_exponent hinner rfl).weaken
  | primary => exact (parses_primary hinner rfl).weaken
  | call callee start => exact parses_call hinner callee start rfl
  | argument => exact parses_argument hinner rfl
  | equation op => exact parses_equation hinner op rfl
  | literal negative => exact (Parses.lift (Parser.goes_literal negative)).weaken
  | signedLiteral => exact Parses.lift Parser.goes_signedLiteral?
  | uncertainty => exact Parses.lift Parser.goes_uncertainty
  | refinement => exact Parses.lift Parser.goes_refinement
  | parameterName => exact Parses.lift (Parser.goes_parameterName? v)
  | markedParameter => exact Parses.lift (Parser.goes_markedParameter v)
  | name role => exact Parses.lift (Parser.goes_name role)
  | freeWord starts => exact Parses.lift (Parser.goes_freeWord? starts)
  | declaration kind => exact parses_declaration v kind ⟨.topLevel, x.isInMacro⟩ rfl rfl
  | existing => exact parses_existing v rfl
  | valueSlot fixed => exact hslot fixed x.reading.cursor
  | occupancy wordEnd => exact parses_occupancy v (x := x) (hslot false) wordEnd x.reading.cursor
  | adps => exact parses_adps v (x := x) (hslot false) Adps.words x.reading.cursor
  | siteStatement word => exact parses_siteStatement v word ⟨.siteBody, x.isInMacro⟩ rfl rfl
  | wordItem body word => exact parses_wordItem v word ⟨body, x.isInMacro⟩ rfl rfl
  | site =>
    exact follows_site v fun r hmember =>
      follows_member v hdeeper ⟨.siteBody, x.isInMacro⟩ (x := x.resume r) hmember rfl rfl
  | signature => exact parses_signature.weaken
  | macroParamList => exact parses_macroParamList
  | macroDecl isList =>
    refine follows_macroDecl v isList fun r => ?_
    exact follows_item v (x := x.inside.resume r) ⟨if isList then .listBody else .macroBody, true⟩ rfl
      (decide_eq_true (Nat.succ_pos _))
  | macroItem isList => exact follows_macroItem v hdeeper isList ⟨.topLevel, x.isInMacro⟩ rfl rfl
  | openingCondition word => exact parses_openingCondition v word rfl
  | exprCondition => exact parses_exprCondition v rfl
  | conditional family word body => exact follows_conditional v (hitem body) rfl family word
  | directive body word => exact follows_directive v hdeeper word ⟨body, x.isInMacro⟩ rfl rfl
  | directiveAnywhere body word =>
    exact follows_directiveAnywhere v hdeeper word ⟨body, x.isInMacro⟩ rfl rfl
  | block => exact follows_block v (hitem .delimited)
  | item body => exact hitem body x.reading
  | items body stop => exact (gathers_allItems (hitem body) stop x.reading).always
  | recover => exact ⟨rfl, goesOn_recover _⟩

end Production

/-! ### Ends -/

/-- Reading has gone on from `x` to `y`, or stands where it stood, and what was opened is closed. -/
structure Balanced (x y : Reader) : Prop where
  moves : ∃ ts, x.reading.cursor.Moves ts y.reading.cursor
  nesting : y.nesting = x.nesting
  macroDepth : y.macroDepth = x.macroDepth

/-- What follows a parser ends. -/
theorem Follows.exists_balanced {α : Type} {n : Nat} {x : Reader} {m : Grammar α} {p : ItemParser α}
    (h : Follows x n m p) : ∃ result y, m x = some (result, y) ∧ x.Balanced y ∧
      (result, y) = x.finish (p x.reading) := by
  have hgoes := h.goes
  unfold Goes at hgoes
  rw [h.run]
  cases hp : p x.reading with
  | ok a r =>
    rw [hp] at hgoes
    obtain ⟨ts, hts, -⟩ := hgoes
    exact ⟨.ok a, x.resume r, rfl, ⟨⟨ts, hts⟩, rfl, rfl⟩, rfl⟩
  | error d r =>
    rw [hp] at hgoes
    obtain ⟨ts, hts, -⟩ := hgoes
    exact ⟨.error d, x.resume r, rfl, ⟨⟨ts, hts⟩, rfl, rfl⟩, rfl⟩

/-- A document is read to its end. -/
theorem rest_document (v : Vocabulary) (tokens : List Token) (textEnd : Nat) :
    (Parsed.document v (start tokens textEnd).reading).2.cursor.rest = [] := by
  have hone (r : Reading) :
      Goes Reading.cursor 0 (ItemParser.item v maxNesting ⟨.topLevel, false⟩) r :=
    (follows_item v (x := (start tokens textEnd).resume r) ⟨.topLevel, false⟩ rfl rfl).goes
  have hstops : Stops (fun _ => false) (Parsed.document v) (start tokens textEnd).reading :=
    stops_items hone _ _ _ (Nat.le_refl _)
  cases hrest : (Parsed.document v (start tokens textEnd).reading).2.cursor.rest with
  | nil => rfl
  | cons t ts => cases hstops t.kind (Cursor.kind?_cons hrest)

/-- **Reading ends, everything that is opened is closed, and nothing is nested deeper than the limit.**

Every function of the machine ends, with a result or a failure, and with the registers as they were;
reading has not gone back.  A whole document is read to its end, with nothing open, and its items are
those of the parser: at most 64 levels deep. -/
theorem ends_balanced (v : Vocabulary) :
    (∀ (α : Type) (g : Production α) (x : Reader), ∃ result y,
      g.run v x = some (result, y) ∧ x.Balanced y ∧
      (result, y) = x.finish (g.parser v x.levels x.isInMacro x.reading)) ∧
    ∀ (tokens : List Token) (textEnd : Nat),
      (∃ y, document v (start tokens textEnd) = some ((Parsed.itemsOf v tokens textEnd).1, y) ∧
        (start tokens textEnd).reading.cursor.Moves tokens y.reading.cursor ∧
        y.reading.cursor.rest = [] ∧ y.nesting = 0 ∧ y.macroDepth = 0 ∧
        y.reading.reported = (Parsed.itemsOf v tokens textEnd).2) ∧
      Item.maxDepth (Parsed.itemsOf v tokens textEnd).1 ≤ 64 := by
  refine ⟨fun α g x => (g.follows x).exists_balanced, fun tokens textEnd => ⟨?_, ?_⟩⟩
  · have hdocument := gathers_document v tokens textEnd
    have hrest := rest_document v tokens textEnd
    obtain ⟨ts, hts, -⟩ := hdocument.goes
    have htokens : tokens = ts := by
      have h := hts.rest
      rwa [hrest, List.append_nil] at h
    exact ⟨_, hdocument.run, htokens ▸ hts, hrest, rfl, rfl, rfl⟩
  · exact Item.maxDepth_le (Parsed.depth_itemsOf v tokens textEnd)

/-- The limit is sharp.  An equation with 63 pairs of parentheses around a number has 64 levels, and one
with another pair is refused. -/
example :
    let text (pairs : Nat) : String :=
      String.ofList ('=' :: List.replicate pairs '(' ++ '1' :: List.replicate pairs ')' ++ [';'])
    (Parsed.ofText .empty (text 63)).isOk = true ∧
      Item.maxDepth (Parsed.ofText .empty (text 63)).items = 64 ∧
      (Parsed.ofText .empty (text 64)).diagnostics.map (·.fault) = [.nestingTooDeep] := by
  decide +kernel

end ControlFile.Reader
