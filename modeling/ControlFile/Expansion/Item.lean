import ControlFile.Expansion.Expr

/-!
# Expanding items

`expandItem` gives the items that an item stands for, at one level of depth; `itemAt` ties the
levels together.  Nothing goes deeper than the limit, whatever macros and files call and include
each other.
-/

namespace ControlFile.Expansion

def expandSiteStatement (place : Place) : SiteStatement → Expansion SiteStatement
  | .coordinate axis value => do return .coordinate axis (← expandParameter place value)
  | .occupancy ⟨atom, value, modifiers⟩ => do
    let w ← expandParameter place value
    let ms ← modifiers.mapM fun m => return { m with value := ← expandParameter place m.value }
    return .occupancy ⟨atom, w, ms⟩
  | .scalar word value => do return .scalar word (← expandParameter place value)
  | .adps values => do return .adps (← values.mapM (expandParameter place))

/-- The items of an included file, one level deeper.  Each of them is expanded by itself. -/
def includeFile (place : Place) (path : String) : Expansion (List Item) := do
  match place.below with
  | none => failAt place.range (.depthExceeded path place.config.options.maxDepth)
  | some below =>
    match ← ask place.config path with
    | none => failAt place.range (.includeNotFound path)
    | some text =>
      let parsed := Parsed.ofText place.config.vocabulary text
      let frame := place.frame.inFile path place.range
      reportParsed place.config frame parsed
      relocating place.range (independently frame (below frame) parsed.items)

/-- A directive: it changes the tables and stays, or it is replaced by what it stands for. -/
def expandDirective (place : Place) (d : Directive) : Expansion (List Item) := do
  let stay : List Item := [⟨.directive d, place.range⟩]
  match d with
  | .includeFile path => includeFile place path
  | .out e =>
    let value ← evaluate place e
    return [⟨.expr (.literal (.ofNumber value)), place.range⟩]
  | .define name =>
    modifyTables (·.define name)
    return stay
  | .undef name =>
    modifyTables (·.undef name)
    return stay
  | .deleteMacros names =>
    modifyTables (·.deleteMacros names)
    return stay
  | .prm name equation =>
    let value ← evaluate place equation.body
    modifyTables (·.setVariable name value)
    return stay
  | .seed => return stay

mutual

/-- The items that an item stands for.  Cancellation is noticed before each item. -/
def expandItem (config : Config) (below : Below) (frame : Frame) : Item → Expansion (List Item)
  | ⟨kind, range⟩ => do
    checkCancelled config range
    expandKind ⟨config, below, frame, range⟩ kind

def expandKind (place : Place) : ItemKind → Expansion (List Item)
  | .directive d => expandDirective place d
  | .conditional _ chain => expandChain place chain
  | .block items => expandItems place.config place.below place.frame items
  | .expr e => expandExprItem place e
  | .bodyOp _ param => failAt place.range (.unresolved param)
  | .macroDecl isList signatures body => do
    modifyTables (·.registerMacros signatures body)
    return [⟨.macroDecl isList signatures body, place.range⟩]
  | .declaration scope p => do
    match p.name with
    | some name => modifyTables (·.declare name)
    | none => pure ()
    return [⟨.declaration scope (← expandParameter place p), place.range⟩]
  | .existing a => do
    if (← tables).isDeclared a.name then
      return [⟨.existing { a with equation := ← expandEquation place a.equation }, place.range⟩]
    else failAt place.range (.unresolved a.name)
  | .site name members => do
    let ms ← expandItems place.config place.below place.frame members
    return [⟨.site name ms, place.range⟩]
  | .siteStatement s => do return [⟨.siteStatement (← expandSiteStatement place s), place.range⟩]
  | .keyword word none => return [⟨.keyword word none, place.range⟩]
  | .keyword word (some e) => do
    return [⟨.keyword word (some (← expandEquation place e)), place.range⟩]
  | .parameter p => do return [⟨.parameter (← expandParameter place p), place.range⟩]
  | .equation e => do return [⟨.equation (← expandEquation place e), place.range⟩]
  | .assignment name e => do return [⟨.assignment name (← expandEquation place e), place.range⟩]

/-- The items of the first branch whose condition holds. Later conditions are not looked at. -/
def expandChain (place : Place) : Chain → Expansion (List Item)
  | .done => return []
  | .otherwise items => expandItems place.config place.below place.frame items
  | .branch condition items rest => do
    if ← holds place condition then expandItems place.config place.below place.frame items
    else expandChain place rest

/-- The items that a list of items stands for. The first fault ends it. -/
def expandItems (config : Config) (below : Below) (frame : Frame) :
    List Item → Expansion (List Item)
  | [] => return []
  | i :: is => do
    let produced ← expandItem config below frame i
    let rest ← expandItems config below frame is
    return produced ++ rest

end

/-- The items that an item stands for, if macros and files may be nested `levels` deep. -/
def itemAt (config : Config) : (levels : Nat) → Frame → Item → Expansion (List Item)
  | 0, frame, item => expandItem config none frame item
  | levels + 1, frame, item => expandItem config (some (itemAt config levels)) frame item

end ControlFile.Expansion
