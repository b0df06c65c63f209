import ControlFile.Document
import ControlFile.Proofs.Macro.Noting

/-!
# The expander as a machine

`Expansion.itemAt` is told by its arguments how many levels are left and where the items stand.
The machine of this module keeps both in registers instead, which every call of a macro and every
included file sets and has to set back: the depth, the text that the items come from, and the
outermost call.

The body of a macro and an included file hold items that no one has seen before, so nothing but the
test of the depth keeps the machine from going on for ever.  `process` therefore takes fuel, for as
many bodies and files inside each other, and has the value `none` when there is none left; the
functions it is made of take the function `again` that processes those items.

Two things are noted on the way, which no function reads: every depth that is set, and every unique
name that is returned, one for each expansion of a macro and one for each argument that is given a name
to keep it out of the refinement.
-/

namespace ControlFile

/-- An expander: the run so far, its registers, and what has been noted: the depths, the latest first,
and the unique names, in their order. -/
structure Expander where
  run : Run
  depth : Nat
  source : Source
  callSite : Option Extent
  depths : List Nat
  given : List String
deriving Inhabited

/-- A step of the machine. There is no result if the fuel runs out. -/
abbrev Machine := StateT Expander Option

/-- A step of the machine that may fail. -/
abbrev Expanding := ExceptT Diagnostic Machine

namespace Expander

open Expansion (checkCancelled reportParsed liftFault bindParam bindHoles)

variable {α : Type}

/-- Before a run. -/
def start (run : Run) : Expander := ⟨run, 0, .root, none, [], []⟩

def frame (x : Expander) : Frame := ⟨x.source, x.callSite⟩

/-! ### Registers -/

def setDepth (depth : Nat) : Machine Unit :=
  modify fun x => { x with depth, depths := depth :: x.depths }

def setSource (source : Source) : Machine Unit := modify fun x => { x with source }

def setCallSite (callSite : Option Extent) : Machine Unit := modify fun x => { x with callSite }

/-- A step of an expansion that looks at no register. -/
def perform (step : Expansion α) : Expanding α := ExceptT.mk fun x =>
  match step x.run with
  | .ok a run => some (.ok a, { x with run })
  | .error d run => some (.error d, { x with run })

def modifyTables (f : Tables → Tables) : Expanding Unit :=
  modify fun x => { x with run := { x.run with tables := f x.run.tables } }

/-- The next unique name. What is returned is noted. -/
def nextUnique : Expanding String := do
  let name ← perform Expansion.nextUnique
  modify fun x => { x with given := x.given ++ [name] }
  return name

/-- Substitutes in an item of a macro that is called at `range`. The unique names are noted. -/
def substitute (s : Substitution) (range : Extent) (item : Item) : Expanding (Option Item) :=
  ExceptT.mk fun x =>
    let counted n := { x.run with tables := { x.run.tables with uniqueCount := n } }
    match item.note s (x.run.tables.uniqueCount, x.given) with
    | .ok i (n, given) => some (.ok i, { x with run := counted n, given })
    | .error fault (n, given) => some (.error ⟨fault, range⟩, { x with run := counted n, given })

def failAt (range : Extent) (fault : Fault) : Expanding α := throw ⟨fault, range⟩

def tables : Expanding Tables := return (← get).run.tables

/-- Adds a diagnostic about the text that the items come from. -/
def report (d : Diagnostic) : Machine Unit :=
  modify fun x => { x with run := { x.run with problems := x.run.problems ++ [⟨d, x.source⟩] } }

/-- Runs out of fuel. -/
def exhausted : Expanding α := ExceptT.mk fun _ => none

section Functions

variable (config : Config) (again : Item → Expanding (List Item))

/-! ### Items that no one has seen before -/

/-- An item by itself.  If it fails it is reported and gives nothing; only cancellation goes on to
stop the others. -/
def processAlone (item : Item) : Expanding (List Item) := ExceptT.mk do
  match ← ExceptT.run (again item) with
  | .ok produced => return .ok produced
  | .error d =>
    if d.fault = .cancelled then return .error d
    else
      report d
      return .ok []

/-- Items each by itself. -/
def processAll : List Item → Expanding (List Item)
  | [] => return []
  | i :: is => do
    let produced ← processAlone again i
    let rest ← processAll is
    return produced ++ rest

/-- The items of an included file.  The depth and the source are those of the file meanwhile. -/
def includeFile (range : Extent) (path : String) : Expanding (List Item) := ExceptT.mk do
  let x ← get
  if config.options.maxDepth ≤ x.depth then
    return .error ⟨.depthExceeded path config.options.maxDepth, range⟩
  else
    modify fun x => { x with run := { x.run with asked := path :: x.run.asked } }
    match config.resolver path with
    | none => return .error ⟨.includeNotFound path, range⟩
    | some text =>
      let parsed := Parsed.ofText config.vocabulary text
      let outer := x.source
      setSource (.included path (x.frame.directiveAt range))
      let _ ← ExceptT.run (perform (reportParsed config (x.frame.inFile path range) parsed))
      setDepth (x.depth + 1)
      let result ← ExceptT.run (processAll again parsed.items)
      setDepth ((← get).depth - 1)
      setSource outer
      match result with
      | .ok items => return .ok items
      | .error d => return .error (d.moveTo range)

/-- The items of the body of a macro, each substituted and then processed. -/
def processBody (range : Extent) (s : Substitution) : List Item → Expanding (List Item)
  | [] => return []
  | i :: is => do
    let produced ← match ← substitute s range i with
      | some item => again item
      | none => pure []
    let rest ← processBody range s is
    return produced ++ rest

/-- The body of a macro with a unique name of its own. -/
def freshBody (range : Extent) (bound : Bindings) (body : List Item) : Expanding (List Item) := do
  let unique ← nextUnique
  processBody again range ⟨bound, unique⟩ body

/-- The body of a macro that is called.  The depth and the call are those of the body meanwhile. -/
def callBody (range : Extent) (bound : Bindings) (body : List Item) :
    Expanding (List Item) := ExceptT.mk do
  let outer := (← get).callSite
  setDepth ((← get).depth + 1)
  setCallSite (outer.or (some range))
  let result ← ExceptT.run (freshBody again range bound body)
  setCallSite outer
  setDepth ((← get).depth - 1)
  match result with
  | .ok items => return .ok (items.map fun i => { i with range })
  | .error d => return .error (d.moveTo range)

/-! ### Calls and expressions -/

/-- The call of a macro with `count` arguments, which `bind` binds to its parameters. -/
def callWith (range : Extent) (name : String) (count : Nat)
    (bind : Signature → Expanding Bindings) : Expanding (List Item) := do
  match (← tables).macros.get? name with
  | none => failAt range (.unresolved name)
  | some entry =>
    if count ≠ entry.arity ∧ ¬(count = 0 ∧ entry.arity = 1) then
      failAt range (.arityMismatch name entry.arity count)
    else if config.options.maxDepth ≤ (← get).depth then
      failAt range (.depthExceeded name config.options.maxDepth)
    else
      let bound ← bind entry.signature
      callBody again range bound entry.body

/-- A macro in an expression has to expand to one expression. -/
def inlineWith (range : Extent) (name : String) (count : Nat)
    (bind : Signature → Expanding Bindings) : Expanding Expr := do
  match ← callWith config again range name count bind with
  | [⟨.expr e, _⟩] => return e.parenthesized
  | _ => failAt range (.argument (.notOneExpression name))

mutual

def expandExpr (range : Extent) : Expr → Expanding Expr
  | .literal value => return .literal value
  | .ident name => do
    if (← tables).macros.contains name then
      inlineWith config again range name 0 fun signature => return bindHoles signature.params []
    else return .ident name
  | .call name arguments place => do
    let macros := (← tables).macros
    if macros.contains name then
      inlineWith config again range name arguments.length fun signature =>
        bindArguments range signature.byReference signature.params [] arguments
    else if macros.isDeleted name then failAt range (.unresolved name)
    else return .call name (← expandArguments range arguments) place
  | .unary op operand => do return .unary op (← expandExpr range operand)
  | .binary op lhs rhs => do
    let l ← expandExpr range lhs
    let r ← expandExpr range rhs
    return .binary op l r
  | .paren inner => do return .paren (← expandExpr range inner)

def expandArguments (range : Extent) : List Argument → Expanding (List Argument)
  | [] => return []
  | a :: as => do
    let b ← expandArgument range a
    let bs ← expandArguments range as
    return b :: bs

/-- Binds arguments to parameters.  Those by reference are bound as they are. -/
def bindArguments (range : Extent) (byReference : Bool) (params : List MacroParam)
    (bound : Bindings) : List Argument → Expanding Bindings
  | [] => return bindHoles params bound
  | a :: as =>
    match params with
    | [] => return bound
    | p :: ps => do
      let b ← if byReference || p.byReference then pure a else expandArgument range a
      bindArguments range byReference ps (bindParam p b bound) as

def expandArgument (range : Extent) : Argument → Expanding Argument
  | .hole => return .hole
  | .expr e => do return .expr (← expandExpr range e)
  | .parameter p => do return .parameter (← expandParameter range p)
  | .equation e => do return .equation (← expandEquation range e)

def expandParameter (range : Extent) : Parameter → Expanding Parameter
  | ⟨refinement, name, value⟩ => do return ⟨refinement, name, ← expandValue range value⟩

def expandValue (range : Extent) : Value → Expanding Value
  | .absent => return .absent
  | .literal value => return .literal value
  | .equation e => do return .equation (← expandEquation range e)

def expandEquation (range : Extent) : Equation → Expanding Equation
  | ⟨op, body, uncertainty⟩ => do return ⟨op, ← expandExpr range body, uncertainty⟩

end

/-- The call of a macro. -/
def call (range : Extent) (name : String) (arguments : List Argument) : Expanding (List Item) :=
  callWith config again range name arguments.length fun signature =>
    bindArguments config again range signature.byReference signature.params [] arguments

def exprItem (range : Extent) (e : Expr) : Expanding (List Item) := do
  let macros := (← tables).macros
  let keep : Expanding (List Item) := do
    return [⟨.expr (← expandExpr config again range e), range⟩]
  match e with
  | .call name arguments _ =>
    if macros.contains name then call config again range name arguments else keep
  | .ident name =>
    if macros.contains name then
      callWith config again range name 0 fun signature => return bindHoles signature.params []
    else keep
  | _ => keep

/-- The number that an expression stands for, once it has been expanded. -/
def evaluate (range : Extent) (e : Expr) : Expanding Float := do
  let expanded ← expandExpr config again range e
  let t ← tables
  perform (liftFault range (expanded.evaluate t.valueOf?))

def holds (range : Extent) : Condition → Expanding Bool
  | .defined symbol negated => do return (← tables).isDefined symbol != negated
  | .expr e => do return (← evaluate config again range e) != 0.0
  | .argument param _ => failAt range (.unresolved param)

def siteStatement (range : Extent) : SiteStatement → Expanding SiteStatement
  | .coordinate axis value => do
    return .coordinate axis (← expandParameter config again range value)
  | .occupancy ⟨atom, value, modifiers⟩ => do
    let w ← expandParameter config again range value
    let ms ← modifiers.mapM fun m =>
      return { m with value := ← expandParameter config again range m.value }
    return .occupancy ⟨atom, w, ms⟩
  | .scalar word value => do return .scalar word (← expandParameter config again range value)
  | .adps values => do return .adps (← values.mapM (expandParameter config again range))

/-! ### Items -/

def directive (range : Extent) (d : Directive) : Expanding (List Item) := do
  let stay : List Item := [⟨.directive d, range⟩]
  match d with
  | .includeFile path => includeFile config again range path
  | .out e =>
    let value ← evaluate config again range e
    return [⟨.expr (.literal (.ofNumber value)), range⟩]
  | .define name =>
    modifyTables (·.define name)
    return stay
  | .undef name =>
    modifyTables (·.undef name)
    return stay
  | .deleteMacros names =>
    modifyTables (·.deleteMacros names)
    return stay
  | .prm name equation =>
    let value ← evaluate config again range equation.body
    modifyTables (·.setVariable name value)
    return stay
  | .seed => return stay

mutual

/-- One item.  Cancellation is noticed before it. -/
def processItem : Item → Expanding (List Item)
  | ⟨kind, range⟩ => do
    perform (checkCancelled config range)
    processKind range kind

def processKind (range : Extent) : ItemKind → Expanding (List Item)
  | .directive d => directive config again range d
  | .conditional _ chain => processChain range chain
  | .block items => processItems items
  | .expr e => exprItem config again range e
  | .bodyOp _ param => failAt range (.unresolved param)
  | .macroDecl isList signatures body => do
    modifyTables (·.registerMacros signatures body)
    return [⟨.macroDecl isList signatures body, range⟩]
  | .declaration scope p => do
    match p.name with
    | some name => modifyTables (·.declare name)
    | none => pure ()
    return [⟨.declaration scope (← expandParameter config again range p), range⟩]
  | .existing a => do
    if (← tables).isDeclared a.name then
      return [⟨.existing { a with equation := ← expandEquation config again range a.equation },
        range⟩]
    else failAt range (.unresolved a.name)
  | .site name members => do
    let ms ← processItems members
    return [⟨.site name ms, range⟩]
  | .siteStatement s => do return [⟨.siteStatement (← siteStatement config again range s), range⟩]
  | .keyword word none => return [⟨.keyword word none, range⟩]
  | .keyword word (some e) => do
    return [⟨.keyword word (some (← expandEquation config again range e)), range⟩]
  | .parameter p => do return [⟨.parameter (← expandParameter config again range p), range⟩]
  | .equation e => do return [⟨.equation (← expandEquation config again range e), range⟩]
  | .assignment name e => do
    return [⟨.assignment name (← expandEquation config again range e), range⟩]

/-- The items of the first branch whose condition holds. -/
def processChain (range : Extent) : Chain → Expanding (List Item)
  | .done => return []
  | .otherwise items => processItems items
  | .branch condition items rest => do
    if ← holds config again range condition then processItems items
    else processChain range rest

/-- Items one behind the other. The first fault ends them. -/
def processItems : List Item → Expanding (List Item)
  | [] => return []
  | i :: is => do
    let produced ← processItem i
    let rest ← processItems is
    return produced ++ rest

end

end Functions

/-- One item, with fuel for as many bodies and files inside each other. -/
def process (config : Config) : (fuel : Nat) → Item → Expanding (List Item)
  | 0, _ => exhausted
  | fuel + 1, item => processItem config (process config fuel) item

/-- The items of a text, and the report on it. -/
def root (config : Config) (fuel : Nat) (parsed : Parsed) : Expanding (List Item) := do
  perform (reportParsed config .root parsed)
  processAll (process config fuel) parsed.items

/-- Expands what was read from a text. -/
def expand (config : Config) (fuel : Nat) (parsed : Parsed) : Machine Document := do
  match ← ExceptT.run (root config fuel parsed) with
  | .ok items =>
    let r := (← get).run
    return ⟨items, r.problems, r.comments, r.tables⟩
  | .error d => return ⟨[], [⟨d, .root⟩], [], (← get).run.tables⟩

end Expander

end ControlFile
