import ControlFile.Include
import ControlFile.Item.Parser
import ControlFile.Macro.Substitution

/-!
# Running an expansion

An expansion walks through the items of a text in order.  It changes the tables, and replaces
macros, conditionals and included files by the items they stand for.

* `Config` is what it is given: options, a vocabulary, the texts of included files, and when it is
  cancelled.
* `Run` is what changes on the way.
* `Frame` says in which text the items stand, and from which call of the root text they come.

Cancellation is seen from outside the run, and all that is seen of a run from outside are the
paths that it asks for.  So the time of cancellation is a set of such histories.
-/

namespace ControlFile

/-- Options of an expansion. -/
structure Options where
  maxDepth : Nat := 256
  collectComments : Bool := true
deriving DecidableEq, Inhabited

/-- When a run is cancelled.  `cancelled asked` says whether it is once the paths `asked`, the
latest first, have been asked for. -/
structure Watch where
  cancelled : List String → Bool

namespace Watch

/-- Never. -/
def never : Watch := ⟨fun _ => false⟩

/-- Before the run. -/
def always : Watch := ⟨fun _ => true⟩

/-- When a path is asked for. -/
def onPath (path : String) : Watch := ⟨fun asked => asked.contains path⟩

end Watch

/-- What an expansion is given. -/
structure Config where
  options : Options
  vocabulary : Vocabulary
  resolver : Resolver
  watch : Watch

/-- Which text a diagnostic is about: the root, or an included file together with the place in the
root text that led to it. -/
inductive Source
  | root
  | included (path : String) (directive : Extent)
deriving DecidableEq, Inhabited

/-- A diagnostic and the text that it is about. -/
structure Problem where
  diagnostic : Diagnostic
  source : Source
deriving DecidableEq, Inhabited

/-- What changes while an expansion runs. -/
structure Run where
  tables : Tables
  asked : List String
  problems : List Problem
  comments : List Comment
deriving Inhabited

/-- Where items come from: their text, and the outermost call that led to them. -/
structure Frame where
  source : Source
  callSite : Option Extent
deriving DecidableEq, Inhabited

namespace Frame

/-- The items of the root text. -/
def root : Frame := ⟨.root, none⟩

/-- Inside a macro called at `range`. -/
def inCall (frame : Frame) (range : Extent) : Frame :=
  { frame with callSite := frame.callSite.or (some range) }

/-- The place in the root text that leads to a file included at `range`. -/
def directiveAt (frame : Frame) (range : Extent) : Extent :=
  match frame.source with
  | .root => frame.callSite.getD range
  | .included _ directive => directive

/-- Inside a file included at `range`. -/
def inFile (frame : Frame) (path : String) (range : Extent) : Frame :=
  { frame with source := .included path (frame.directiveAt range) }

end Frame

/-- A step of an expansion. It may fail; what it has changed stays changed. -/
abbrev Expansion := EStateM Diagnostic Run

namespace Expansion

variable {α : Type}

def failAt (range : Extent) (fault : Fault) : Expansion α := throw ⟨fault, range⟩

/-- Fails at `range` if there is a fault. -/
def liftFault (range : Extent) : Except Fault α → Expansion α
  | .ok a => pure a
  | .error fault => failAt range fault

def tables : Expansion Tables := return (← get).tables

def modifyTables (f : Tables → Tables) : Expansion Unit :=
  modify fun r => { r with tables := f r.tables }

/-- Adds a diagnostic about the text of `frame`. -/
def report (frame : Frame) (d : Diagnostic) : Expansion Unit :=
  modify fun r => { r with problems := r.problems ++ [⟨d, frame.source⟩] }

/-- Adds diagnostics about the text of `frame`, and comments if they are wanted. -/
def reportParsed (config : Config) (frame : Frame) (parsed : Parsed) : Expansion Unit :=
  modify fun r =>
    { r with
      problems := r.problems ++ parsed.diagnostics.map (⟨·, frame.source⟩)
      comments :=
        if config.options.collectComments then r.comments ++ parsed.comments else r.comments }

/-- The text of a path.  That it was asked for is noted. -/
def ask (config : Config) (path : String) : Expansion (Option String) := do
  modify fun r => { r with asked := path :: r.asked }
  return config.resolver path

/-- Fails at `range` if the run has been cancelled. -/
def checkCancelled (config : Config) (range : Extent) : Expansion Unit := do
  if config.watch.cancelled (← get).asked then failAt range .cancelled

/-- What fails in `step` fails at `range` instead. -/
def relocating (range : Extent) (step : Expansion α) : Expansion α := fun r =>
  match step r with
  | .ok a r' => .ok a r'
  | .error d r' => .error (d.moveTo range) r'

/-- Runs `one` on each item.  An item that fails is reported and gives nothing; only cancellation
stops the others. -/
def independently (frame : Frame) (one : Item → Expansion (List Item)) :
    List Item → Expansion (List Item)
  | [] => return []
  | i :: is => do
    let produced ← (fun r =>
      match one i r with
      | .ok items r' => .ok items r'
      | .error d r' => if d.fault = .cancelled then .error d r' else (do report frame d; return []) r')
    let rest ← independently frame one is
    return produced ++ rest

/-- Substitutes in an item of a macro that is called at `range`. -/
def substitute (s : Substitution) (range : Extent) (item : Item) : Expansion (Option Item) := fun r =>
  match item.substitute s r.tables.uniqueCount with
  | .ok i n => .ok i { r with tables := { r.tables with uniqueCount := n } }
  | .error fault n => .error ⟨fault, range⟩ { r with tables := { r.tables with uniqueCount := n } }

/-- The next unique name. -/
def nextUnique : Expansion String := fun r =>
  let (name, tables) := r.tables.nextUnique
  .ok name { r with tables }

end Expansion

end ControlFile
