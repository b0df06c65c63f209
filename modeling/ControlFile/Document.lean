import ControlFile.Expansion.Item
import ControlFile.Text.LineMap

/-!
# Expanded documents

A `Document` is what a text becomes: the items that are left, what was found to be wrong, the
comments, and the tables as they stood at the end.  A run that was cancelled leaves no items and no
comments, and nothing but the cancellation to report.
-/

namespace ControlFile

/-- A text, read and expanded. -/
structure Document where
  items : List Item
  problems : List Problem
  comments : List Comment
  tables : Tables
deriving Inhabited

namespace Document

/-- Expands what was read from a text. -/
def ofParsed (config : Config) (parsed : Parsed) : Document :=
  let one := Expansion.itemAt config config.options.maxDepth .root
  let expansion : Expansion (List Item) := do
    Expansion.reportParsed config .root parsed
    Expansion.independently .root one parsed.items
  match expansion ⟨.empty, [], [], []⟩ with
  | .ok items r => ⟨items, r.problems, r.comments, r.tables⟩
  | .error d r => ⟨[], [⟨d, .root⟩], [], r.tables⟩

/-- Reads and expands a text. -/
def ofText (config : Config) (text : String) : Document :=
  ofParsed config (Parsed.ofText config.vocabulary text)

/-- Nothing was found to be wrong. -/
def isOk (d : Document) : Bool := d.problems.isEmpty

def render (d : Document) : String := renderItems d.items

end Document

/-- Where in the root text a problem is shown: at its own place, or at the directive that led to
the file it is in. -/
def Problem.rootRange (p : Problem) : Extent :=
  match p.source with
  | .root => p.diagnostic.range
  | .included _ directive => directive

/-- The span of a problem in the root text. -/
def Problem.span (text : String) (p : Problem) : Span :=
  (LineMap.ofText text).span (p.rootRange.clamp (byteLength text.toList))

end ControlFile
