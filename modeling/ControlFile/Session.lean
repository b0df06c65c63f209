import ControlFile.Document
import ControlFile.Vocabulary.Standard

/-!
# Sessions

A `Session` holds what is the same for several texts.  Every text is expanded with empty tables: no
text changes what another one becomes.
-/

namespace ControlFile

/-- What several texts are read with.  Only a watched session can be cancelled. -/
structure Session where
  options : Options
  vocabulary : Vocabulary
  resolver : Resolver
  watch : Option Watch

namespace Session

/-- The standard vocabulary, no included files, and no one to cancel. -/
def standard : Session := ⟨{}, .standard, .nothing, none⟩

def withOptions (options : Options) (s : Session) : Session := { s with options }

def withVocabulary (vocabulary : Vocabulary) (s : Session) : Session := { s with vocabulary }

def withResolver (resolver : Resolver) (s : Session) : Session := { s with resolver }

/-- Watched by someone who has not cancelled it yet. -/
def watched (s : Session) : Session := { s with watch := some .never }

/-- Watched by someone who cancels a run when it asks for `path`. -/
def cancelledOn (path : String) (s : Session) : Session := { s with watch := some (.onPath path) }

/-- Cancelled, if it is watched. -/
def cancelled (s : Session) : Session := { s with watch := s.watch.map fun _ => .always }

def config (s : Session) : Config where
  options := s.options
  vocabulary := s.vocabulary
  resolver := s.resolver
  watch := s.watch.getD .never

/-- Reads and expands a text. -/
def parse (s : Session) (text : String) : Document := Document.ofText s.config text

end Session

end ControlFile
