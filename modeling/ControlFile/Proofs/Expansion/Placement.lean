import ControlFile.Proofs.Expansion.Growth
import ControlFile.Proofs.Expansion.Termination
import ControlFile.Session

/-!
# Problems point into the texts they name

A problem of a document names the text that it is about.  For the root text its place lies there.  For
an included file its place lies in the text of that file, and the place of the directive, from which
the file was reached, in the root text: it is a call of a macro or an `#include` of the root text, no
matter in which file the macro was declared and how many files are in between.

So the place that is shown in the root text never has to be cut (`Problem.Placed.span_eq`).
-/

namespace ControlFile

open Expander (rootExpansion documentOf ofParsed_eq)

/-- The problem lies in the text that it names, and where it is shown lies in the root text. -/
def Problem.Placed (resolver : Resolver) (root : String) (p : Problem) : Prop :=
  match p.source with
  | .root => p.diagnostic.range.Inside (byteLength root.toList)
  | .included path directive =>
    directive.Inside (byteLength root.toList) ∧
      ∃ text, resolver path = some text ∧ p.diagnostic.range.Inside (byteLength text.toList)

namespace Problem.Placed

variable {resolver : Resolver} {root : String} {p : Problem}

theorem rootRange_inside (h : p.Placed resolver root) :
    p.rootRange.Inside (byteLength root.toList) := by
  obtain ⟨d, source⟩ := p
  cases source with
  | root => exact h
  | included path directive => exact h.1

/-- Nothing is cut off where the problem is shown. -/
theorem span_eq (h : p.Placed resolver root) :
    p.span root = (LineMap.ofText root).span p.rootRange := by
  rw [Problem.span, h.rootRange_inside.clamp]

end Problem.Placed

theorem goodFiles_placed (config : Config) (root : String) :
    Expansion.GoodFiles config (Extent.Inside (byteLength root.toList))
      (Problem.Placed config.resolver root) :=
  fun _ text _ _ htext hdirective hd => ⟨hdirective, text, htext, hd⟩

/-- In the root text every place leads to itself. -/
theorem anchored_root (P : Extent → Prop) : Expansion.Anchored P P .root := fun _ h => h

theorem yields_rootExpansion (config : Config) (text : String) :
    Expansion.Yields (Problem.Placed config.resolver text)
      (Extent.Inside (byteLength text.toList))
      (rootExpansion config (Parsed.ofText config.vocabulary text)) :=
  .bind (.reportParsed (Parsed.diagnostics_inside config.vocabulary text)) fun _ =>
    Expansion.yields_independently (fun _ hd => hd) fun i hi =>
      Expansion.yields_itemAt (goodFiles_placed config text) config.options.maxDepth
        (anchored_root _) i (Parsed.items_inside config.vocabulary text i hi)

theorem Session.placed_of_mem (s : Session) (text : String) {p : Problem}
    (hp : p ∈ (s.parse text).problems) : p.Placed s.resolver text := by
  rw [Session.parse, Document.ofText, ofParsed_eq] at hp
  have h := yields_rootExpansion s.config text ⟨.empty, [], [], []⟩
  cases hrun : rootExpansion s.config (Parsed.ofText s.config.vocabulary text)
      ⟨.empty, [], [], []⟩ with
  | ok items r =>
    rw [hrun] at h hp
    obtain ⟨ps, hps, hgood⟩ := h.problems
    exact hgood p (by simpa [documentOf, hps] using hp)
  | error d r =>
    rw [hrun] at h hp
    obtain rfl : p = ⟨d, .root⟩ := by simpa [documentOf] using hp
    exact h.1

/-- **Every problem points into the text that it names.**  For every session and every text: there
are as many sources as diagnostics; the place of each diagnostic lies in the text that its source
names, which is the root text or what the resolver gives for the path; the directive that led to an
included file lies in the root text; and nothing is cut off where the problem is shown. -/
theorem Session.problems_placed (s : Session) (text : String) :
    ((s.parse text).problems.map (·.diagnostic)).length =
        ((s.parse text).problems.map (·.source)).length ∧
      ∀ p ∈ (s.parse text).problems, p.Placed s.resolver text ∧
        p.span text = (LineMap.ofText text).span p.rootRange := by
  refine ⟨by simp, fun p hp => ?_⟩
  have hplaced := s.placed_of_mem text hp
  exact ⟨hplaced, hplaced.span_eq⟩

/-- A problem of an included file: its place lies behind the end of the root text, and it is shown at the
directive. -/
example :
    let s := Session.standard.withResolver (.ofFiles [("f", "\n\nprm length 1 existing_prm width = 2;")])
    let text := "prm x 1 #include \"f\""
    (s.parse text).problems.map (fun p => (p.source, p.diagnostic.range, p.span text)) =
      [(.included "f" ⟨8, 20⟩, ⟨15, 38⟩, ⟨⟨0, 8⟩, ⟨0, 20⟩⟩)] := by decide +kernel

end ControlFile
