import ControlFile.Proofs.Expansion.Tracking

/-!
# Expansion ends within its limit

Macros may call each other and files may include each other in circles; the machine does nothing
against it but to test its depth before it goes one level deeper.  `expansion_ends_within_limit`
says that this is enough: no run uses up more fuel than the limit allows, no depth above the limit
is ever set, and a call and an included file leave the registers as they found them, however they
end.
-/

namespace ControlFile.Expander

variable {config : Config}

/-- The registers of `y` are those of `x`. -/
def SameRegisters (x y : Expander) : Prop :=
  y.depth = x.depth ∧ y.source = x.source ∧ y.callSite = x.callSite

/-- The depths that were set between `x` and `y` are at most `limit`. -/
def SetWithin (limit : Nat) (x y : Expander) : Prop :=
  ∃ ds, y.depths = ds ++ x.depths ∧ ∀ d ∈ ds, d ≤ limit

/-- However much fuel there is above `limit`, the step ends in the same way, with the registers it
started with and within the limit. -/
def EndsWithin {α : Type} (limit : Nat) (m : (fuel : Nat) → Expanding α) (x : Expander) : Prop :=
  ∃ result run, ∀ fuel, limit < fuel → ∃ y, m fuel x = some (result, y) ∧ y.run = run ∧
    SameRegisters x y ∧ SetWithin limit x y

theorem EndsWithin.ofTracks {α : Type} {limit : Nat} {m : (fuel : Nat) → Expanding α}
    {e : Expansion α} {x : Expander}
    (h : ∀ fuel, limit < fuel → Tracks limit (limit - x.depth) x.frame (m fuel) e) :
    EndsWithin limit m x := by
  refine ⟨(outcome (e x.run)).1, (outcome (e x.run)).2, fun fuel hfuel => ?_⟩
  obtain ⟨y, hy, hrun, hkeeps⟩ := h fuel hfuel x rfl rfl
  exact ⟨y, hy, hrun, ⟨hkeeps.depth, hkeeps.source, hkeeps.callSite⟩, hkeeps.depths⟩

/-! ### Documents -/

/-- The items of a text, and the report on it, as steps of an expansion. -/
def rootExpansion (config : Config) (parsed : Parsed) : Expansion (List Item) := do
  Expansion.reportParsed config .root parsed
  Expansion.independently .root (Expansion.itemAt config config.options.maxDepth .root) parsed.items

/-- What a text becomes, if its expansion ends so. -/
def documentOf : EStateM.Result Diagnostic Run (List Item) → Document
  | .ok items r => ⟨items, r.problems, r.comments, r.tables⟩
  | .error d r => ⟨[], [⟨d, .root⟩], [], r.tables⟩

theorem ofParsed_eq (config : Config) (parsed : Parsed) :
    Document.ofParsed config parsed =
      documentOf (rootExpansion config parsed ⟨.empty, [], [], []⟩) := rfl

theorem tracks_root (config : Config) (parsed : Parsed) {fuel : Nat}
    (hfuel : config.options.maxDepth < fuel) :
    Tracks config.options.maxDepth config.options.maxDepth .root (root config fuel parsed)
      (rootExpansion config parsed) :=
  .bind (.perform fun _ => rfl) fun _ =>
    tracks_processAll (tracks_process config config.options.maxDepth fuel hfuel .root) parsed.items

/-- What a run of the whole machine gives and leaves behind, from any tables. -/
theorem expand_keeps (config : Config) (parsed : Parsed) (run : Run) {fuel : Nat}
    (hfuel : config.options.maxDepth < fuel) :
    ∃ y, expand config fuel parsed (start run) =
        some (documentOf (rootExpansion config parsed run), y) ∧
      Keeps config.options.maxDepth (start run) y ∧
      y.run.tables = (documentOf (rootExpansion config parsed run)).tables := by
  obtain ⟨y, hy, hrun, hkeeps⟩ := tracks_root config parsed hfuel (start run) rfl rfl
  have hstart : (start run).run = run := rfl
  rw [hstart] at hy hrun
  cases he : rootExpansion config parsed run with
  | ok items r =>
    rw [he] at hy hrun
    subst hrun
    refine ⟨y, ?_, hkeeps, rfl⟩
    change (root config fuel parsed (start run)).bind _ = _
    rw [hy]
    rfl
  | error d r =>
    rw [he] at hy hrun
    subst hrun
    refine ⟨y, ?_, hkeeps, rfl⟩
    change (root config fuel parsed (start run)).bind _ = _
    rw [hy]
    rfl

/-- A run of the whole machine, from any tables. -/
theorem expand_eq (config : Config) (parsed : Parsed) (run : Run) {fuel : Nat}
    (hfuel : config.options.maxDepth < fuel) :
    ∃ y, expand config fuel parsed (start run) =
        some (documentOf (rootExpansion config parsed run), y) ∧
      SameRegisters (start run) y ∧ SetWithin config.options.maxDepth (start run) y := by
  obtain ⟨y, hy, hkeeps, -⟩ := expand_keeps config parsed run hfuel
  exact ⟨y, hy, ⟨hkeeps.depth, hkeeps.source, hkeeps.callSite⟩, hkeeps.depths⟩

/-- **Expansion ends within its limit.** For all items, all tables, all files that include each
other, and every limit: with any fuel above the limit the machine ends, and what it makes of a text
is the document of that text; every depth it sets on the way is at most the limit; and a call of a
macro and an included file end in every state of the machine, with a result or a fault, and with the
registers they started with. -/
theorem expansion_ends_within_limit (config : Config) :
    (∀ parsed run, ∃ document, ∀ fuel, config.options.maxDepth < fuel →
      ∃ y, expand config fuel parsed (start run) = some (document, y) ∧
        (run = ⟨.empty, [], [], []⟩ → document = Document.ofParsed config parsed) ∧
        SameRegisters (start run) y ∧ SetWithin config.options.maxDepth (start run) y) ∧
    (∀ range name arguments x, EndsWithin config.options.maxDepth
      (fun fuel => call config (process config fuel) range name arguments) x) ∧
    (∀ range path x, EndsWithin config.options.maxDepth
      (fun fuel => includeFile config (process config fuel) range path) x) := by
  refine ⟨?_, ?_, ?_⟩
  · intro parsed run
    refine ⟨documentOf (rootExpansion config parsed run), fun fuel hfuel => ?_⟩
    obtain ⟨y, hy, hregisters, hdepths⟩ := expand_eq config parsed run hfuel
    refine ⟨y, hy, ?_, hregisters, hdepths⟩
    rintro rfl
    rfl
  · intro range name arguments x
    refine .ofTracks fun fuel hfuel => tracks_call ?_ range name arguments
    exact tracksBelow_process config (by omega)
  · intro range path x
    refine .ofTracks fun fuel hfuel => tracks_includeFile ?_ range path
    exact tracksBelow_process config (by omega)

end ControlFile.Expander
