import ControlFile.Proofs.Expansion.Parting
import ControlFile.Proofs.Expansion.Placement

/-!
# Cancellation is all or nothing

Whether a run has been cancelled is asked before each item, at every depth.  The answer makes no
difference until it is yes; then the step fails, and so does every step around it, whatever else it
does with failures.  So a run that is watched either is the run that is not, or it ends with nothing
but the cancellation (`Session.parse_eq_or_cancelled`).

A run that is not watched never fails as a whole (`rootExpansion_ok`).
-/

namespace ControlFile

namespace Expansion

open Expander (rootExpansion)

variable {α β : Type} {config : Config}

/-- Whether a run that is not watched has been cancelled makes no difference. -/
theorem checkCancelled_never (hwatch : config.watch = .never) (range : Extent) :
    checkCancelled config range = Pure.pure () := funext (checkCancelled_eq hwatch range)

/-! ### Runs that are not watched -/

/-- The step does not fail because of cancellation. -/
def NeverCancelled (e : Expansion α) : Prop := ∀ r d r', e r = .error d r' → d.fault ≠ .cancelled

namespace NeverCancelled

theorem of_ok {e : Expansion α} (h : ∀ r, ∃ a r', e r = .ok a r') : NeverCancelled e := by
  intro r d r' hrun
  obtain ⟨a, r'', hok⟩ := h r
  rw [hok] at hrun
  cases hrun

theorem onTables {f : Tables → EStateM.Result Diagnostic Tables α} (h : Uncancelled f) :
    NeverCancelled (onTables f) := by
  intro r d r' hrun
  unfold Expansion.onTables at hrun
  cases hf : f r.tables with
  | ok a t =>
    rw [hf] at hrun
    cases hrun
  | error d t =>
    rw [hf] at hrun
    cases hrun
    exact h _ d t hf

theorem bind {e : Expansion α} {f : α → Expansion β} (h : NeverCancelled e)
    (hf : ∀ a, NeverCancelled (f a)) : NeverCancelled (e >>= f) := by
  intro r d r' hrun
  cases he : e r with
  | ok a r₁ =>
    rw [bind_of_ok he] at hrun
    exact hf a r₁ d r' hrun
  | error d₁ r₁ =>
    rw [bind_of_error he] at hrun
    cases hrun
    exact h r d r' he

theorem relocating {range : Extent} {e : Expansion α} (h : NeverCancelled e) :
    NeverCancelled (relocating range e) := by
  intro r d r' hrun
  unfold Expansion.relocating at hrun
  cases he : e r with
  | ok a r₁ =>
    rw [he] at hrun
    cases hrun
  | error d₁ r₁ =>
    rw [he] at hrun
    cases hrun
    exact h r d₁ r' he

theorem alone {frame : Frame} {e : Expansion (List Item)} (h : NeverCancelled e) :
    NeverCancelled (alone frame e) := by
  intro r d r' hrun
  unfold Expansion.alone at hrun
  cases he : e r with
  | ok items r₁ =>
    rw [he] at hrun
    cases hrun
  | error d₁ r₁ =>
    simp only [he, if_neg (h r d₁ r₁ he)] at hrun
    cases hrun

end NeverCancelled

/-- Without a watch no step fails because of cancellation. -/
def unwatchedSimulation (hwatch : config.watch = .never) : Simulation config config where
  Rel e _ := NeverCancelled e
  Frames _ _ := True
  vocabulary := rfl
  root := trivial
  inCall _ _ := trivial
  inFile _ _ _ := trivial
  onTables _ h := .onTables h
  bind h hf := .bind h hf
  checkCancelled range := by
    rw [checkCancelled_never hwatch]
    exact .of_ok fun r => ⟨(), r, rfl⟩
  ask path := .of_ok fun _ => ⟨_, _, rfl⟩
  reportParsed _ _ := .of_ok fun _ => ⟨_, _, rfl⟩
  depthExceeded _ _ := by
    rintro r _ _ ⟨⟩
    simp
  relocating _ h := h.relocating
  alone _ he := he.alone

/-- Only cancellation ends a row of items. -/
theorem cancelled_of_independently {frame : Frame} {one : Item → Expansion (List Item)}
    {is : List Item} {r r' : Run} {d : Diagnostic} (h : independently frame one is r = .error d r') :
    d.fault = .cancelled := by
  induction is generalizing r with
  | nil => cases h
  | cons i is ih =>
    rw [independently_cons] at h
    cases hi : alone frame (one i) r with
    | error d₁ r₁ =>
      rw [bind_of_error hi] at h
      cases h
      unfold alone at hi
      cases hone : one i r with
      | ok items r₂ =>
        rw [hone] at hi
        cases hi
      | error d₂ r₂ =>
        by_cases hd : d₂.fault = .cancelled
        · simp only [hone, if_pos hd] at hi
          cases hi
          exact hd
        · simp only [hone, if_neg hd] at hi
          cases hi
    | ok items r₁ =>
      rw [bind_of_ok hi] at h
      cases hrest : independently frame one is r₁ with
      | error d₂ r₂ =>
        rw [bind_of_error hrest] at h
        cases h
        exact ih hrest
      | ok rest r₂ =>
        rw [bind_of_ok hrest] at h
        cases h

/-- **A run that is not watched does not fail.** -/
theorem rootExpansion_ok (hwatch : config.watch = .never) (parsed : Parsed) (r : Run) :
    ∃ items r', rootExpansion config parsed r = .ok items r' := by
  have hnever : NeverCancelled (rootExpansion config parsed) :=
    (unwatchedSimulation hwatch).rel_rootExpansion parsed fun i =>
      (unwatchedSimulation hwatch).rel_itemAt _ trivial i
  cases hrun : rootExpansion config parsed r with
  | ok items r' => exact ⟨items, r', rfl⟩
  | error d r' =>
    have hitems : independently .root (itemAt config config.options.maxDepth .root) parsed.items
        _ = .error d r' := hrun
    exact absurd (cancelled_of_independently hitems) (hnever r d r' hrun)

/-! ### Runs that are watched -/

/-- What comes after a cancellation does not matter. -/
def atCancellation : Parting where
  AtFault fault := fault = .cancelled
  InRun _ := False
  grows _ _ h := h
  reported h hd _ _ := hd h

theorem eqUntil_checkCancelled (config : Config) (range : Extent) :
    EqUntil atCancellation (checkCancelled config range)
      (checkCancelled { config with watch := .never } range) := by
  refine ⟨fun _ h => h.elim, fun r => ?_⟩
  have hnever : ({ config with watch := .never } : Config).watch = .never := rfl
  have hstep : checkCancelled config range r = (if config.watch.cancelled r.asked = true then
    failAt range .cancelled else Pure.pure () : Expansion Unit) r := rfl
  rw [checkCancelled_never hnever, hstep]
  by_cases h : config.watch.cancelled r.asked = true
  · rw [if_pos h]
    exact .inl (.inl rfl)
  · rw [if_neg h]
    exact .inr rfl

/-- A watched expansion beside the one that is not watched. -/
def watchedSimulation (config : Config) : Simulation config { config with watch := .never } :=
  atCancellation.simulation rfl rfl (eqUntil_checkCancelled config)
    (fun path => .ask config path) fun range _ => .failAt range _

end Expansion

open Expander (rootExpansion documentOf ofParsed_eq)

/-- **Cancellation is all or nothing.**  Whenever a session is cancelled while it expands a text, be
it before the first item or while it asks for a path, its document is either the one that it gives
without a watch, or it has no items, no comments, and a single problem: that the run was cancelled,
in the root text. -/
theorem Session.parse_eq_or_cancelled (s : Session) (watch : Watch) (text : String) :
    ({ s with watch := some watch }).parse text = ({ s with watch := none }).parse text ∨
      ∃ range tables,
        ({ s with watch := some watch }).parse text =
          ⟨[], [⟨⟨.cancelled, range⟩, .root⟩], [], tables⟩ ∧
        range.Inside (byteLength text.toList) := by
  let watched : Session := { s with watch := some watch }
  let parsed := Parsed.ofText s.vocabulary text
  have hsim : Expansion.EqUntil Expansion.atCancellation (rootExpansion watched.config parsed)
      (rootExpansion { watched.config with watch := .never } parsed) :=
    (Expansion.watchedSimulation watched.config).rel_rootExpansion parsed fun i =>
      (Expansion.watchedSimulation watched.config).rel_itemAt _ rfl i
  rcases hsim.eq ⟨.empty, [], [], []⟩ with hreached | heq
  · right
    cases hrun : rootExpansion watched.config parsed ⟨.empty, [], [], []⟩ with
    | ok items r =>
      rw [hrun] at hreached
      exact hreached.elim
    | error d r =>
      rw [hrun] at hreached
      have hdocument : watched.parse text = ⟨[], [⟨d, .root⟩], [], r.tables⟩ :=
        congrArg documentOf hrun
      have hplaced : Problem.Placed s.resolver text ⟨d, .root⟩ :=
        watched.placed_of_mem text (by simp [hdocument])
      obtain ⟨fault, range⟩ := d
      obtain rfl : fault = .cancelled := hreached.resolve_right id
      exact ⟨range, r.tables, hdocument, hplaced⟩
  · exact .inl (congrArg documentOf heq.symm)

/-- A run that is cancelled while it asks for a file has expanded an item already, and the document does
not have it. -/
example :
    let s := Session.standard.withResolver (.ofFiles [("f", "prm y 2")])
    let text := "prm x 1 #include \"f\" prm z 3"
    let d := (s.cancelledOn "f").parse text
    (s.parse text).items.length = 3 ∧ d.items = [] ∧
      d.problems.map (fun p => (p.diagnostic.fault, p.source)) = [(.cancelled, .root)] := by
  decide +kernel

end ControlFile
