import ControlFile.Proofs.Expansion.Cancellation

/-!
# The limit only cuts off

A call or an included file at the limit fails, and nothing hides that: the failure goes up to the item
of the text that it happened in, and is reported there.  So as long as no such problem is reported the
limit has not been looked at, and a higher one gives the same document (`Session.parse_eq_of_limit`).
-/

namespace ControlFile

/-- With another limit of the depth. -/
def Config.withLimit (limit : Nat) (config : Config) : Config :=
  { config with options := { config.options with maxDepth := limit } }

theorem Config.vocabulary_withLimit (limit : Nat) (config : Config) :
    (config.withLimit limit).vocabulary = config.vocabulary := rfl

/-- With another limit of the depth. -/
def Session.withLimit (limit : Nat) (s : Session) : Session :=
  s.withOptions { s.options with maxDepth := limit }

/-- Whether the fault is that the depth has reached its limit. -/
def Fault.IsDepthExceeded (fault : Fault) : Prop := fault.kind = .depthExceeded

namespace Expansion

/-- What comes after a failure at the limit does not matter.  Nothing takes back that it is reported. -/
def atLimit : Parting where
  AtFault := Fault.IsDepthExceeded
  InRun r := ∃ p ∈ r.problems, p.diagnostic.fault.IsDepthExceeded
  grows hproblems _ := fun ⟨p, hp, hdepth⟩ => ⟨p, hproblems hp, hdepth⟩
  reported {d} h _ frame _ := ⟨⟨d, frame.source⟩, by simp [Run.reporting], h⟩

/-- Where the first expansion reaches the limit, the second one may do anything. -/
theorem eqUntil_depthExceeded {α : Type} (range : Extent) (name : String) (limit : Nat)
    (e : Expansion α) : EqUntil atLimit (failAt range (.depthExceeded name limit)) e :=
  .of_reached fun _ => .inl rfl

/-- An expansion beside one with another limit. -/
def limitSimulation (config : Config) (limit : Nat) : Simulation config (config.withLimit limit) :=
  atLimit.simulation rfl rfl (fun range => .checkCancelled config range)
    (fun path => .ask config path) fun range name => eqUntil_depthExceeded range name _ _

end Expansion

open Expander (rootExpansion documentOf)

/-- **The limit only cuts off.**  If a text is expanded without anyone to cancel it, and it is not
reported anywhere that the limit of the depth has been reached, then every higher limit gives the same
document: items, problems with their sources, comments and tables. -/
theorem Session.parse_eq_of_limit (s : Session) (text : String) (limit : Nat) (hwatch : s.watch = none)
    (hlimit : s.options.maxDepth ≤ limit)
    (h : ∀ p ∈ (s.parse text).problems, p.diagnostic.fault.kind ≠ .depthExceeded) :
    (s.withLimit limit).parse text = s.parse text := by
  let parsed := Parsed.ofText s.vocabulary text
  have hnever : s.config.watch = .never := by
    rw [config, hwatch]
    rfl
  have hsim : Expansion.EqUntil Expansion.atLimit (rootExpansion s.config parsed)
      (rootExpansion (s.config.withLimit limit) parsed) :=
    (Expansion.limitSimulation s.config limit).rel_rootExpansion parsed fun i =>
      (Expansion.limitSimulation s.config limit).rel_itemAt_of_le
        (fun range name e => Expansion.eqUntil_depthExceeded range name _ e) hlimit rfl i
  obtain ⟨items, r, hrun⟩ := Expansion.rootExpansion_ok hnever parsed ⟨.empty, [], [], []⟩
  have hdocument : s.parse text = ⟨items, r.problems, r.comments, r.tables⟩ :=
    congrArg documentOf hrun
  rcases hsim.eq ⟨.empty, [], [], []⟩ with hcut | heq
  · rw [hrun] at hcut
    obtain ⟨p, hp, hdepth⟩ := hcut
    exact absurd hdepth (h p (by rw [hdocument]; exact hp))
  · exact congrArg documentOf heq

/-- A macro that calls another one needs two levels; a problem of another kind does not matter. -/
theorem Session.parse_eq_of_limit_two :
    let s := Session.standard.withLimit 2
    let text := "macro foo \x7b = 1; \x7d macro bar \x7b foo \x7d bar existing_prm z = 1;"
    s.watch = none ∧ s.options.maxDepth ≤ 7 ∧
      (∀ p ∈ (s.parse text).problems, p.diagnostic.fault.kind ≠ .depthExceeded) ∧
      (s.parse text).problems.map (·.diagnostic.fault.kind) = [.unresolved] ∧
      ((s.withLimit 1).parse text).problems.map (·.diagnostic.fault.kind) =
        [.depthExceeded, .unresolved] ∧
      (s.withLimit 7).parse text = s.parse text := by
  intro s text
  have hkinds : (s.parse text).problems.map (·.diagnostic.fault.kind) = [.unresolved] := by
    decide +kernel
  have h : ∀ p ∈ (s.parse text).problems, p.diagnostic.fault.kind ≠ .depthExceeded := by
    intro p hp
    have hmem := List.mem_map_of_mem (f := fun p : Problem => p.diagnostic.fault.kind) hp
    rw [hkinds, List.mem_singleton] at hmem
    simp [hmem]
  exact ⟨rfl, by decide, h, hkinds, by decide +kernel,
    Session.parse_eq_of_limit s text 7 rfl (by decide) h⟩

end ControlFile
