import ControlFile.Proofs.Expansion.Idempotence
import ControlFile.Proofs.Expansion.Parting

/-!
# The texts that are asked for

An expansion knows of included files what it gets when it asks for their paths.  The texts of all other
paths have no influence on the document (`Session.parse_withResolver`).
-/

namespace ControlFile

namespace Expansion

variable {config : Config} {resolver : Resolver}

/-- What comes after a path that has another text does not matter. -/
def atPath (config : Config) (resolver : Resolver) : Parting where
  AtFault _ := False
  InRun r := ∃ path ∈ r.asked, resolver path ≠ config.resolver path
  grows _ hasked := fun ⟨path, hpath, hne⟩ => ⟨path, hasked hpath, hne⟩
  reported h _ _ _ := h.elim

theorem eqUntil_ask (path : String) :
    EqUntil (atPath config resolver) (ask config path) (ask { config with resolver } path) := by
  have hkeeps := (EqUntil.ask (p := atPath config resolver) config path).keeps
  refine ⟨hkeeps, fun r => ?_⟩
  by_cases h : resolver path = config.resolver path
  · right
    change EStateM.Result.ok (resolver path) _ = _
    rw [h]
    rfl
  · exact .inl ⟨path, List.mem_cons_self, h⟩

/-- An expansion beside one with other included files. -/
def resolverSimulation (config : Config) (resolver : Resolver) :
    Simulation config { config with resolver } :=
  (atPath config resolver).simulation rfl rfl (fun range => .checkCancelled config range) eqUntil_ask
    fun range _ => .failAt range _

end Expansion

open Expander (rootExpansion documentOf outcome)

/-- **Only the texts that are asked for have an influence.**  If two resolvers give the same for all
paths that are asked for with the first one, the documents are the same. -/
theorem Session.parse_withResolver (s : Session) (resolver : Resolver) (text : String)
    (h : ∀ path ∈ s.asked text, resolver path = s.resolver path) :
    (s.withResolver resolver).parse text = s.parse text := by
  let parsed := Parsed.ofText s.vocabulary text
  have hsim : Expansion.EqUntil (Expansion.atPath s.config resolver) (rootExpansion s.config parsed)
      (rootExpansion { s.config with resolver } parsed) :=
    (Expansion.resolverSimulation s.config resolver).rel_rootExpansion parsed fun i =>
      (Expansion.resolverSimulation s.config resolver).rel_itemAt _ rfl i
  rcases hsim.eq ⟨.empty, [], [], []⟩ with hreached | heq
  · have hasked : ∃ path ∈ s.asked text, resolver path ≠ s.resolver path := by
      unfold Session.asked
      change ∃ path ∈ (outcome (rootExpansion s.config parsed ⟨.empty, [], [], []⟩)).2.asked, _
      cases hrun : rootExpansion s.config parsed ⟨.empty, [], [], []⟩ with
      | ok items r =>
        rw [hrun] at hreached
        exact hreached
      | error d r =>
        rw [hrun] at hreached
        exact hreached.resolve_left id
    obtain ⟨path, hpath, hne⟩ := hasked
    exact absurd (h path hpath) hne
  · exact congrArg documentOf heq

end ControlFile
