import ControlFile.Proofs.Expansion.Obedience
import ControlFile.Proofs.Macro.Spelling

/-!
# Fresh names

Every expansion of a macro is given a unique name of its own, and more are given out for the arguments
that are made names.  The expander notes each of them as it is returned (`Session.givenNames`), and no two
are the same.

With the names of any `Spelling` as what is demanded, every name under which a variable is declared, set
or defined is a unique name or a spelled one, and never both (`Session.parse_fresh`).  This takes texts in
which nothing is mistaken for a unique name; the string `"_unique_2"` may be
(`Session.not_fresh_of_isOk`).
-/

namespace ControlFile

/-! ### Names that are given out -/

theorem mem_uniqueNames {n : Nat} {name : String} : name ∈ uniqueNames n ↔ IsGiven n name := by
  simp [uniqueNames, IsGiven, eq_comm]

theorem nodup_uniqueNames (n : Nat) : (uniqueNames n).Nodup :=
  List.nodup_range.map fun _ _ h => Nat.succ.inj (uniqueName_inj h)

namespace Session

/-- The run of the expander over the text, with as much fuel as the limit of depth asks for. -/
def run (s : Session) (text : String) : Option (Document × Expander) :=
  Expander.expand s.config (s.config.options.maxDepth + 1) (Parsed.ofText s.vocabulary text)
    (Expander.start ⟨.empty, [], [], []⟩)

/-- The unique names that are returned in the run over the text, in their order. -/
def givenNames (s : Session) (text : String) : List String :=
  ((s.run text).map (·.2.given)).getD []

/-- The run ends with the document of the text. -/
theorem exists_run (s : Session) (text : String) :
    ∃ x, s.run text = some (s.parse text, x) ∧ x.given = uniqueNames (s.parse text).tables.uniqueCount := by
  obtain ⟨x, hx, hkeeps, htables⟩ := Expander.expand_keeps s.config (Parsed.ofText s.vocabulary text)
    ⟨.empty, [], [], []⟩ (Nat.lt_succ_self _)
  refine ⟨x, hx, ?_⟩
  have hnumbered : x.given = uniqueNames x.run.tables.uniqueCount := hkeeps.given rfl
  rw [hnumbered, htables]
  rfl

/-- The names that are returned are as many of the unique names as have been counted. -/
theorem givenNames_eq (s : Session) (text : String) :
    s.givenNames text = uniqueNames (s.parse text).tables.uniqueCount := by
  obtain ⟨x, hrun, hgiven⟩ := s.exists_run text
  rw [givenNames, hrun]
  exact hgiven

theorem mem_givenNames {s : Session} {text name : String} :
    name ∈ s.givenNames text ↔ IsGiven (s.parse text).tables.uniqueCount name := by
  rw [givenNames_eq, mem_uniqueNames]

end Session

/-! ### Names of variables -/

/-- The names of the variables that the item declares, sets or defines. -/
def ItemKind.variables : ItemKind → List String
  | .declaration _ p => p.name.toList
  | .directive (.prm n _) | .directive (.define n) => [n]
  | _ => []

theorem ItemKind.Meets.variables {d : Demands} {k : ItemKind} (h : k.Meets d) :
    ∀ n ∈ k.variables, d.name n := by
  cases k with
  | declaration scope p =>
    intro n hn
    exact (Parameter.meets_iff.1 h).1 n (Option.mem_toList.1 hn)
  | directive w =>
    cases w with
    | prm n e => exact List.forall_mem_singleton.2 h.1
    | define n => exact List.forall_mem_singleton.2 h
    | _ => exact List.forall_mem_nil _
  | _ => exact List.forall_mem_nil _

/-- The string that the item passes to a macro. -/
def ItemKind.passedString? : ItemKind → Option String
  | .expr (.call _ [.expr (.literal (.string t))] _) => some t
  | _ => none

theorem ItemKind.Meets.passedString {d : Demands} {k : ItemKind} (h : k.Meets d) :
    ∀ t ∈ k.passedString?, d.text t := by
  intro t ht
  unfold ItemKind.passedString? at ht
  split at ht
  · cases ht
    exact h.2.1.2 (.inl trivial)
  · cases ht

end ControlFile
