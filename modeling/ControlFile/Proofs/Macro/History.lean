import ControlFile.Macro.Tables
import Mathlib.Data.List.Induction
import Mathlib.Data.List.Nodup

/-!
# What a table of macros remembers

The table after any row of registrations and deletions can be read off their history, the row of single
events they consist of (`MacroTable.ofSteps_recalls`).  A macro that is found is the last one that was
declared under its name, if the name has not been deleted since.  A name is deleted if a deletion removed its
macro and nothing has been declared under it since.  The names stand in the order of the declarations that
introduced them: those before which there was no macro of the name, and after which it was not deleted.

What has happened *since* an event is a relation of histories (`Since`) with one equation, for a history that
goes on by one event (`since_concat`).  Each step of the table is compared with it.
-/

namespace ControlFile

/-! ### Histories -/

/-- What happens to one name: a macro is declared under it, or it is deleted. -/
inductive MacroEvent
  | declared (entry : MacroEntry)
  | deleted (name : String)

/-- The name that something happens to. -/
def MacroEvent.name : MacroEvent → String
  | .declared entry => entry.signature.name
  | .deleted n => n

/-- A macro is declared under the name. -/
def MacroEvent.Declares (n : String) (e : MacroEvent) : Prop :=
  ∃ entry, e = .declared entry ∧ entry.signature.name = n

/-- What has happened to the names, in order. -/
abbrev MacroHistory := List MacroEvent

namespace MacroHistory

/-- There was an event with the given past, and all events since are of a kind. -/
def Since (past : MacroHistory → MacroEvent → Prop) (later : MacroEvent → Prop) (h : MacroHistory) : Prop :=
  ∃ before e after, h = before ++ e :: after ∧ past before e ∧ ∀ x ∈ after, later x

variable {past : MacroHistory → MacroEvent → Prop} {later : MacroEvent → Prop} {h : MacroHistory}

theorem not_since_nil : ¬Since past later [] := by
  rintro ⟨before, e, after, hsplit, -⟩
  cases before <;> cases hsplit

/-- **A history goes on.**  The new event is the one that is looked for, or an earlier one is, and the new
one is of the kind that may follow. -/
theorem since_concat (e : MacroEvent) :
    Since past later (h ++ [e]) ↔ past h e ∨ Since past later h ∧ later e := by
  constructor
  · rintro ⟨before, x, after, hsplit, hpast, hlater⟩
    rcases List.eq_nil_or_concat after with rfl | ⟨after, y, rfl⟩
    · obtain ⟨rfl, ⟨⟩⟩ := List.append_inj' hsplit rfl
      exact .inl hpast
    · rw [List.concat_eq_append, ← List.cons_append, ← List.append_assoc] at hsplit
      obtain ⟨rfl, ⟨⟩⟩ := List.append_inj' hsplit rfl
      simp only [List.concat_eq_append, List.forall_mem_append, List.forall_mem_singleton] at hlater
      exact .inr ⟨⟨before, x, after, rfl, hpast, hlater.1⟩, hlater.2⟩
  · rintro (hpast | ⟨⟨before, x, after, rfl, hpast, hlater⟩, he⟩)
    · exact ⟨h, e, [], rfl, hpast, fun _ hx => by cases hx⟩
    · refine ⟨before, x, after ++ [e], by rw [List.append_assoc, List.cons_append], hpast, ?_⟩
      exact List.forall_mem_append.2 ⟨hlater, List.forall_mem_singleton.2 he⟩

/-- The macro is the last one declared under its name, and the name has not been deleted since. -/
def Stands (entry : MacroEntry) : MacroHistory → Prop :=
  Since (fun _ e => e = .declared entry) fun e => e.name ≠ entry.signature.name

/-- A macro was declared under the name, and the name has not been deleted since. -/
def IsPresent (n : String) (h : MacroHistory) : Prop := ∃ entry, Stands entry h ∧ entry.signature.name = n

/-- A deletion removed the macro of the name, and none has been declared under it since. -/
def IsRemoved (n : String) : MacroHistory → Prop :=
  Since (fun before e => e = .deleted n ∧ IsPresent n before) fun e => ¬e.Declares n

/-- The event at `place` declared a macro under the name when there was none, and the name has not been
deleted since. -/
def IsIntroducedAt (n : String) (place : Nat) : MacroHistory → Prop :=
  Since (fun before e => before.length = place ∧ e.Declares n ∧ ¬IsPresent n before) fun e => e ≠ .deleted n

/-! ### One more event -/

theorem stands_concat {entry : MacroEntry} (e : MacroEvent) :
    Stands entry (h ++ [e]) ↔ e = .declared entry ∨ Stands entry h ∧ e.name ≠ entry.signature.name :=
  since_concat e

theorem isPresent_declared {n : String} (entry : MacroEntry) :
    IsPresent n (h ++ [.declared entry]) ↔ entry.signature.name = n ∨ IsPresent n h := by
  constructor
  · rintro ⟨entry', hstands, rfl⟩
    rcases (stands_concat _).1 hstands with ⟨⟨⟩⟩ | ⟨hstands, -⟩
    · exact .inl rfl
    · exact .inr ⟨entry', hstands, rfl⟩
  · rintro (rfl | ⟨entry', hstands, rfl⟩)
    · exact ⟨entry, (stands_concat _).2 (.inl rfl), rfl⟩
    · by_cases hname : entry.signature.name = entry'.signature.name
      · exact ⟨entry, (stands_concat _).2 (.inl rfl), hname⟩
      · exact ⟨entry', (stands_concat _).2 (.inr ⟨hstands, hname⟩), rfl⟩

theorem isPresent_deleted {n : String} (m : String) :
    IsPresent n (h ++ [.deleted m]) ↔ IsPresent n h ∧ m ≠ n := by
  constructor
  · rintro ⟨entry, hstands, rfl⟩
    rcases (stands_concat _).1 hstands with ⟨⟨⟩⟩ | ⟨hstands, hname⟩
    exact ⟨⟨entry, hstands, rfl⟩, hname⟩
  · rintro ⟨⟨entry, hstands, rfl⟩, hname⟩
    exact ⟨entry, (stands_concat _).2 (.inr ⟨hstands, hname⟩), rfl⟩

theorem declares_declared {n : String} {entry : MacroEntry} :
    (MacroEvent.declared entry).Declares n ↔ entry.signature.name = n := by
  constructor
  · rintro ⟨_, ⟨⟩, hname⟩
    exact hname
  · exact fun hname => ⟨entry, rfl, hname⟩

theorem not_declares_deleted {n m : String} : ¬(MacroEvent.deleted m).Declares n := by
  rintro ⟨_, ⟨⟩, -⟩

theorem isRemoved_declared {n : String} (entry : MacroEntry) :
    IsRemoved n (h ++ [.declared entry]) ↔ IsRemoved n h ∧ entry.signature.name ≠ n := by
  simp [IsRemoved, since_concat, declares_declared]

theorem isRemoved_deleted {n : String} (m : String) :
    IsRemoved n (h ++ [.deleted m]) ↔ m = n ∧ IsPresent n h ∨ IsRemoved n h := by
  simp [IsRemoved, since_concat, not_declares_deleted]

theorem isIntroducedAt_declared {n : String} {place : Nat} (entry : MacroEntry) :
    IsIntroducedAt n place (h ++ [.declared entry]) ↔
      h.length = place ∧ entry.signature.name = n ∧ ¬IsPresent n h ∨ IsIntroducedAt n place h := by
  simp [IsIntroducedAt, since_concat, declares_declared]

theorem isIntroducedAt_deleted {n : String} {place : Nat} (m : String) :
    IsIntroducedAt n place (h ++ [.deleted m]) ↔ IsIntroducedAt n place h ∧ m ≠ n := by
  simp [IsIntroducedAt, since_concat, not_declares_deleted]

/-- What was introduced and not deleted since is there. -/
theorem IsIntroducedAt.isPresent {n : String} {place : Nat} (hplace : IsIntroducedAt n place h) :
    IsPresent n h := by
  induction h using List.reverseRecOn with
  | nil => exact absurd hplace not_since_nil
  | append_singleton h e ih =>
    cases e with
    | declared entry =>
      rw [isPresent_declared]
      exact ((isIntroducedAt_declared entry).1 hplace).imp (fun hnew => hnew.2.1) ih
    | deleted m =>
      obtain ⟨hplace, hname⟩ := (isIntroducedAt_deleted m).1 hplace
      exact (isPresent_deleted m).2 ⟨ih hplace, hname⟩

/-- The event that introduced a name is one of the history. -/
theorem IsIntroducedAt.lt_length {n : String} {place : Nat} (hplace : IsIntroducedAt n place h) :
    place < h.length := by
  obtain ⟨before, e, after, rfl, ⟨rfl, -⟩, -⟩ := hplace
  simp

end MacroHistory

/-! ### Tables -/

open MacroHistory

theorem Assoc.mem_keys_iff {α : Type} {m : Assoc α} {key : String} :
    key ∈ m.keys ↔ (m.get? key).isSome = true := by
  induction m with
  | nil => simp [keys]
  | cons p m ih =>
    obtain ⟨k, a⟩ := p
    rw [keys, List.map_cons, List.mem_cons, get?_cons]
    by_cases hk : k = key
    · simp [hk]
    · rw [if_neg hk, ← ih, keys]
      simp [Ne.symm hk]

namespace MacroTable

/-- The table is what the history says. -/
structure Recalls (t : MacroTable) (h : MacroHistory) : Prop where
  get?_iff : ∀ n entry, t.get? n = some entry ↔ entry.signature.name = n ∧ Stands entry h
  isDeleted_iff : ∀ n, t.isDeleted n = true ↔ IsRemoved n h
  disjoint : ∀ n, ¬(t.isDeleted n = true ∧ t.contains n = true)
  mem_names : ∀ n, n ∈ t.names ↔ t.contains n = true
  nodup : t.names.Nodup
  introduced : ∀ n ∈ t.names, ∃ place, IsIntroducedAt n place h
  ordered : t.names.Pairwise fun n m =>
    ∀ i j, IsIntroducedAt n i h → IsIntroducedAt m j h → i < j

variable {t : MacroTable} {h : MacroHistory}

theorem contains_iff {n : String} : t.contains n = true ↔ ∃ entry, t.get? n = some entry := Option.isSome_iff_exists

/-! ### What a declaration changes -/

theorem contains_declare (s : Signature) (body : List Item) (n : String) :
    (t.declare s body).contains n = true ↔ s.name = n ∨ t.contains n = true := by
  rw [contains, get?_declare, contains]
  split <;> simp_all

theorem isDeleted_declare (s : Signature) (body : List Item) (n : String) :
    (t.declare s body).isDeleted n = true ↔ t.isDeleted n = true ∧ s.name ≠ n := by
  simp [isDeleted, declare, mem_eraseName, ne_comm]

/-- A name that is there keeps its place, and a new one is the last. -/
theorem names_declare (s : Signature) (body : List Item) :
    (t.declare s body).names = if t.contains s.name = true then t.names else t.names ++ [s.name] := by
  rw [names, declare, Assoc.keys_insert]
  exact if_congr Assoc.mem_keys_iff rfl rfl

/-! ### What a deletion changes -/

theorem contains_delete (m n : String) :
    (t.delete m).contains n = true ↔ t.contains n = true ∧ m ≠ n := by
  rw [contains, get?_delete, contains]
  split <;> simp_all

theorem isDeleted_delete (m n : String) :
    (t.delete m).isDeleted n = true ↔ m = n ∧ t.contains n = true ∨ t.isDeleted n = true := by
  unfold delete
  split
  · rename_i hm
    simp only [isDeleted, List.contains_eq_mem, decide_eq_true_eq, mem_insertName]
    constructor
    · rintro (hn | rfl)
      · exact .inr hn
      · exact .inl ⟨rfl, hm⟩
    · rintro (⟨rfl, -⟩ | hn)
      · exact .inr rfl
      · exact .inl hn
  · rename_i hm
    refine (or_iff_right ?_).symm
    rintro ⟨rfl, hn⟩
    exact hm hn

/-- The other names close up. -/
theorem names_delete (m : String) : (t.delete m).names = t.names.filter (· != m) := by
  unfold delete
  split
  · exact Assoc.keys_erase ..
  · rename_i hm
    refine (List.filter_eq_self.2 fun n hn => ?_).symm
    rw [bne_iff_ne]
    rintro rfl
    exact hm (Assoc.mem_keys_iff.1 hn)

/-! ### Steps -/

namespace Recalls

theorem contains_iff_isPresent (ht : t.Recalls h) (n : String) : t.contains n = true ↔ IsPresent n h := by
  rw [contains_iff]
  constructor
  · rintro ⟨entry, hget⟩
    obtain ⟨hname, hstands⟩ := (ht.get?_iff n entry).1 hget
    exact ⟨entry, hstands, hname⟩
  · rintro ⟨entry, hstands, hname⟩
    exact ⟨entry, (ht.get?_iff n entry).2 ⟨hname, hstands⟩⟩

theorem empty : MacroTable.empty.Recalls [] where
  get?_iff n entry := iff_of_false (by simp [MacroTable.empty, get?]) fun hstands => not_since_nil hstands.2
  isDeleted_iff n := iff_of_false Bool.noConfusion not_since_nil
  disjoint n hn := Bool.noConfusion hn.1
  mem_names n := iff_of_false List.not_mem_nil Bool.noConfusion
  nodup := List.nodup_nil
  introduced n hn := by cases hn
  ordered := List.Pairwise.nil

/-- **A macro is declared.** -/
theorem declare (ht : t.Recalls h) (s : Signature) (body : List Item) :
    (t.declare s body).Recalls (h ++ [.declared ⟨s, body⟩]) where
  get?_iff n entry := by
    rw [get?_declare, stands_concat]
    constructor
    · intro hget
      split at hget
      · cases hget
        exact ⟨by assumption, .inl rfl⟩
      · rename_i hname
        obtain ⟨rfl, hstands⟩ := (ht.get?_iff n entry).1 hget
        exact ⟨rfl, .inr ⟨hstands, hname⟩⟩
    · rintro ⟨rfl, ⟨⟨⟩⟩ | ⟨hstands, hname⟩⟩
      · exact if_pos rfl
      · exact (if_neg hname).trans ((ht.get?_iff _ entry).2 ⟨rfl, hstands⟩)
  isDeleted_iff n := by rw [isDeleted_declare, isRemoved_declared, ht.isDeleted_iff]
  disjoint n hn := by
    rw [isDeleted_declare, contains_declare] at hn
    exact ht.disjoint n ⟨hn.1.1, hn.2.resolve_left hn.1.2⟩
  mem_names n := Assoc.mem_keys_iff
  nodup := by
    rw [names_declare]
    split
    · exact ht.nodup
    · rename_i hnew
      rw [← ht.mem_names] at hnew
      exact List.nodup_append'.2 ⟨ht.nodup, List.nodup_singleton _, List.disjoint_singleton.2 hnew⟩
  introduced n hn := by
    by_cases hold : n ∈ t.names
    · obtain ⟨place, hplace⟩ := ht.introduced n hold
      exact ⟨place, (isIntroducedAt_declared _).2 (.inr hplace)⟩
    · rw [ht.mem_names] at hold
      have hname := ((contains_declare s body n).1 (Assoc.mem_keys_iff.1 hn)).resolve_right hold
      rw [ht.contains_iff_isPresent] at hold
      exact ⟨h.length, (isIntroducedAt_declared _).2 (.inl ⟨rfl, hname, hold⟩)⟩
  ordered := by
    -- A name that was there was introduced by an earlier event, a new one by this one.
    have hold : ∀ n ∈ t.names, ∀ {place}, IsIntroducedAt n place (h ++ [.declared ⟨s, body⟩]) →
        IsIntroducedAt n place h := by
      intro n hn place hplace
      have hpresent := (ht.contains_iff_isPresent n).1 ((ht.mem_names n).1 hn)
      exact ((isIntroducedAt_declared _).1 hplace).resolve_left fun hnew => hnew.2.2 hpresent
    have hordered : t.names.Pairwise fun n m => ∀ i j, IsIntroducedAt n i (h ++ [.declared ⟨s, body⟩]) →
        IsIntroducedAt m j (h ++ [.declared ⟨s, body⟩]) → i < j :=
      ht.ordered.imp_of_mem fun hn hm hlt i j hi hj => hlt i j (hold _ hn hi) (hold _ hm hj)
    rw [names_declare]
    split
    · exact hordered
    · rename_i hnew
      refine List.pairwise_append.2 ⟨hordered, List.pairwise_singleton .., fun n hn m hm i j hi hj => ?_⟩
      obtain rfl := List.mem_singleton.1 hm
      rcases (isIntroducedAt_declared _).1 hj with ⟨rfl, -⟩ | hj
      · exact (hold n hn hi).lt_length
      · exact absurd ((ht.contains_iff_isPresent s.name).2 hj.isPresent) hnew

/-- **A macro is deleted.**  A name that is not known is only written down in the history. -/
theorem delete (ht : t.Recalls h) (m : String) : (t.delete m).Recalls (h ++ [.deleted m]) where
  get?_iff n entry := by
    rw [get?_delete, stands_concat]
    constructor
    · intro hget
      split at hget
      · cases hget
      · rename_i hname
        obtain ⟨rfl, hstands⟩ := (ht.get?_iff n entry).1 hget
        exact ⟨rfl, .inr ⟨hstands, hname⟩⟩
    · rintro ⟨rfl, ⟨⟨⟩⟩ | ⟨hstands, hname⟩⟩
      exact (if_neg hname).trans ((ht.get?_iff _ entry).2 ⟨rfl, hstands⟩)
  isDeleted_iff n := by
    rw [isDeleted_delete, isRemoved_deleted, ht.isDeleted_iff, ht.contains_iff_isPresent]
  disjoint n hn := by
    rw [isDeleted_delete, contains_delete] at hn
    rcases hn with ⟨⟨rfl, -⟩ | hdeleted, hcontains, hname⟩
    · exact hname rfl
    · exact ht.disjoint n ⟨hdeleted, hcontains⟩
  mem_names n := Assoc.mem_keys_iff
  nodup := by
    rw [names_delete]
    exact ht.nodup.filter _
  introduced n hn := by
    rw [names_delete, List.mem_filter, bne_iff_ne] at hn
    obtain ⟨place, hplace⟩ := ht.introduced n hn.1
    exact ⟨place, (isIntroducedAt_deleted m).2 ⟨hplace, Ne.symm hn.2⟩⟩
  ordered := by
    rw [names_delete]
    refine (ht.ordered.filter _).imp fun hlt i j hi hj => ?_
    exact hlt i j ((isIntroducedAt_deleted m).1 hi).1 ((isIntroducedAt_deleted m).1 hj).1

end Recalls

/-! ### Rows of steps -/

/-- A step in the life of a table: macros that share a body are registered, or a name is deleted. -/
inductive Step
  | register (signatures : List Signature) (body : List Item)
  | delete (name : String)

/-- What a step does to single names. -/
def Step.events : Step → MacroHistory
  | .register signatures body => signatures.map fun s => .declared ⟨s, body⟩
  | .delete n => [.deleted n]

def applyStep (t : MacroTable) : Step → MacroTable
  | .register signatures body => t.register signatures body
  | .delete n => t.delete n

/-- The table after the given steps, the first of which meets an empty one. -/
def ofSteps (steps : List Step) : MacroTable := steps.foldl applyStep .empty

/-- What the steps do to single names, in order. -/
def historyOf (steps : List Step) : MacroHistory := steps.flatMap Step.events

theorem Recalls.register (signatures : List Signature) (body : List Item) (ht : t.Recalls h) :
    (t.register signatures body).Recalls (h ++ signatures.map fun s => .declared ⟨s, body⟩) := by
  induction signatures generalizing t h with
  | nil => rwa [List.map_nil, List.append_nil]
  | cons s signatures ih =>
    have hrest := ih (ht.declare s body)
    rwa [List.append_assoc, List.singleton_append] at hrest

theorem Recalls.applyStep (ht : t.Recalls h) (step : Step) : (t.applyStep step).Recalls (h ++ step.events) := by
  cases step with
  | register signatures body => exact ht.register signatures body
  | delete n => exact ht.delete n

/-- **A table of macros is an ordered map that remembers what was deleted.**  After any steps it is what their
history says: which macros there are and with what head and body, which names are deleted, and in which order
the names stand. -/
theorem ofSteps_recalls (steps : List Step) : (ofSteps steps).Recalls (historyOf steps) := by
  induction steps using List.reverseRecOn with
  | nil => exact .empty
  | append_singleton steps step ih =>
    rw [ofSteps, List.foldl_concat, historyOf, List.flatMap_append, List.flatMap_singleton]
    exact ih.applyStep step

end MacroTable

end ControlFile
