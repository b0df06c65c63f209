import ControlFile.Macro.Tables
import ControlFile.Proofs.Macro.Unmarked

/-!
# What holds of all macros

What holds of all macros of a table, or of all items in their bodies, still does when such macros are
declared, and when macros are deleted.
-/

namespace ControlFile.MacroTable

variable {m : MacroTable}

/-! ### Macros under their names -/

section Entries

variable {P : String → MacroEntry → Prop}

/-- `P` holds of all macros under their names. -/
def Entries (P : String → MacroEntry → Prop) (m : MacroTable) : Prop :=
  ∀ name entry, m.get? name = some entry → P name entry

theorem entries_empty : empty.Entries P := by
  rintro name entry ⟨⟩

namespace Entries

theorem declare (h : m.Entries P) {s : Signature} {body : List Item} (hs : P s.name ⟨s, body⟩) :
    (m.declare s body).Entries P := by
  intro name entry hentry
  rw [get?_declare] at hentry
  split at hentry
  · rename_i hname
    cases hentry
    exact hname ▸ hs
  · exact h name entry hentry

theorem register (h : m.Entries P) {signatures : List Signature} {body : List Item}
    (hs : ∀ s ∈ signatures, P s.name ⟨s, body⟩) : (m.register signatures body).Entries P := by
  unfold MacroTable.register
  induction signatures generalizing m with
  | nil => exact h
  | cons s signatures ih =>
    obtain ⟨hs, hrest⟩ := List.forall_mem_cons.1 hs
    exact ih (h.declare hs) hrest

theorem delete (h : m.Entries P) (name : String) : (m.delete name).Entries P := by
  intro x entry hentry
  rw [get?_delete] at hentry
  split at hentry
  · cases hentry
  · exact h x entry hentry

theorem deleteAll (h : m.Entries P) (names : List String) :
    (names.foldl MacroTable.delete m).Entries P := by
  induction names generalizing m with
  | nil => exact h
  | cons name names ih => exact ih (h.delete name)

end Entries

end Entries

/-! ### Items in bodies -/

section Bodies

variable {P : Item → Prop}

/-- `P` holds of all items in the bodies of all macros. -/
def Bodies (P : Item → Prop) : MacroTable → Prop :=
  Entries fun _ entry => ∀ i ∈ entry.body, i.Everywhere P

theorem bodies_empty : empty.Bodies P := entries_empty

theorem Bodies.register (h : m.Bodies P) (signatures : List Signature) {body : List Item}
    (hbody : ∀ i ∈ body, i.Everywhere P) : (m.register signatures body).Bodies P :=
  Entries.register h fun _ _ => hbody

theorem Bodies.deleteAll (h : m.Bodies P) (names : List String) :
    (names.foldl MacroTable.delete m).Bodies P := Entries.deleteAll h names

end Bodies

end ControlFile.MacroTable
