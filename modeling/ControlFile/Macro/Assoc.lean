/-!
# Tables in order of entry

An `Assoc α` gives values to names.  It keeps the order in which the names were entered: a name
that is entered again keeps its place and takes the new value, and one that is removed leaves no
gap.

Main facts: `get?_insert` and `get?_erase` say what is found after a change, and `keys_insert` and
`keys_erase` say in which order the names stand.
-/

namespace ControlFile

/-- Values of names, in the order in which the names were entered. -/
abbrev Assoc (α : Type) := List (String × α)

namespace Assoc

variable {α : Type}

/-- The value of a name. -/
def get? : Assoc α → String → Option α
  | [], _ => none
  | (k, a) :: m, key => if k = key then some a else get? m key

/-- Enters a name, or gives it a new value in its place. -/
def insert : Assoc α → String → α → Assoc α
  | [], key, value => [(key, value)]
  | (k, a) :: m, key, value =>
    if k = key then (key, value) :: m else (k, a) :: insert m key value

/-- Removes a name. -/
def erase (m : Assoc α) (key : String) : Assoc α := m.filter (·.1 != key)

def keys (m : Assoc α) : List String := m.map (·.1)

@[simp] theorem get?_nil (key : String) : get? ([] : Assoc α) key = none := rfl

theorem get?_cons (k : String) (a : α) (m : Assoc α) (key : String) :
    get? ((k, a) :: m) key = if k = key then some a else get? m key := rfl

theorem get?_insert (m : Assoc α) (key : String) (value : α) (x : String) :
    (insert m key value).get? x = if key = x then some value else m.get? x := by
  induction m with
  | nil => simp [insert, get?_cons]
  | cons p m ih =>
    obtain ⟨k, a⟩ := p
    by_cases h : k = key
    · subst h
      by_cases hx : k = x <;> simp [insert, get?_cons, hx]
    · by_cases hx : k = x
      · subst hx
        simp [insert, get?_cons, h, Ne.symm h]
      · simp [insert, get?_cons, h, hx, ih]

theorem get?_erase (m : Assoc α) (key x : String) :
    (erase m key).get? x = if key = x then none else m.get? x := by
  induction m with
  | nil => simp [erase]
  | cons p m ih =>
    obtain ⟨k, a⟩ := p
    rw [erase] at ih
    by_cases h : k = key
    · subst h
      by_cases hx : k = x <;> simp_all [erase, get?_cons]
    · by_cases hx : k = x
      · subst hx
        simp [erase, get?_cons, h, Ne.symm h]
      · simp [erase, get?_cons, h, hx, ih]

/-- **Entering keeps the order.** A new name is the last one. -/
theorem keys_insert (m : Assoc α) (key : String) (value : α) :
    (insert m key value).keys = if key ∈ m.keys then m.keys else m.keys ++ [key] := by
  induction m with
  | nil => simp [insert, keys]
  | cons p m ih =>
    obtain ⟨k, a⟩ := p
    by_cases h : k = key
    · subst h; simp [insert, keys]
    · have h' : ¬key = k := Ne.symm h
      simp only [keys] at ih ⊢
      by_cases hm : key ∈ List.map (·.1) m <;> simp_all [insert]

theorem keys_erase (m : Assoc α) (key : String) :
    (erase m key).keys = m.keys.filter (· != key) := by
  simp [erase, keys, List.filter_map, Function.comp_def]

end Assoc

/-! ### Sets of names -/

/-- Adds a name to a set of names. -/
def insertName (names : List String) (name : String) : List String :=
  if name ∈ names then names else names ++ [name]

/-- Removes a name from a set of names. -/
def eraseName (names : List String) (name : String) : List String := names.filter (· != name)

theorem mem_insertName {names : List String} {name x : String} :
    x ∈ insertName names name ↔ x ∈ names ∨ x = name := by
  unfold insertName
  split
  · constructor
    · exact Or.inl
    · rintro (h | rfl) <;> assumption
  · simp

theorem mem_eraseName {names : List String} {name x : String} :
    x ∈ eraseName names name ↔ x ∈ names ∧ x ≠ name := by
  simp [eraseName]

end ControlFile
