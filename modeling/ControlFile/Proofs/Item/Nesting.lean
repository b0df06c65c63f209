import ControlFile.Proofs.Token.Word

/-!
# Nested conditionals

Two grammars of the words of conditionals in a text.

* `WellNested`: every conditional has an end of its own, and at most one else part, behind all its
  other branches.
* `Conditionals`: what is read without a fault.  A conditional may do without an end of its own where
  the next word is an `elseif` or an `else` that it has no use for: it leaves the word to the
  conditional around it.

`Conditionals n ws left` counts the conditionals without an end.  Counting words,
`Conditionals.endings_add` says that there are as many ends as conditionals, less these; so the
words are well nested exactly if there are none of them (`Conditionals.wellNested_iff_eq_zero`).
-/

namespace ControlFile

mutual

/-- Conditionals one behind the other, each of them with its end. -/
inductive WellNested : List ChainToken → Prop
  | nil : WellNested []
  | cons {f : Family} {ws vs : List ChainToken} (hchain : WellEnded f true ws)
      (hrest : WellNested vs) : WellNested ((f, .opening) :: (ws ++ vs))

/-- What follows the first word of a conditional, or of one of its branches, up to the end of the
conditional.  Only if `more` holds may another branch come. -/
inductive WellEnded : Family → (more : Bool) → List ChainToken → Prop
  | endif {f : Family} {more : Bool} {body : List ChainToken} (hbody : WellNested body) :
      WellEnded f more (body ++ [(f, .endif)])
  | elseif {f : Family} {body ws : List ChainToken} (hbody : WellNested body)
      (hrest : WellEnded f true ws) : WellEnded f true (body ++ (f, .elseif) :: ws)
  | otherwise {f : Family} {body ws : List ChainToken} (hbody : WellNested body)
      (hrest : WellEnded f false ws) : WellEnded f true (body ++ (f, .otherwise) :: ws)

end

mutual

/-- Conditionals one behind the other, `n` of them, at any depth, without an end.  The last one may
leave the next word, `left`, to the conditional around it. -/
inductive Conditionals : (n : Nat) → List ChainToken → (left : Option ChainToken) → Prop
  | nil : Conditionals 0 [] none
  | cons {f : Family} {n m : Nat} {ws vs : List ChainToken} {left : Option ChainToken}
      (hchain : Branches f true n ws none) (hrest : Conditionals m vs left) :
      Conditionals (n + m) ((f, .opening) :: (ws ++ vs)) left
  | last {f : Family} {n : Nat} {ws : List ChainToken} {t : ChainToken}
      (hchain : Branches f true n ws (some t)) : Conditionals n ((f, .opening) :: ws) (some t)

/-- What follows the first word of a conditional, or of one of its branches: up to its end, or up to
the word that it leaves. -/
inductive Branches : Family → (more : Bool) → (n : Nat) → List ChainToken →
    (left : Option ChainToken) → Prop
  | endif {f : Family} {more : Bool} {n : Nat} {body : List ChainToken}
      (hbody : Conditionals n body none) : Branches f more n (body ++ [(f, .endif)]) none
  | leave {f : Family} {more : Bool} {n : Nat} {body : List ChainToken} {u : Option ChainToken}
      {t : ChainToken} (hbody : Conditionals n body u) (hu : ∀ s ∈ u, s = t)
      (ht : t.2 = .elseif ∨ t.2 = .otherwise) (hf : more = true → t.1 ≠ f) :
      Branches f more (n + 1) body (some t)
  | elseif {f : Family} {n m : Nat} {body ws : List ChainToken} {u left : Option ChainToken}
      (hbody : Conditionals n body u) (hu : ∀ s ∈ u, s = (f, .elseif))
      (hrest : Branches f true m ws left) : Branches f true (n + m) (body ++ (f, .elseif) :: ws) left
  | otherwise {f : Family} {n m : Nat} {body ws : List ChainToken} {u left : Option ChainToken}
      (hbody : Conditionals n body u) (hu : ∀ s ∈ u, s = (f, .otherwise))
      (hrest : Branches f false m ws left) :
      Branches f true (n + m) (body ++ (f, .otherwise) :: ws) left

end

/-! ### Words one behind the other -/

/-- The first word opens a conditional. -/
theorem Conditionals.opening_of_cons {n : Nat} {t : ChainToken} {ws : List ChainToken}
    {left : Option ChainToken} (h : Conditionals n (t :: ws) left) : t.2 = .opening := by
  cases h <;> rfl

/-- One conditional is a row of conditionals. -/
theorem Branches.conditionals {f : Family} {n : Nat} {ws : List ChainToken} {left : Option ChainToken}
    (h : Branches f true n ws left) : Conditionals n ((f, .opening) :: ws) left := by
  cases left with
  | none =>
    have hrow := Conditionals.cons h .nil
    rwa [List.append_nil] at hrow
  | some t => exact .last h

theorem Conditionals.append {n m : Nat} {ws vs : List ChainToken} {u left : Option ChainToken} :
    Conditionals n ws u → u = none → Conditionals m vs left → Conditionals (n + m) (ws ++ vs) left
  | .nil, _, h => by rwa [Nat.zero_add]
  | .cons hchain hrest, hu, h => by
    rw [List.cons_append, List.append_assoc, Nat.add_assoc]
    exact .cons hchain (hrest.append hu h)

mutual

/-- The word that is left starts another branch. -/
theorem Conditionals.word_of_left {n : Nat} {ws : List ChainToken} {left : Option ChainToken} :
    Conditionals n ws left → ∀ t ∈ left, t.2 = .elseif ∨ t.2 = .otherwise
  | .nil => by simp
  | .cons _ hrest => hrest.word_of_left
  | .last hchain => hchain.word_of_left

theorem Branches.word_of_left {f : Family} {more : Bool} {n : Nat} {ws : List ChainToken}
    {left : Option ChainToken} :
    Branches f more n ws left → ∀ t ∈ left, t.2 = .elseif ∨ t.2 = .otherwise
  | .endif _ => by simp
  | .leave _ _ ht _ => by simpa using ht
  | .elseif _ _ hrest => hrest.word_of_left
  | .otherwise _ _ hrest => hrest.word_of_left

end

/-! ### Counting -/

/-- How many conditionals are opened. -/
def openings (ws : List ChainToken) : Nat := ws.countP fun t => t.2 == .opening

/-- How many conditionals are ended. -/
def endings (ws : List ChainToken) : Nat := ws.countP fun t => t.2 == .endif

@[simp] theorem openings_nil : openings [] = 0 := rfl

@[simp] theorem endings_nil : endings [] = 0 := rfl

theorem openings_append (ws vs : List ChainToken) :
    openings (ws ++ vs) = openings ws + openings vs := List.countP_append

theorem endings_append (ws vs : List ChainToken) :
    endings (ws ++ vs) = endings ws + endings vs := List.countP_append

theorem openings_cons (t : ChainToken) (ws : List ChainToken) :
    openings (t :: ws) = openings ws + if t.2 == .opening then 1 else 0 := List.countP_cons

theorem endings_cons (t : ChainToken) (ws : List ChainToken) :
    endings (t :: ws) = endings ws + if t.2 == .endif then 1 else 0 := List.countP_cons

mutual

/-- **Every conditional has an end, except those that are counted.** -/
theorem Conditionals.endings_add {n : Nat} {ws : List ChainToken} {left : Option ChainToken} :
    Conditionals n ws left → endings ws + n = openings ws
  | .nil => rfl
  | .cons hchain hrest => by
    have h := hchain.endings_add
    have h' := hrest.endings_add
    simp [openings_append, endings_append, openings_cons, endings_cons]
    omega
  | .last hchain => by
    have h := hchain.endings_add
    simp [openings_cons, endings_cons]
    omega

theorem Branches.endings_add {f : Family} {more : Bool} {n : Nat} {ws : List ChainToken}
    {left : Option ChainToken} : Branches f more n ws left → endings ws + n = openings ws + 1
  | .endif hbody => by
    have h := hbody.endings_add
    simp [openings_append, endings_append, openings_cons, endings_cons]
    omega
  | .leave hbody _ _ _ => by
    have h := hbody.endings_add
    omega
  | .elseif hbody _ hrest => by
    have h := hbody.endings_add
    have h' := hrest.endings_add
    simp [openings_append, endings_append, openings_cons, endings_cons]
    omega
  | .otherwise hbody _ hrest => by
    have h := hbody.endings_add
    have h' := hrest.endings_add
    simp [openings_append, endings_append, openings_cons, endings_cons]
    omega

end

/-! ### Well nested words -/

mutual

theorem WellNested.conditionals {ws : List ChainToken} :
    WellNested ws → Conditionals 0 ws none
  | .nil => .nil
  | .cons hchain hrest => .cons hchain.branches hrest.conditionals

theorem WellEnded.branches {f : Family} {more : Bool} {ws : List ChainToken} :
    WellEnded f more ws → Branches f more 0 ws none
  | .endif hbody => .endif hbody.conditionals
  | .elseif hbody hrest => .elseif hbody.conditionals (by simp) hrest.branches
  | .otherwise hbody hrest => .otherwise hbody.conditionals (by simp) hrest.branches

end

mutual

/-- Where every conditional has an end, no word is left. -/
theorem Conditionals.wellNested {n : Nat} {ws : List ChainToken} {left : Option ChainToken} :
    Conditionals n ws left → n = 0 → WellNested ws ∧ left = none
  | .nil, _ => ⟨.nil, rfl⟩
  | .cons hchain hrest, hn => by
    obtain ⟨hchain', -⟩ := hchain.wellEnded (by omega)
    obtain ⟨hrest', hleft⟩ := hrest.wellNested (by omega)
    exact ⟨.cons hchain' hrest', hleft⟩
  | .last hchain, hn => nomatch (hchain.wellEnded hn).2

theorem Branches.wellEnded {f : Family} {more : Bool} {n : Nat} {ws : List ChainToken}
    {left : Option ChainToken} : Branches f more n ws left → n = 0 → WellEnded f more ws ∧ left = none
  | .endif hbody, hn => ⟨.endif (hbody.wellNested hn).1, rfl⟩
  | .elseif hbody _ hrest, hn => by
    obtain ⟨hrest', hleft⟩ := hrest.wellEnded (by omega)
    exact ⟨.elseif (hbody.wellNested (by omega)).1 hrest', hleft⟩
  | .otherwise hbody _ hrest, hn => by
    obtain ⟨hrest', hleft⟩ := hrest.wellEnded (by omega)
    exact ⟨.otherwise (hbody.wellNested (by omega)).1 hrest', hleft⟩

end

/-- **Words that are read without a fault are well nested if every conditional has an end, and only
then.** -/
theorem Conditionals.wellNested_iff_eq_zero {n : Nat} {ws : List ChainToken} {left : Option ChainToken}
    (h : Conditionals n ws left) : WellNested ws ↔ n = 0 := by
  constructor
  · intro hws
    have hcount := h.endings_add
    have hcount' := hws.conditionals.endings_add
    omega
  · intro hn
    exact (h.wellNested hn).1

end ControlFile
