import ControlFile.Proofs.Item.Complete

/-!
# Filling places with arguments

In the body of a macro a name may stand alone in a place for a value, which is left *open* then.  A
copy of the body has the argument there, and no one looks whether it is a value: a name or nothing at
all leaves the place empty, and a mark gets into places that may not be marked.  Every other place keeps
its form (`Parameter.substitute_cases`).

So a place that is filled stays so in every copy, whatever the arguments are
(`Item.complete_substitute`).
-/

namespace ControlFile

/-! ### Arguments in the place of a value -/

namespace Parameter

variable {s : Substitution} {p q : Parameter}

/-- What an argument becomes in a place that has a mark of its own. -/
def markedBy (mark : Refinement) (p : Parameter) : Parameter :=
  if mark = .plain then p else { p with refinement := mark }

/-- The same mark, a name if there is one, and a value if there is one. -/
structure SameForm (p q : Parameter) : Prop where
  refinement : q.refinement = p.refinement
  name : q.name.isSome = p.name.isSome
  value : q.value.isPresent = p.value.isPresent

theorem SameForm.isFilled_iff (h : p.SameForm q) : q.IsFilled ↔ p.IsFilled := by
  unfold IsFilled
  rw [h.value, h.refinement, ← Option.isNone_iff_eq_none, ← Option.isNone_iff_eq_none,
    ← Option.not_isSome, ← Option.not_isSome, h.name]

theorem isPresent_substitute {w w' : Value} (h : w.substitute s = .ok w') :
    w'.isPresent = w.isPresent := by
  cases w <;> rw [Value.substitute] at h
  case absent => cases h; rfl
  case literal value => cases h; rfl
  case equation e =>
    cases he : e.substitute s <;> rw [he] at h <;> cases h
    rfl

/-- The argument that an open place takes.  It is there if the name is that of a parameter. -/
def taken? (s : Substitution) (p : Parameter) : Option Parameter :=
  s.wholeParameter? p.refinement p.name p.value

theorem taken?_eq (s : Substitution) (p : Parameter) : p.taken? s =
    if p.value.isPresent then none
    else (p.name.bind s.lookup).map fun a => a.toParameter.markedBy p.refinement := by
  obtain ⟨mark, n, w⟩ := p
  cases n <;> cases w <;> rfl

/-- A copy of a place has the form of the place, unless that is open and an argument is put there. -/
theorem substitute_cases (h : p.substitute s = .ok q) :
    (∃ w, p.taken? s = some w ∧ q = w) ∨ (p.taken? s = none ∧ p.SameForm q) := by
  obtain ⟨mark, n, w⟩ := p
  rw [Parameter.substitute] at h
  cases htaken : taken? s ⟨mark, n, w⟩ with
  | some taken =>
    rw [show s.wholeParameter? mark n w = some taken from htaken] at h
    cases h
    exact .inl ⟨q, rfl, rfl⟩
  | none =>
    rw [show s.wholeParameter? mark n w = none from htaken] at h
    refine .inr ⟨rfl, ?_⟩
    cases hn : s.name? n with
    | error fault =>
      rw [hn] at h
      cases h
    | ok m =>
      rw [hn] at h
      cases hw : w.substitute s with
      | error fault =>
        simp only [hw] at h
        cases h
      | ok w' =>
        simp only [hw] at h
        cases h
        refine ⟨rfl, ?_, isPresent_substitute hw⟩
        cases n with
        | none => cases hn; rfl
        | some n =>
          simp only [Substitution.name?] at hn
          cases hname : s.name n <;> rw [hname] at hn <;> cases hn
          rfl

/-- A place that is filled takes no argument. -/
theorem IsFilled.taken?_eq_none (h : p.IsFilled) : p.taken? s = none := by
  rw [taken?_eq]
  rcases h with h | ⟨-, h⟩
  · rw [if_pos h]
  · rw [h]
    split <;> rfl

theorem IsFilled.sameForm (h : p.IsFilled) (hs : p.substitute s = .ok q) : p.SameForm q := by
  rcases substitute_cases hs with ⟨w, hw, -⟩ | ⟨-, h'⟩
  · rw [h.taken?_eq_none] at hw
    cases hw
  · exact h'

end Parameter

/-! ### Copies of statements -/

section Results

variable {α β : Type} {f : α → Except Fault β}

theorem exists_of_bind_eq_ok {x : Except Fault α} {b : β} (h : (x >>= f) = .ok b) :
    ∃ a, x = .ok a ∧ f a = .ok b := by
  cases x with
  | error fault => cases h
  | ok a => exact ⟨a, rfl, h⟩

theorem exists_of_mem_mapM {as : List α} {bs : List β} (h : as.mapM f = .ok bs) :
    ∀ b ∈ bs, ∃ a ∈ as, f a = .ok b := by
  induction as generalizing bs with
  | nil =>
    cases h
    exact List.forall_mem_nil _
  | cons a as ih =>
    rw [List.mapM_cons] at h
    obtain ⟨b, hb, h⟩ := exists_of_bind_eq_ok h
    obtain ⟨bs', hbs, h⟩ := exists_of_bind_eq_ok h
    cases h
    refine List.forall_mem_cons.2 ⟨⟨a, by simp, hb⟩, fun c hc => ?_⟩
    obtain ⟨a', ha', hc⟩ := ih hbs c hc
    exact ⟨a', by simp [ha'], hc⟩

theorem Adps.exists_of_mem_mapM {as : Adps α} {bs : Adps β} (h : as.mapM f = .ok bs) :
    ∀ b ∈ bs.toList, ∃ a ∈ as.toList, f a = .ok b := by
  obtain ⟨b₁, h₁, h⟩ := exists_of_bind_eq_ok h
  obtain ⟨b₂, h₂, h⟩ := exists_of_bind_eq_ok h
  obtain ⟨b₃, h₃, h⟩ := exists_of_bind_eq_ok h
  obtain ⟨b₄, h₄, h⟩ := exists_of_bind_eq_ok h
  obtain ⟨b₅, h₅, h⟩ := exists_of_bind_eq_ok h
  obtain ⟨b₆, h₆, h⟩ := exists_of_bind_eq_ok h
  cases h
  simp [toList, h₁, h₂, h₃, h₄, h₅, h₆]

end Results

namespace SiteStatement

variable {s : Substitution} {t t' : SiteStatement}

/-- Every place of a copy is a copy of a place. -/
theorem slots_substitute (h : t.substitute s = .ok t') :
    ∀ q ∈ t'.slots, ∃ p ∈ t.slots, p.substitute s = .ok q := by
  cases t <;> rw [substitute] at h
  case coordinate axis value =>
    obtain ⟨q, hq, h⟩ := exists_of_bind_eq_ok h
    cases h
    simpa [slots] using hq
  case occupancy occ =>
    obtain ⟨ms, hms, h⟩ := exists_of_bind_eq_ok h
    obtain ⟨atom, -, h⟩ := exists_of_bind_eq_ok h
    obtain ⟨q, hq, h⟩ := exists_of_bind_eq_ok h
    cases h
    refine List.forall_mem_cons.2 ⟨⟨occ.value, by simp [slots], hq⟩, List.forall_mem_map.2 fun m' hm' => ?_⟩
    obtain ⟨m, hm, hcopy⟩ := exists_of_mem_mapM hms m' hm'
    obtain ⟨q, hq, hcopy⟩ := exists_of_bind_eq_ok hcopy
    cases hcopy
    exact ⟨m.value, List.mem_cons_of_mem _ (List.mem_map_of_mem hm), hq⟩
  case scalar word value =>
    obtain ⟨q, hq, h⟩ := exists_of_bind_eq_ok h
    cases h
    simpa [slots] using hq
  case adps values =>
    obtain ⟨qs, hqs, h⟩ := exists_of_bind_eq_ok h
    cases h
    exact Adps.exists_of_mem_mapM hqs

theorem isFixed_substitute (h : t.substitute s = .ok t') : t'.isFixed = t.isFixed := by
  cases t <;> rw [substitute] at h
  case coordinate axis value =>
    obtain ⟨q, -, h⟩ := exists_of_bind_eq_ok h
    cases h
    rfl
  case occupancy occ =>
    obtain ⟨ms, -, h⟩ := exists_of_bind_eq_ok h
    obtain ⟨atom, -, h⟩ := exists_of_bind_eq_ok h
    obtain ⟨q, -, h⟩ := exists_of_bind_eq_ok h
    cases h
    rfl
  case scalar word value =>
    obtain ⟨q, -, h⟩ := exists_of_bind_eq_ok h
    cases h
    rfl
  case adps values =>
    obtain ⟨qs, -, h⟩ := exists_of_bind_eq_ok h
    cases h
    rfl

/-- If every place has the form of a filled one, the statement is complete. -/
theorem IsComplete.of_sameForm (h : t.IsComplete) (hfixed : t'.isFixed = t.isFixed)
    (hslots : ∀ q ∈ t'.slots, ∃ p ∈ t.slots, p.IsFilled → p.SameForm q) : t'.IsComplete := by
  intro q hq
  obtain ⟨p, hp, hpq⟩ := hslots q hq
  obtain ⟨hfilled, hplain⟩ := h p hp
  have hform := hpq hfilled
  rw [hfixed, hform.refinement]
  exact ⟨hform.isFilled_iff.2 hfilled, hplain⟩

theorem IsComplete.substitute (h : t.IsComplete) (hs : t.substitute s = .ok t') : t'.IsComplete := by
  refine h.of_sameForm (isFixed_substitute hs) fun q hq => ?_
  obtain ⟨p, hp, hcopy⟩ := slots_substitute hs q hq
  exact ⟨p, hp, fun hfilled => hfilled.sameForm hcopy⟩

end SiteStatement

/-! ### Copies of items -/

/-- There is no statement in what a word of an argument becomes. -/
theorem ItemKind.isComplete_ofWord (word : String) : (ofWord word).IsComplete := by
  unfold ofWord
  grind [ItemKind.IsComplete]

/-- What a kind of item needs to be complete everywhere. -/
abbrev ItemKind.AllComplete (k : ItemKind) : Prop := k.IsComplete ∧ k.Everywhere Item.IsComplete

/-- What holds no items is complete everywhere if it is complete. -/
theorem ItemKind.IsLeaf.allComplete {k : ItemKind} (hleaf : k.IsLeaf) (h : k.IsComplete) :
    k.AllComplete := by
  refine ⟨h, ?_⟩
  cases k <;> trivial

namespace Substituting

variable {α β : Type} {Q : β → Prop}

theorem returns_lift {x : Except Fault β} (h : ∀ b, x = .ok b → Q b) :
    Returns (liftM x : Substituting β) Q := by
  intro n b m hrun
  cases x with
  | error fault => cases hrun
  | ok a =>
    cases hrun
    exact h _ rfl

/-- What is computed of the copy is a leaf that is complete. -/
theorem returns_leaf {x : Except Fault α} {k : α → ItemKind}
    (h : ∀ a, x = .ok a → (k a).IsLeaf ∧ (k a).IsComplete) :
    Returns (do return some (k (← x)) : Substituting (Option ItemKind))
      fun o => ∀ l ∈ o, ItemKind.AllComplete l := by
  refine (returns_lift h).bind_of fun a ha => .pure ?_
  rintro _ ⟨⟩
  exact ha.1.allComplete ha.2

end Substituting

section Copies

variable (s : Substitution)

open Substituting (returns_lift returns_leaf)

theorem Argument.allComplete_toItem? (a : Argument) : ∀ k ∈ a.toItem?, k.AllComplete := by
  cases a <;> rintro k ⟨⟩ <;> exact ⟨trivial, trivial⟩

theorem BodyOp.complete_substitute (op : BodyOp) (param : String) :
    Returns (op.substitute s param) fun o => ∀ k ∈ o, k.AllComplete := by
  unfold BodyOp.substitute
  cases s.lookup param with
  | none => exact .pure (by rintro _ ⟨⟩; exact ⟨trivial, trivial⟩)
  | some a =>
    cases op with
    | argu => exact .pure a.allComplete_toItem?
    | firstWord =>
      refine .pure fun k hk => ?_
      obtain ⟨word, -, rfl⟩ := Option.map_eq_some_iff.1 hk
      exact (ItemKind.isLeaf_ofWord word).allComplete (ItemKind.isComplete_ofWord word)
    | uniqueNotRefine =>
      dsimp only
      cases a.toUnrefined.name with
      | some n => exact .pure (by rintro _ ⟨⟩; exact ⟨trivial, trivial⟩)
      | none => exact .bind fun n => .pure (by rintro _ ⟨⟩; exact ⟨trivial, trivial⟩)
    | out =>
      dsimp only
      cases a.toExpr? with
      | some e => exact .pure (by rintro _ ⟨⟩; exact ⟨trivial, trivial⟩)
      | none => exact .throw _

mutual

/-- **Copies of complete statements are complete**, whatever the arguments are. -/
theorem Item.complete_substitute : ∀ i : Item, i.Everywhere Item.IsComplete →
    Returns (i.substitute s) fun o => ∀ j ∈ o, j.Everywhere Item.IsComplete
  | ⟨kind, range⟩, h => by
    rw [Item.substitute]
    refine (ItemKind.complete_substitute kind (Item.everywhere_iff.1 h)).bind_of fun k hk => ?_
    cases k with
    | none => exact .pure (by rintro _ ⟨⟩)
    | some k =>
      refine .pure ?_
      rintro _ ⟨⟩
      exact Item.everywhere_iff.2 (hk k rfl)

theorem ItemKind.complete_substitute : ∀ k : ItemKind, k.AllComplete →
    Returns (k.substitute s) fun o => ∀ l ∈ o, l.AllComplete
  | .expr e, _ => by
    rw [ItemKind.substitute, Expr.substituteItem]
    cases Substitution.passedThrough? s e with
    | some a => exact returns_lift (by rintro _ ⟨⟩; exact a.allComplete_toItem?)
    | none =>
      refine returns_lift fun o ho k hk => ?_
      obtain ⟨e', -, h⟩ := exists_of_bind_eq_ok ho
      cases h
      cases hk
      exact ⟨trivial, trivial⟩
  | .keyword word none, _ => by
    rw [ItemKind.substitute]
    exact .pure (by rintro _ ⟨⟩; exact ⟨trivial, trivial⟩)
  | .keyword word (some e), _ => by
    rw [ItemKind.substitute]
    exact returns_leaf fun _ _ => ⟨trivial, trivial⟩
  | .parameter p, _ => by
    rw [ItemKind.substitute]
    exact returns_leaf fun _ _ => ⟨trivial, trivial⟩
  | .equation e, _ => by
    rw [ItemKind.substitute]
    exact returns_leaf fun _ _ => ⟨trivial, trivial⟩
  | .assignment n e, _ => by
    rw [ItemKind.substitute]
    exact .bind fun m => returns_leaf fun _ _ => ⟨trivial, trivial⟩
  | .declaration scope p, h => by
    rw [ItemKind.substitute]
    refine returns_leaf fun q hq => ⟨trivial, ?_⟩
    have hform := Parameter.IsFilled.sameForm (.inl h.1.2) hq
    exact ⟨hform.name.trans h.1.1, hform.value.trans h.1.2⟩
  | .existing a, _ => by
    rw [ItemKind.substitute]
    exact .bind fun m => returns_leaf fun _ _ => ⟨trivial, trivial⟩
  | .site n members, h => by
    rw [ItemKind.substitute]
    refine .bind fun m => (Item.complete_substituteAll members h.2).bind_of fun js hjs => .pure ?_
    rintro _ ⟨⟩
    exact ⟨trivial, hjs⟩
  | .siteStatement t, h => by
    rw [ItemKind.substitute]
    exact returns_leaf fun t' ht => ⟨trivial, SiteStatement.IsComplete.substitute h.1 ht⟩
  | .directive d, _ => by
    rw [ItemKind.substitute]
    exact returns_leaf fun _ _ => ⟨trivial, trivial⟩
  | .macroDecl isList signatures body, h => by
    rw [ItemKind.substitute]
    exact .pure (by rintro _ ⟨⟩; exact h)
  | .conditional family chain, h => by
    rw [ItemKind.substitute]
    refine (Chain.complete_substitute chain h.2).bind_of fun c hc => .pure ?_
    rintro _ ⟨⟩
    exact ⟨trivial, hc⟩
  | .bodyOp op param, _ => by
    rw [ItemKind.substitute]
    exact BodyOp.complete_substitute s op param
  | .block items, h => by
    rw [ItemKind.substitute]
    refine (Item.complete_substituteAll items h.2).bind_of fun js hjs => .pure ?_
    rintro _ ⟨⟩
    exact ⟨trivial, hjs⟩

theorem Chain.complete_substitute : ∀ c : Chain, c.Everywhere Item.IsComplete →
    Returns (c.substitute s) (Chain.Everywhere Item.IsComplete)
  | .done, _ => by
    rw [Chain.substitute]
    exact .pure trivial
  | .otherwise items, h => by
    rw [Chain.substitute]
    exact (Item.complete_substituteAll items h).bind_of fun js hjs => .pure hjs
  | .branch condition items rest, h => by
    rw [Chain.substitute]
    refine .bind fun _ => ?_
    refine (Item.complete_substituteAll items h.1).bind_of fun js hjs => ?_
    exact (Chain.complete_substitute rest h.2).bind_of fun c hc => .pure ⟨hjs, hc⟩

theorem Item.complete_substituteAll : ∀ is : List Item, Item.AllEverywhere Item.IsComplete is →
    Returns (Item.substituteAll s is) (Item.AllEverywhere Item.IsComplete)
  | [], _ => by
    rw [Item.substituteAll]
    exact .pure trivial
  | i :: is, h => by
    rw [Item.substituteAll]
    refine (Item.complete_substitute i h.1).bind_of fun o ho => ?_
    refine (Item.complete_substituteAll is h.2).bind_of fun js hjs => .pure ?_
    cases o with
    | none => exact hjs
    | some j => exact ⟨ho j rfl, hjs⟩

end

end Copies

end ControlFile
