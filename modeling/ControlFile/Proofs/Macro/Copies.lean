import ControlFile.Proofs.Macro.Unmarked

/-!
# Copies of a body

Each call of a macro makes a copy of its body.  If the body is unmarked, the copies for the same
arguments differ in one thing: parameters that are kept out of the refinement have got different
unique names.  `Item.Twins` says so of two rows of items, and that the bodies of the macros in them
are unmarked again.

* `Item.Twins.refl`: unmarked items are twins of themselves.
* `Item.twins_substitute`: two copies of an unmarked item are twins, whatever names have been given
  out before either of them.
-/

namespace ControlFile

/-- A sequence of steps that succeeds is read one step at a time. -/
theorem exists_of_bind_ok {ε σ α β : Type} {e : EStateM ε σ α} {g : α → EStateM ε σ β} {s s' : σ}
    {b : β} (h : (e >>= g) s = .ok b s') : ∃ a s₁, e s = .ok a s₁ ∧ g a s₁ = .ok b s' := by
  change EStateM.bind e g s = _ at h
  unfold EStateM.bind at h
  cases he : e s with
  | ok a s₁ =>
    rw [he] at h
    exact ⟨a, s₁, rfl, h⟩
  | error f s₁ =>
    rw [he] at h
    cases h

/-- There is no place for items in it. -/
def ItemKind.IsLeaf : ItemKind → Prop
  | .site .. | .macroDecl .. | .conditional .. | .block _ => False
  | _ => True

/-! ### Twins -/

mutual

/-- Copies of one thing, which differ in the marks and names of parameters. -/
inductive ItemKind.Twin : ItemKind → ItemKind → Prop
  | leaf {k : ItemKind} (h : k.IsLeaf) : ItemKind.Twin k k
  | parameter {mark mark' : Refinement} {n n' : Option String} {w : Value} :
      ItemKind.Twin (.parameter ⟨mark, n, w⟩) (.parameter ⟨mark', n', w⟩)
  | macroDecl {isList : Bool} {signatures : List Signature} {body : List Item}
      (h : ∀ i ∈ body, i.Everywhere Item.Unmarked) :
      ItemKind.Twin (.macroDecl isList signatures body) (.macroDecl isList signatures body)
  | site {name : String} {is is' : List Item} (h : Item.Twins is is') :
      ItemKind.Twin (.site name is) (.site name is')
  | conditional {family : Family} {c c' : Chain} (h : Chain.Twin c c') :
      ItemKind.Twin (.conditional family c) (.conditional family c')
  | block {is is' : List Item} (h : Item.Twins is is') : ItemKind.Twin (.block is) (.block is')

inductive Chain.Twin : Chain → Chain → Prop
  | done : Chain.Twin .done .done
  | otherwise {is is' : List Item} (h : Item.Twins is is') :
      Chain.Twin (.otherwise is) (.otherwise is')
  | branch {condition : Condition} {is is' : List Item} {rest rest' : Chain}
      (h : Item.Twins is is') (hrest : Chain.Twin rest rest') :
      Chain.Twin (.branch condition is rest) (.branch condition is' rest')

inductive Item.Twins : List Item → List Item → Prop
  | nil : Item.Twins [] []
  | cons {i i' : Item} {is is' : List Item} (h : ItemKind.Twin i.kind i'.kind)
      (his : Item.Twins is is') : Item.Twins (i :: is) (i' :: is')

end

mutual

theorem ItemKind.Twin.refl : ∀ k : ItemKind, k.Everywhere Item.Unmarked → k.Twin k
  | .site _ members, h => .site (Item.Twins.refl members h)
  | .macroDecl _ _ _, h => .macroDecl (Item.allEverywhere_iff.1 h)
  | .conditional _ chain, h => .conditional (Chain.Twin.refl chain h)
  | .block items, h => .block (Item.Twins.refl items h)
  | .keyword .., _ | .expr _, _ | .parameter _, _ | .equation _, _ | .assignment .., _
  | .declaration .., _ | .existing _, _ | .siteStatement _, _ | .directive _, _
  | .bodyOp .., _ => .leaf trivial

theorem Chain.Twin.refl : ∀ c : Chain, c.Everywhere Item.Unmarked → c.Twin c
  | .done, _ => .done
  | .otherwise items, h => .otherwise (Item.Twins.refl items h)
  | .branch _ items rest, h => .branch (Item.Twins.refl items h.1) (Chain.Twin.refl rest h.2)

theorem Item.Twins.refl : ∀ is : List Item, Item.AllEverywhere Item.Unmarked is → Item.Twins is is
  | [], _ => .nil
  | ⟨kind, _⟩ :: is, h =>
    .cons (ItemKind.Twin.refl kind (Item.everywhere_iff.1 h.1).2) (Item.Twins.refl is h.2)

end

/-! ### Substitution makes twins -/

namespace Substituting

variable {α β : Type} {R : α → α → Prop} {R' : β → β → Prop}

/-- If the first step succeeds, then so does the second one from any number of unique names on, with
a result that `R` relates to the first. -/
def Repeats (R : α → α → Prop) (e e' : Substituting α) : Prop :=
  ∀ n a m, e n = .ok a m → ∀ n', ∃ a' m', e' n' = .ok a' m' ∧ R a a'

namespace Repeats

theorem pure {a a' : α} (h : R a a') : Repeats R (Pure.pure a) (Pure.pure a') := by
  rintro n _ _ ⟨⟩ n'
  exact ⟨a', n', rfl, h⟩

theorem lift (x : Except Fault α) : Repeats Eq (liftM x : Substituting α) (liftM x) := by
  cases x with
  | error fault => rintro n _ _ ⟨⟩
  | ok a => exact .pure rfl

theorem bind {e e' : Substituting α} {f f' : α → Substituting β} (h : Repeats R e e')
    (hf : ∀ a a', R a a' → Repeats R' (f a) (f' a')) : Repeats R' (e >>= f) (e' >>= f') := by
  intro n b m hrun n'
  obtain ⟨a, l, ha, hb⟩ := exists_of_bind_ok hrun
  obtain ⟨a', l', ha', haa'⟩ := h n a l ha n'
  obtain ⟨b', m', hb', hbb'⟩ := hf a a' haa' l b m hb l'
  refine ⟨b', m', ?_, hbb'⟩
  change EStateM.bind e' f' n' = _
  rw [EStateM.bind, ha']
  exact hb'

/-- What is computed without unique names is the same both times. -/
theorem lift_bind {x : Except Fault α} {f : α → Substituting β}
    (h : ∀ a, Repeats R' (f a) (f a)) :
    Repeats R' ((liftM x : Substituting α) >>= f) ((liftM x : Substituting α) >>= f) := by
  refine .bind (.lift x) ?_
  rintro a _ rfl
  exact h a

end Repeats

end Substituting

open Substituting (Repeats)

/-- Both copies are dropped, or they are twins. -/
abbrev ItemKind.Twin? : Option ItemKind → Option ItemKind → Prop := Option.Rel ItemKind.Twin

abbrev Item.Twin? : Option Item → Option Item → Prop :=
  Option.Rel fun i i' => i.kind.Twin i'.kind

theorem ItemKind.isLeaf_ofWord (word : String) : (ofWord word).IsLeaf := by
  unfold ofWord
  grind [ItemKind.IsLeaf]

theorem ItemKind.twin?_of_isLeaf {k : Option ItemKind} (h : ∀ l, k = some l → l.IsLeaf) :
    Twin? k k := by
  cases k with
  | none => exact .none
  | some l => exact .some (.leaf (h l rfl))

namespace Argument

theorem isLeaf_toItem? (a : Argument) : ∀ k, a.toItem? = some k → k.IsLeaf := by
  cases a <;> rintro k ⟨⟩ <;> trivial

theorem isLeaf_firstWord? (a : Argument) : ∀ k, a.firstWord? = some k → k.IsLeaf := by
  intro k h
  obtain ⟨word, -, rfl⟩ := Option.map_eq_some_iff.1 h
  exact ItemKind.isLeaf_ofWord word

end Argument

section Copies

variable (s : Substitution)

theorem BodyOp.twins_substitute (op : BodyOp) (param : String) :
    Repeats ItemKind.Twin? (op.substitute s param) (op.substitute s param) := by
  unfold BodyOp.substitute
  cases s.lookup param with
  | none => exact .pure (.some (.leaf trivial))
  | some a =>
    cases op with
    | argu => exact .pure (ItemKind.twin?_of_isLeaf a.isLeaf_toItem?)
    | firstWord => exact .pure (ItemKind.twin?_of_isLeaf a.isLeaf_firstWord?)
    | uniqueNotRefine =>
      simp only
      obtain ⟨mark, n, w⟩ := a.toUnrefined
      cases n with
      | some n => exact .pure (.some .parameter)
      | none =>
        have hnext : Repeats (fun _ _ => True) Substituting.nextUnique Substituting.nextUnique :=
          fun _ _ _ _ n' => ⟨_, _, rfl, trivial⟩
        exact .bind hnext fun _ _ _ => .pure (.some .parameter)
    | out =>
      simp only
      cases a.toExpr? with
      | none => rintro n _ _ ⟨⟩
      | some e => exact .pure (.some (.leaf trivial))

mutual

theorem Item.twins_substitute : ∀ i : Item, i.Everywhere Item.Unmarked →
    Repeats Item.Twin? (i.substitute s) (i.substitute s)
  | ⟨kind, range⟩, h => by
    rw [Item.substitute]
    refine .bind (ItemKind.twins_substitute kind (Item.everywhere_iff.1 h).2) fun k k' hk => ?_
    cases hk with
    | none => exact .pure .none
    | some hk => exact .pure (.some hk)

theorem ItemKind.twins_substitute : ∀ k : ItemKind, k.Everywhere Item.Unmarked →
    Repeats ItemKind.Twin? (k.substitute s) (k.substitute s)
  | .expr e, _ => by
    rw [ItemKind.substitute, Expr.substituteItem]
    cases Substitution.passedThrough? s e with
    | some a => exact .pure (ItemKind.twin?_of_isLeaf a.isLeaf_toItem?)
    | none =>
      simp only
      cases e.substitute s with
      | error fault => rintro n _ _ ⟨⟩
      | ok e' => exact .pure (.some (.leaf trivial))
  | .keyword word none, _ => by
    rw [ItemKind.substitute]
    exact .pure (.some (.leaf trivial))
  | .keyword word (some e), _ => by
    rw [ItemKind.substitute]
    exact .lift_bind fun _ => .pure (.some (.leaf trivial))
  | .parameter p, _ => by
    rw [ItemKind.substitute]
    exact .lift_bind fun _ => .pure (.some (.leaf trivial))
  | .equation e, _ => by
    rw [ItemKind.substitute]
    exact .lift_bind fun _ => .pure (.some (.leaf trivial))
  | .assignment n e, _ => by
    rw [ItemKind.substitute]
    exact .lift_bind fun _ => .lift_bind fun _ => .pure (.some (.leaf trivial))
  | .declaration scope p, _ => by
    rw [ItemKind.substitute]
    exact .lift_bind fun _ => .pure (.some (.leaf trivial))
  | .existing a, _ => by
    rw [ItemKind.substitute]
    exact .lift_bind fun _ => .lift_bind fun _ => .pure (.some (.leaf trivial))
  | .site n members, h => by
    rw [ItemKind.substitute]
    refine .lift_bind fun _ => ?_
    exact .bind (Item.twins_substituteAll members h) fun _ _ hms => .pure (.some (.site hms))
  | .siteStatement t, _ => by
    rw [ItemKind.substitute]
    exact .lift_bind fun _ => .pure (.some (.leaf trivial))
  | .directive d, _ => by
    rw [ItemKind.substitute]
    exact .lift_bind fun _ => .pure (.some (.leaf trivial))
  | .macroDecl isList signatures body, h => by
    rw [ItemKind.substitute]
    exact .pure (.some (.macroDecl (Item.allEverywhere_iff.1 h)))
  | .conditional family chain, h => by
    rw [ItemKind.substitute]
    exact .bind (Chain.twins_substitute chain h) fun _ _ hc => .pure (.some (.conditional hc))
  | .bodyOp op param, _ => by
    rw [ItemKind.substitute]
    exact BodyOp.twins_substitute s op param
  | .block items, h => by
    rw [ItemKind.substitute]
    exact .bind (Item.twins_substituteAll items h) fun _ _ his => .pure (.some (.block his))

theorem Chain.twins_substitute : ∀ c : Chain, c.Everywhere Item.Unmarked →
    Repeats Chain.Twin (c.substitute s) (c.substitute s)
  | .done, _ => by
    rw [Chain.substitute]
    exact .pure .done
  | .otherwise items, h => by
    rw [Chain.substitute]
    exact .bind (Item.twins_substituteAll items h) fun _ _ his => .pure (.otherwise his)
  | .branch condition items rest, h => by
    rw [Chain.substitute]
    refine .lift_bind fun _ => ?_
    refine .bind (Item.twins_substituteAll items h.1) fun _ _ his => ?_
    exact .bind (Chain.twins_substitute rest h.2) fun _ _ hrest => .pure (.branch his hrest)

theorem Item.twins_substituteAll : ∀ is : List Item, Item.AllEverywhere Item.Unmarked is →
    Repeats Item.Twins (Item.substituteAll s is) (Item.substituteAll s is)
  | [], _ => by
    rw [Item.substituteAll]
    exact .pure .nil
  | i :: is, h => by
    rw [Item.substituteAll]
    refine .bind (Item.twins_substitute i h.1) fun j j' hj => ?_
    refine .bind (Item.twins_substituteAll is h.2) fun js js' hjs => .pure ?_
    cases hj with
    | none => exact hjs
    | some hj => exact .cons hj hjs

end

end Copies

/-- **Copies of an unmarked item are twins**, whatever their unique names are. -/
theorem Item.exists_twin_copy {i : Item} (h : i.Everywhere Item.Unmarked) {bound : Bindings}
    {u : String} {n m : Nat} {j : Option Item} (hj : i.substitute ⟨bound, u⟩ n = .ok j m)
    (u' : String) (n' : Nat) :
    ∃ j' m', i.substitute ⟨bound, u'⟩ n' = .ok j' m' ∧ Item.Twin? j j' := by
  have hunique : i.substitute ⟨bound, u⟩ = i.substitute ⟨bound, u'⟩ := h.self bound u u'
  rw [hunique] at hj
  exact Item.twins_substitute ⟨bound, u'⟩ i h n j m hj n'

end ControlFile
