import ControlFile.Proofs.Expansion.Tracking
import ControlFile.Session

/-!
# Branches that are not taken

When a macro is called its body is copied before it is expanded, and all branches of a conditional
are copied, those that are not taken too.  So these matter in two ways: a copy can fail, and it can
give out unique names.  In no other way do they matter (`callWith_eq_of_alike`): branches that can be
copied, and that give out as many names, may stand in their place.

`Alike` relates two rows of items of a body that differ in one conditional, in what is not taken of
it; it says where the conditional is reached, by the run at which it is and the number `n` of unique
names that have been given out when it is copied.
-/

namespace ControlFile

namespace Expansion

open Expander (belowAt itemAt_eq)

/-- The copies of both rows, with names from the `n`th on, go as far as the `m`th name. -/
def BothCopied (s : Substitution) (n m : Nat) (is is' : List Item) : Prop :=
  ∃ js js', Item.substituteAll s is n = .ok js m ∧ Item.substituteAll s is' n = .ok js' m

/-- What an item of a body comes to once it has been copied. -/
def expandCopy (one : Item → Expansion (List Item)) : Option Item → Expansion (List Item)
  | some item => one item
  | none => return []

mutual

/-- The rows differ in one conditional, at any depth, and there in what is not taken. -/
inductive Alike (s : Substitution) (config : Config) (below : Below) (frame : Frame) :
    (n : Nat) → Run → List Item → List Item → Prop
  | conditional {n : Nat} {r : Run} {family : Family} {range : Extent} {c c' : Chain}
      {is : List Item} (h : AlikeChain s config below frame range n r c c') :
      Alike s config below frame n r (⟨.conditional family c, range⟩ :: is)
        (⟨.conditional family c', range⟩ :: is)
  | block {n : Nat} {r : Run} {range : Extent} {js js' is : List Item}
      (h : Alike s config below frame n r js js') :
      Alike s config below frame n r (⟨.block js, range⟩ :: is) (⟨.block js', range⟩ :: is)
  | site {n : Nat} {r : Run} {range : Extent} {name : String} {js js' is : List Item}
      (h : Alike s config below frame n r js js') :
      Alike s config below frame n r (⟨.site name js, range⟩ :: is) (⟨.site name js', range⟩ :: is)
  | later {n m : Nat} {r r' : Run} {i : Item} {j : Option Item} {produced is is' : List Item}
      (hcopy : i.substitute s n = .ok j m)
      (hrun : expandCopy (expandItem config below frame) j r = .ok produced r')
      (h : Alike s config below frame m r' is is') :
      Alike s config below frame n r (i :: is) (i :: is')

/-- The chains differ in what is not taken of them when they are reached at the run `r`. -/
inductive AlikeChain (s : Substitution) (config : Config) (below : Below) (frame : Frame) :
    (range : Extent) → (n : Nat) → Run → Chain → Chain → Prop
  | same {range : Extent} {n : Nat} {r : Run} {c : Chain} : AlikeChain s config below frame range n r c c
  | skipped {range : Extent} {n m : Nat} {r r' : Run} {condition copy : Condition}
      {is is' : List Item} {rest rest' : Chain} (hcopy : condition.substitute s = .ok copy)
      (hfalse : holds ⟨config, below, frame, range⟩ copy r = .ok false r')
      (hitems : BothCopied s n m is is')
      (hrest : AlikeChain s config below frame range m r' rest rest') :
      AlikeChain s config below frame range n r (.branch condition is rest)
        (.branch condition is' rest')
  | taken {range : Extent} {n m l : Nat} {r r' : Run} {condition copy : Condition}
      {is js : List Item} {rest rest' d d' : Chain} (hcopy : condition.substitute s = .ok copy)
      (htrue : holds ⟨config, below, frame, range⟩ copy r = .ok true r')
      (hitems : Item.substituteAll s is n = .ok js m)
      (hrest : rest.substitute s m = .ok d l) (hrest' : rest'.substitute s m = .ok d' l) :
      AlikeChain s config below frame range n r (.branch condition is rest)
        (.branch condition is rest')
  | inside {range : Extent} {n : Nat} {r r' : Run} {condition copy : Condition}
      {is is' : List Item} {rest : Chain} (hcopy : condition.substitute s = .ok copy)
      (htrue : holds ⟨config, below, frame, range⟩ copy r = .ok true r')
      (h : Alike s config below frame n r' is is') :
      AlikeChain s config below frame range n r (.branch condition is rest)
        (.branch condition is' rest)
  | insideElse {range : Extent} {n : Nat} {r : Run} {is is' : List Item}
      (h : Alike s config below frame n r is is') :
      AlikeChain s config below frame range n r (.otherwise is) (.otherwise is')

end

/-! ### Copies -/

section Copies

variable {s : Substitution} {n m : Nat} {config : Config} {below : Below} {frame : Frame} {r : Run}

theorem bind_copy_ok {α β : Type} {e : Substituting α} {f : α → Substituting β} {a : α} {l : Nat}
    (h : e n = .ok a l) : (e >>= f) n = f a l := by
  change EStateM.bind e f n = _
  rw [EStateM.bind, h]

/-- Names, expressions and conditions give out no unique names. -/
theorem lift_ok {α : Type} {x : Except Fault α} {a : α} {l : Nat}
    (h : (liftM x : Substituting α) n = .ok a l) : l = n := by
  cases x <;> cases h
  rfl

theorem substituteAll_cons_ok {i : Item} {is js : List Item}
    (h : Item.substituteAll s (i :: is) n = .ok js m) :
    ∃ j l ks, i.substitute s n = .ok j l ∧ Item.substituteAll s is l = .ok ks m ∧
      js = j.toList ++ ks := by
  rw [Item.substituteAll] at h
  obtain ⟨j, l, hj, h⟩ := exists_of_bind_ok h
  obtain ⟨ks, l', hks, h⟩ := exists_of_bind_ok h
  cases h
  exact ⟨j, l, ks, hj, hks, rfl⟩

theorem substituteAll_cons {i : Item} {is ks : List Item} {j : Option Item} {l : Nat}
    (hi : i.substitute s n = .ok j l) (his : Item.substituteAll s is l = .ok ks m) :
    Item.substituteAll s (i :: is) n = .ok (j.toList ++ ks) m := by
  rw [Item.substituteAll, bind_copy_ok hi, bind_copy_ok his]
  rfl

theorem substitute_ok {kind : ItemKind} {range : Extent} {j : Option Item}
    (h : (⟨kind, range⟩ : Item).substitute s n = .ok j m) :
    ∃ k, kind.substitute s n = .ok k m ∧ j = k.map (⟨·, range⟩) := by
  rw [Item.substitute] at h
  obtain ⟨k, l, hk, h⟩ := exists_of_bind_ok h
  cases k <;> cases h
  · exact ⟨_, hk, rfl⟩
  · exact ⟨_, hk, rfl⟩

theorem substitute_some {kind k : ItemKind} {range : Extent} (h : kind.substitute s n = .ok (some k) m) :
    (⟨kind, range⟩ : Item).substitute s n = .ok (some ⟨k, range⟩) m := by
  rw [Item.substitute, bind_copy_ok h]
  rfl

/-- Items that do the same once it is known that the run has not been cancelled do the same. -/
theorem expandItem_congr {k k' : ItemKind} {range : Extent}
    (h : expandKind ⟨config, below, frame, range⟩ k r = expandKind ⟨config, below, frame, range⟩ k' r) :
    expandItem config below frame ⟨k, range⟩ r = expandItem config below frame ⟨k', range⟩ r := by
  rw [expandItem, expandItem]
  by_cases hcancelled : config.watch.cancelled r.asked = true
  · have hcheck : checkCancelled config range r = .error ⟨.cancelled, range⟩ r := by
      change (if config.watch.cancelled r.asked = true then failAt range .cancelled else pure () :
        Expansion Unit) r = _
      rw [if_pos hcancelled]
      rfl
    rw [bind_of_error hcheck, bind_of_error hcheck]
  · have hcheck : checkCancelled config range r = .ok () r := by
      change (if config.watch.cancelled r.asked = true then failAt range .cancelled else pure () :
        Expansion Unit) r = _
      rw [if_neg hcancelled]
      rfl
    rw [bind_of_ok hcheck, bind_of_ok hcheck]
    exact h

/-- A change of the first item matters as much as it does by itself. -/
theorem expandItems_head_eq {kind kind' : ItemKind} {range : Extent} {is js : List Item}
    (h : ∀ o l, kind.substitute s n = .ok o l → ∃ k k', o = some k ∧
      kind'.substitute s n = .ok (some k') l ∧
      expandKind ⟨config, below, frame, range⟩ k r = expandKind ⟨config, below, frame, range⟩ k' r)
    (hjs : Item.substituteAll s (⟨kind, range⟩ :: is) n = .ok js m) :
    ∃ js', Item.substituteAll s (⟨kind', range⟩ :: is) n = .ok js' m ∧
      expandItems config below frame js r = expandItems config below frame js' r := by
  obtain ⟨j, l, ks, hj, hks, rfl⟩ := substituteAll_cons_ok hjs
  obtain ⟨o, ho, rfl⟩ := substitute_ok hj
  obtain ⟨k, k', rfl, hk', heq⟩ := h o l ho
  refine ⟨_, substituteAll_cons (substitute_some hk') hks, ?_⟩
  change expandItems config below frame (⟨k, range⟩ :: ks) r =
    expandItems config below frame (⟨k', range⟩ :: ks) r
  rw [expandItems, expandItems]
  exact bind_congr (expandItem_congr heq)

/-- An item that is not changed takes the run to where the rest is reached. -/
theorem expandItems_tail_eq {j : Option Item} {produced ks ks' : List Item} {r' : Run}
    (hrun : expandCopy (expandItem config below frame) j r = .ok produced r')
    (heq : expandItems config below frame ks r' = expandItems config below frame ks' r') :
    expandItems config below frame (j.toList ++ ks) r =
      expandItems config below frame (j.toList ++ ks') r := by
  cases j with
  | none =>
    cases hrun
    exact heq
  | some i =>
    have hi : expandItem config below frame i r = .ok produced r' := hrun
    change expandItems config below frame (i :: ks) r = expandItems config below frame (i :: ks') r
    rw [expandItems, expandItems, bind_of_ok hi, bind_of_ok hi]
    exact bind_congr heq

theorem substitute_branch {condition copy : Condition} {is js : List Item} {rest d : Chain} {l : Nat}
    (hcopy : condition.substitute s = .ok copy) (his : Item.substituteAll s is n = .ok js l)
    (hrest : rest.substitute s l = .ok d m) :
    (Chain.branch condition is rest).substitute s n = .ok (.branch copy js d) m := by
  have hlift : (liftM (condition.substitute s) : Substituting Condition) n = .ok copy n := by
    rw [hcopy]
    rfl
  rw [Chain.substitute, bind_copy_ok hlift, bind_copy_ok his, bind_copy_ok hrest]
  rfl

theorem substitute_branch_ok {condition copy : Condition} {is : List Item} {rest d : Chain}
    (hcopy : condition.substitute s = .ok copy)
    (h : (Chain.branch condition is rest).substitute s n = .ok d m) :
    ∃ js l d', Item.substituteAll s is n = .ok js l ∧ rest.substitute s l = .ok d' m ∧
      d = .branch copy js d' := by
  have hlift : (liftM (condition.substitute s) : Substituting Condition) n = .ok copy n := by
    rw [hcopy]
    rfl
  rw [Chain.substitute, bind_copy_ok hlift] at h
  obtain ⟨js, l, hjs, h⟩ := exists_of_bind_ok h
  obtain ⟨d', l', hd', h⟩ := exists_of_bind_ok h
  cases h
  exact ⟨js, l, d', hjs, hd', rfl⟩

end Copies

mutual

theorem Alike.expandItems_eq {s : Substitution} {config : Config} {below : Below} {frame : Frame}
    {n : Nat} {r : Run} {is is' : List Item} :
    Alike s config below frame n r is is' → ∀ js m, Item.substituteAll s is n = .ok js m →
      ∃ js', Item.substituteAll s is' n = .ok js' m ∧
        expandItems config below frame js r = expandItems config below frame js' r
  | .conditional h => fun js m hjs => by
    have hchain := h.expandChain_eq
    refine expandItems_head_eq (fun o l ho => ?_) hjs
    rw [ItemKind.substitute] at ho
    obtain ⟨d, l', hd, ho⟩ := exists_of_bind_ok ho
    cases ho
    obtain ⟨d', hd', heq⟩ := hchain d _ hd
    refine ⟨_, .conditional ‹Family› d', rfl, ?_, ?_⟩
    · rw [ItemKind.substitute, bind_copy_ok hd']
      rfl
    · rw [expandKind, expandKind, heq]
  | .block h => fun js m hjs => by
    have hitems := h.expandItems_eq
    refine expandItems_head_eq (fun o l ho => ?_) hjs
    rw [ItemKind.substitute] at ho
    obtain ⟨ks, l', hks, ho⟩ := exists_of_bind_ok ho
    cases ho
    obtain ⟨ks', hks', heq⟩ := hitems ks _ hks
    refine ⟨_, .block ks', rfl, ?_, ?_⟩
    · rw [ItemKind.substitute, bind_copy_ok hks']
      rfl
    · rw [expandKind, expandKind, heq]
  | .site h => fun js m hjs => by
    have hitems := h.expandItems_eq
    refine expandItems_head_eq (fun o l ho => ?_) hjs
    rw [ItemKind.substitute] at ho
    obtain ⟨name, l₁, hname, ho⟩ := exists_of_bind_ok ho
    obtain ⟨ks, l₂, hks, ho⟩ := exists_of_bind_ok ho
    cases ho
    obtain rfl := lift_ok hname
    obtain ⟨ks', hks', heq⟩ := hitems ks _ hks
    refine ⟨_, .site name ks', rfl, ?_, ?_⟩
    · rw [ItemKind.substitute, bind_copy_ok hname, bind_copy_ok hks']
      rfl
    · rw [expandKind, expandKind]
      exact bind_congr heq
  | .later hcopy hrun h => fun js m hjs => by
    have hitems := h.expandItems_eq
    obtain ⟨j, l, ks, hj, hks, rfl⟩ := substituteAll_cons_ok hjs
    rw [hcopy] at hj
    cases hj
    obtain ⟨ks', hks', heq⟩ := hitems ks _ hks
    refine ⟨_, substituteAll_cons hcopy hks', ?_⟩
    exact expandItems_tail_eq hrun heq

theorem AlikeChain.expandChain_eq {s : Substitution} {config : Config} {below : Below}
    {frame : Frame} {range : Extent} {n : Nat} {r : Run} {c c' : Chain} :
    AlikeChain s config below frame range n r c c' → ∀ d m, c.substitute s n = .ok d m →
      ∃ d', c'.substitute s n = .ok d' m ∧
        expandChain ⟨config, below, frame, range⟩ d r =
          expandChain ⟨config, below, frame, range⟩ d' r
  | .same => fun d m hd => ⟨d, hd, rfl⟩
  | .skipped hcopy hfalse hitems hrest => fun d m hd => by
    have hchain := hrest.expandChain_eq
    obtain ⟨js, js', hjs, hjs'⟩ := hitems
    obtain ⟨js₁, l, d₁, hjs₁, hd₁, rfl⟩ := substitute_branch_ok hcopy hd
    rw [hjs] at hjs₁
    cases hjs₁
    obtain ⟨d₁', hd₁', heq⟩ := hchain d₁ m hd₁
    refine ⟨_, substitute_branch hcopy hjs' hd₁', ?_⟩
    rw [expandChain, expandChain, bind_of_ok hfalse, bind_of_ok hfalse]
    exact heq
  | .taken hcopy htrue hitems hrest hrest' => fun d m hd => by
    obtain ⟨js₁, l, d₁, hjs₁, hd₁, rfl⟩ := substitute_branch_ok hcopy hd
    rw [hitems] at hjs₁
    cases hjs₁
    rw [hrest] at hd₁
    cases hd₁
    refine ⟨_, substitute_branch hcopy hitems hrest', ?_⟩
    rw [expandChain, expandChain, bind_of_ok htrue, bind_of_ok htrue]
    rfl
  | .inside hcopy htrue h => fun d m hd => by
    have hitems := h.expandItems_eq
    obtain ⟨js, l, d₁, hjs, hd₁, rfl⟩ := substitute_branch_ok hcopy hd
    obtain ⟨js', hjs', heq⟩ := hitems js l hjs
    refine ⟨_, substitute_branch hcopy hjs' hd₁, ?_⟩
    rw [expandChain, expandChain, bind_of_ok htrue, bind_of_ok htrue]
    exact heq
  | .insideElse h => fun d m hd => by
    have hitems := h.expandItems_eq
    rw [Chain.substitute] at hd
    obtain ⟨ks, l', hks, hd⟩ := exists_of_bind_ok hd
    cases hd
    obtain ⟨ks', hks', heq⟩ := hitems ks _ hks
    refine ⟨.otherwise ks', ?_, ?_⟩
    · rw [Chain.substitute, bind_copy_ok hks']
      rfl
    · rw [expandChain, expandChain, heq]

end

/-! ### Calls -/

/-- A call of a macro once the macro has been found. -/
def callEntry (place : Place) (name : String) (count : Nat) (bind : Signature → Expansion Bindings)
    (entry : MacroEntry) : Expansion (List Item) := do
  if count ≠ entry.arity ∧ ¬(count = 0 ∧ entry.arity = 1) then
    failAt place.range (.arityMismatch name entry.arity count)
  else
    match place.below with
    | none => failAt place.range (.depthExceeded name place.config.options.maxDepth)
    | some below =>
      let bound ← bind entry.signature
      let unique ← nextUnique
      let items ← relocating place.range
        (expandBody ⟨bound, unique⟩ place.range (below (place.frame.inCall place.range)) entry.body)
      return items.map fun i => { i with range := place.range }

theorem callWith_eq (place : Place) {name : String} (count : Nat)
    (bind : Signature → Expansion Bindings) {entry : MacroEntry} {r : Run}
    (hentry : r.tables.macros.get? name = some entry) :
    callWith place name count bind r = callEntry place name count bind entry r := by
  have htables : tables r = .ok r.tables r := rfl
  rw [callWith, bind_of_ok htables, hentry]
  rfl

/-- The bodies differ in one conditional, in what is not taken of it when they are expanded from `r` on,
copied with `s`. -/
inductive AlikeBody (s : Substitution) (range : Extent) (config : Config) (below : Below)
    (frame : Frame) : Run → List Item → List Item → Prop
  | here {r : Run} {m : Nat} {i i' : Item} {j : Option Item} {is : List Item}
      (hcopy : i.substitute s r.tables.uniqueCount = .ok j m)
      (h : Alike s config below frame r.tables.uniqueCount
        { r with tables := r.tables.withUniqueCount m } [i] [i']) :
      AlikeBody s range config below frame r (i :: is) (i' :: is)
  | later {r r₁ r₂ : Run} {i : Item} {j : Option Item} {produced is is' : List Item}
      (hcopy : substitute s range i r = .ok j r₁)
      (hrun : expandCopy (expandItem config below frame) j r₁ = .ok produced r₂)
      (h : AlikeBody s range config below frame r₂ is is') :
      AlikeBody s range config below frame r (i :: is) (i :: is')

theorem expandItems_toList (config : Config) (below : Below) (frame : Frame) (j : Option Item)
    (r : Run) : expandItems config below frame j.toList r =
      expandCopy (expandItem config below frame) j r := by
  cases j with
  | none => rfl
  | some i =>
    change expandItems config below frame [i] r = expandItem config below frame i r
    rw [expandItems]
    cases hi : expandItem config below frame i r with
    | error d r' => exact bind_of_error hi
    | ok produced r' =>
      rw [bind_of_ok hi, expandItems]
      change EStateM.Result.ok (produced ++ []) r' = _
      rw [List.append_nil]

theorem expandBody_cons (s : Substitution) (range : Extent) (one : Item → Expansion (List Item))
    (i : Item) (is : List Item) :
    expandBody s range one (i :: is) = (do
      let j ← substitute s range i
      let produced ← expandCopy one j
      let rest ← expandBody s range one is
      return produced ++ rest) := by
  rw [expandBody]
  congr 1
  funext j
  cases j <;> rfl

theorem substitute_run_ok {s : Substitution} {i : Item} {j : Option Item} {m : Nat} {r : Run}
    (h : i.substitute s r.tables.uniqueCount = .ok j m) (range : Extent) :
    substitute s range i r = .ok j { r with tables := r.tables.withUniqueCount m } := by
  unfold substitute
  rw [h]
  rfl

theorem AlikeBody.expandBody_eq {s : Substitution} {range : Extent} {config : Config} {below : Below}
    {frame : Frame} {r : Run} {is is' : List Item}
    (h : AlikeBody s range config below frame r is is') :
    expandBody s range (expandItem config below frame) is r =
      expandBody s range (expandItem config below frame) is' r := by
  induction h with
  | @here r m i i' j is hcopy h =>
    obtain ⟨js', hjs', heq⟩ := h.expandItems_eq _ m (substituteAll_cons hcopy rfl)
    obtain ⟨j', l, ks, hj', hks, rfl⟩ := substituteAll_cons_ok hjs'
    cases hks
    rw [List.append_nil, List.append_nil, expandItems_toList, expandItems_toList] at heq
    rw [expandBody_cons, expandBody_cons, bind_of_ok (substitute_run_ok hcopy range),
      bind_of_ok (substitute_run_ok hj' range)]
    exact bind_congr heq
  | later hcopy hrun h ih =>
    rw [expandBody_cons, expandBody_cons, bind_of_ok hcopy, bind_of_ok hcopy, bind_of_ok hrun,
      bind_of_ok hrun]
    exact bind_congr ih

/-- **What is not taken does not matter, if it can be copied.**  A macro is called in any state, with
any arguments.  Another body stands in the place of its body; the two differ in one conditional, at
any depth, and there only in items of branches whose conditions do not hold when it is reached, or in
what stands behind the branch that is taken: items, conditions and the else part.  These can be copied
in both bodies, and give out as many unique names.  Then the call comes to the same: the same items or
the same failure, the same tables and the same number of unique names.

Only the body that this call copies is another one.  The tables are the same on both sides, so a call of
the macro from inside its body still has the body that the tables know. -/
theorem callWith_eq_of_alike (config : Config) (levels : Nat) (frame : Frame) (range : Extent)
    (name : String) (count : Nat) (bind : Signature → Expansion Bindings) (entry : MacroEntry)
    (body : List Item) (r : Run) (hentry : r.tables.macros.get? name = some entry)
    (h : ∀ bound r' l, levels = l + 1 → bind entry.signature r = .ok bound r' →
      AlikeBody ⟨bound, r'.tables.nextUnique.1⟩ range config (belowAt config l) (frame.inCall range)
        { r' with tables := r'.tables.nextUnique.2 } entry.body body) :
    callWith ⟨config, belowAt config levels, frame, range⟩ name count bind r =
      callEntry ⟨config, belowAt config levels, frame, range⟩ name count bind { entry with body } r := by
  rw [callWith_eq _ count bind hentry]
  unfold callEntry
  by_cases hcount : count ≠ entry.arity ∧ ¬(count = 0 ∧ entry.arity = 1)
  · have hcount' : count ≠ (MacroEntry.mk entry.signature body).arity ∧
        ¬(count = 0 ∧ (MacroEntry.mk entry.signature body).arity = 1) := hcount
    rw [if_pos hcount, if_pos hcount']
    rfl
  · have hcount' : ¬(count ≠ (MacroEntry.mk entry.signature body).arity ∧
        ¬(count = 0 ∧ (MacroEntry.mk entry.signature body).arity = 1)) := hcount
    rw [if_neg hcount, if_neg hcount']
    cases levels with
    | zero => rfl
    | succ l =>
      cases hbind : bind entry.signature r with
      | error d r' => exact (bind_of_error hbind).trans (bind_of_error hbind).symm
      | ok bound r' =>
        refine (bind_of_ok hbind).trans (.trans ?_ (bind_of_ok hbind).symm)
        have hbody := (h bound r' l rfl hbind).expandBody_eq
        have hitem : itemAt config l (frame.inCall range) =
            expandItem config (belowAt config l) (frame.inCall range) :=
          funext (itemAt_eq config l (frame.inCall range))
        change (relocating range (expandBody ⟨bound, r'.tables.nextUnique.1⟩ range
            (itemAt config l (frame.inCall range)) entry.body) >>= _)
            { r' with tables := r'.tables.nextUnique.2 } =
          (relocating range (expandBody ⟨bound, r'.tables.nextUnique.1⟩ range
            (itemAt config l (frame.inCall range)) body) >>= _) _
        refine bind_congr ?_
        unfold relocating
        rw [hitem, hbody]

/-! ### A call -/

/-- `macro m(a) { #ifdef X .. #endif }`, with the given items in the branch. -/
def guarded (items : List Item) : MacroEntry :=
  ⟨⟨"m", false, [⟨some "a", false⟩], true, ⟨6, 10⟩⟩,
    [⟨.conditional .document (.branch (.defined "X" false) items .done), ⟨13, 34⟩⟩]⟩

/-- Where `m` is declared, and `X` is not defined. -/
def guardedRun (items : List Item) : Run :=
  ⟨⟨⟨[("m", guarded items)], []⟩, [], [], [], 0⟩, [], [], []⟩

/-- The equation `= a`. -/
def assignsArgument : Item := ⟨.equation ⟨.set, .ident "a", none⟩, ⟨22, 26⟩⟩

/-- With an argument that the branch can be copied with, other items may stand in it. -/
theorem callWith_eq_of_alike_guarded :
    (guardedRun [assignsArgument]).tables.macros.get? "m" = some (guarded [assignsArgument]) ∧
      callWith ⟨Session.standard.config, belowAt Session.standard.config 1, .root, ⟨35, 39⟩⟩ "m" 1
          (fun _ => return [("a", .expr (.literal (.integer 1)))]) (guardedRun [assignsArgument]) =
        callEntry ⟨Session.standard.config, belowAt Session.standard.config 1, .root, ⟨35, 39⟩⟩ "m" 1
          (fun _ => return [("a", .expr (.literal (.integer 1)))]) (guarded [])
          (guardedRun [assignsArgument]) := by
  refine ⟨rfl, callWith_eq_of_alike Session.standard.config 1 .root ⟨35, 39⟩ "m" 1
    (fun _ => return [("a", .expr (.literal (.integer 1)))]) (guarded [assignsArgument])
    (guarded []).body (guardedRun [assignsArgument]) rfl ?_⟩
  intro bound r' l hl hbind
  cases hbind
  exact .here rfl (.conditional (.skipped rfl rfl ⟨_, _, rfl, rfl⟩ .same))

/-- With an argument that the branch cannot be copied with the call fails, though the branch is not
taken. -/
theorem untaken_branch_matters :
    (∃ r, callEntry ⟨Session.standard.config, belowAt Session.standard.config 1, .root, ⟨35, 38⟩⟩ "m" 0
        (fun _ => return [("a", .hole)]) (guarded [assignsArgument])
        (guardedRun [assignsArgument]) = .error ⟨.argument (.notAnExpression "a"), ⟨35, 38⟩⟩ r) ∧
      (∃ r, callEntry ⟨Session.standard.config, belowAt Session.standard.config 1, .root, ⟨35, 38⟩⟩ "m"
        0 (fun _ => return [("a", .hole)]) (guarded [])
        (guardedRun [assignsArgument]) = .ok [] r) ∧
      holds ⟨Session.standard.config, belowAt Session.standard.config 0, .root, ⟨13, 34⟩⟩
        (.defined "X" false) (guardedRun [assignsArgument]) =
        .ok false (guardedRun [assignsArgument]) :=
  ⟨⟨_, rfl⟩, ⟨_, rfl⟩, rfl⟩

end Expansion

end ControlFile
