import ControlFile.Macro.Substitution

/-!
# The unique names that substitution returns

Substitution counts the unique names that it gives out and forgets them.  Here it is done once more, with
a note of each name that is returned; whether two of these names are the same, or a name comes from
somewhere else, can only be said of such a record.

`Item.notes_note` says that a copy that is noted is the copy, and fails where the copy does; and if the
names noted before it are the first unique names, then so are those noted behind it, as many as there are
by the count.
-/

namespace ControlFile

/-- The first `n` unique names, in their order. -/
def uniqueNames (n : Nat) : List String := (List.range n).map fun i => uniqueName (i + 1)

theorem uniqueNames_succ (n : Nat) : uniqueNames (n + 1) = uniqueNames n ++ [uniqueName (n + 1)] := by
  simp [uniqueNames, List.range_succ]

/-- Substitution with a record: the state is the number of the names that have been given out, and the
names that have been returned, in their order. -/
abbrev Noting := EStateM Fault (Nat × List String)

instance : MonadLift (Except Fault) Noting where
  monadLift
    | .ok a => fun s => .ok a s
    | .error f => fun s => .error f s

namespace Noting

/-- The next unique name; what is returned is noted. -/
def nextUnique : Noting String := fun (n, given) =>
  match Substituting.nextUnique n with
  | .ok name m => .ok name (m, given ++ [name])
  | .error fault m => .error fault (m, given)

end Noting

def BodyOp.note (s : Substitution) (op : BodyOp) (param : String) : Noting (Option ItemKind) := do
  match s.lookup param with
  | none => return some (.bodyOp op param)
  | some a =>
    match op with
    | .argu => return a.toItem?
    | .firstWord => return a.firstWord?
    | .uniqueNotRefine =>
      let p := a.toUnrefined
      match p.name with
      | some _ => return some (.parameter p)
      | none => return some (.parameter { p with name := some (← Noting.nextUnique) })
    | .out =>
      match a.toExpr? with
      | some e => return some (.directive (.out e))
      | none => throw (.argument (.noValue param))

mutual

def Item.note (s : Substitution) : Item → Noting (Option Item)
  | ⟨kind, range⟩ => do
    match ← kind.note s with
    | some k => return some ⟨k, range⟩
    | none => return none

def ItemKind.note (s : Substitution) : ItemKind → Noting (Option ItemKind)
  | .expr e => e.substituteItem s
  | .keyword word none => return some (.keyword word none)
  | .keyword word (some equation) => do return some (.keyword word (some (← equation.substitute s)))
  | .parameter p => do return some (.parameter (← p.substitute s))
  | .equation e => do return some (.equation (← e.substitute s))
  | .assignment n e => do
    let m ← s.name n
    return some (.assignment m (← e.substitute s))
  | .declaration scope p => do return some (.declaration scope (← p.substitute s))
  | .existing a => do
    let m ← s.name a.name
    return some (.existing ⟨a.refinement, m, ← a.equation.substitute s⟩)
  | .site n members => do
    let m ← s.name n
    return some (.site m (← Item.noteAll s members))
  | .siteStatement statement => do return some (.siteStatement (← statement.substitute s))
  | .directive d => do return some (.directive (← d.substitute s))
  | .macroDecl isList signatures body => return some (.macroDecl isList signatures body)
  | .conditional family chain => do return some (.conditional family (← chain.note s))
  | .bodyOp op param => op.note s param
  | .block items => do return some (.block (← Item.noteAll s items))

def Chain.note (s : Substitution) : Chain → Noting Chain
  | .done => return .done
  | .otherwise items => do return .otherwise (← Item.noteAll s items)
  | .branch condition items rest => do
    let c ← condition.substitute s
    let is ← Item.noteAll s items
    return .branch c is (← rest.note s)

def Item.noteAll (s : Substitution) : List Item → Noting (List Item)
  | [] => return []
  | i :: is => do
    let j ← i.note s
    let js ← Item.noteAll s is
    return j.toList ++ js

end

/-! ### The record keeps up with the count -/

/-- `q` does what `p` does, and the record keeps up with the count: if the names noted before are the
first unique names, then all names noted behind it are. -/
def Notes {α : Type} (p : Substituting α) (q : Noting α) : Prop :=
  ∀ n given, match p n with
    | .ok a m => ∃ given', q (n, given) = .ok a (m, given') ∧
        (given = uniqueNames n → given' = uniqueNames m)
    | .error fault m => ∃ given', q (n, given) = .error fault (m, given') ∧
        (given = uniqueNames n → given' = uniqueNames m)

namespace Notes

variable {α β : Type}

theorem pure (a : α) : Notes (Pure.pure a) (Pure.pure a) := fun _ given => ⟨given, rfl, id⟩

theorem throw (fault : Fault) :
    Notes (MonadExcept.throw fault : Substituting α) (MonadExcept.throw fault) :=
  fun _ given => ⟨given, rfl, id⟩

/-- What is only computed gives out no names. -/
theorem lift (x : Except Fault α) : Notes (liftM x) (liftM x) := by
  intro n given
  cases x with
  | ok a => exact ⟨given, rfl, id⟩
  | error fault => exact ⟨given, rfl, id⟩

/-- **The name that is returned is the next one.** -/
theorem nextUnique : Notes Substituting.nextUnique Noting.nextUnique := by
  intro n given
  refine ⟨given ++ [uniqueName (n + 1)], rfl, ?_⟩
  rintro rfl
  exact (uniqueNames_succ n).symm

theorem bind {p : Substituting α} {q : Noting α} {f : α → Substituting β} {g : α → Noting β}
    (h : Notes p q) (hf : ∀ a, Notes (f a) (g a)) : Notes (p >>= f) (q >>= g) := by
  intro n given
  have hstep := h n given
  rw [show (p >>= f) n = EStateM.bind p f n from rfl,
    show (q >>= g) (n, given) = EStateM.bind q g (n, given) from rfl, EStateM.bind, EStateM.bind]
  cases hp : p n with
  | error fault m =>
    rw [hp] at hstep
    obtain ⟨given', hq, hgiven⟩ := hstep
    exact ⟨given', by rw [hq], hgiven⟩
  | ok a m =>
    rw [hp] at hstep
    obtain ⟨given', hq, hgiven⟩ := hstep
    have hrest := hf a m given'
    simp only [hq]
    cases hb : f a m with
    | ok b l =>
      rw [hb] at hrest
      obtain ⟨given'', hg, hgiven'⟩ := hrest
      exact ⟨given'', hg, fun h => hgiven' (hgiven h)⟩
    | error fault l =>
      rw [hb] at hrest
      obtain ⟨given'', hg, hgiven'⟩ := hrest
      exact ⟨given'', hg, fun h => hgiven' (hgiven h)⟩

end Notes

variable {s : Substitution}

theorem BodyOp.notes_note (op : BodyOp) (param : String) :
    Notes (op.substitute s param) (op.note s param) := by
  unfold BodyOp.substitute BodyOp.note
  cases s.lookup param with
  | none => exact .pure _
  | some a =>
    cases op with
    | argu => exact .pure _
    | firstWord => exact .pure _
    | uniqueNotRefine =>
      dsimp only
      cases a.toUnrefined.name with
      | some n => exact .pure _
      | none => exact .bind .nextUnique fun u => .pure _
    | out =>
      dsimp only
      cases a.toExpr? with
      | some e => exact .pure _
      | none => exact .throw _

mutual

/-- **A copy that is noted is the copy**, and all names that it gives out are in the record. -/
theorem Item.notes_note : ∀ i : Item, Notes (i.substitute s) (i.note s)
  | ⟨kind, range⟩ => by
    rw [Item.substitute, Item.note]
    refine .bind (ItemKind.notes_note kind) fun k => ?_
    cases k with
    | some k => exact .pure _
    | none => exact .pure _

theorem ItemKind.notes_note : ∀ k : ItemKind, Notes (k.substitute s) (k.note s)
  | .expr e => by
    rw [ItemKind.substitute, ItemKind.note]
    exact .lift _
  | .keyword word none => by
    rw [ItemKind.substitute, ItemKind.note]
    exact .pure _
  | .keyword word (some e) => by
    rw [ItemKind.substitute, ItemKind.note]
    exact .bind (.lift _) fun f => .pure _
  | .parameter p => by
    rw [ItemKind.substitute, ItemKind.note]
    exact .bind (.lift _) fun q => .pure _
  | .equation e => by
    rw [ItemKind.substitute, ItemKind.note]
    exact .bind (.lift _) fun f => .pure _
  | .assignment n e => by
    rw [ItemKind.substitute, ItemKind.note]
    exact .bind (.lift _) fun m => .bind (.lift _) fun f => .pure _
  | .declaration scope p => by
    rw [ItemKind.substitute, ItemKind.note]
    exact .bind (.lift _) fun q => .pure _
  | .existing a => by
    rw [ItemKind.substitute, ItemKind.note]
    exact .bind (.lift _) fun m => .bind (.lift _) fun f => .pure _
  | .site n members => by
    rw [ItemKind.substitute, ItemKind.note]
    exact .bind (.lift _) fun m => .bind (Item.notes_noteAll members) fun ms => .pure _
  | .siteStatement statement => by
    rw [ItemKind.substitute, ItemKind.note]
    exact .bind (.lift _) fun t => .pure _
  | .directive d => by
    rw [ItemKind.substitute, ItemKind.note]
    exact .bind (.lift _) fun e => .pure _
  | .macroDecl isList signatures body => by
    rw [ItemKind.substitute, ItemKind.note]
    exact .pure _
  | .conditional family chain => by
    rw [ItemKind.substitute, ItemKind.note]
    exact .bind (Chain.notes_note chain) fun c => .pure _
  | .bodyOp op param => by
    rw [ItemKind.substitute, ItemKind.note]
    exact BodyOp.notes_note op param
  | .block items => by
    rw [ItemKind.substitute, ItemKind.note]
    exact .bind (Item.notes_noteAll items) fun is => .pure _

theorem Chain.notes_note : ∀ c : Chain, Notes (c.substitute s) (c.note s)
  | .done => by
    rw [Chain.substitute, Chain.note]
    exact .pure _
  | .otherwise items => by
    rw [Chain.substitute, Chain.note]
    exact .bind (Item.notes_noteAll items) fun is => .pure _
  | .branch condition items rest => by
    rw [Chain.substitute, Chain.note]
    refine .bind (.lift _) fun c => ?_
    refine .bind (Item.notes_noteAll items) fun is => ?_
    exact .bind (Chain.notes_note rest) fun d => .pure _

theorem Item.notes_noteAll : ∀ is : List Item, Notes (Item.substituteAll s is) (Item.noteAll s is)
  | [] => by
    rw [Item.substituteAll, Item.noteAll]
    exact .pure _
  | i :: is => by
    rw [Item.substituteAll, Item.noteAll]
    exact .bind (Item.notes_note i) fun j => .bind (Item.notes_noteAll is) fun js => .pure _

end

end ControlFile
