import ControlFile.Proofs.Item.Statement
import ControlFile.Proofs.Token.Movement

/-!
# What is confined to the bodies of macros

Some directives have a meaning in the body of a macro only.  `Confined ts is` says of the tokens
`ts` and of the items `is` that were read from them, those in the body of a macro left out, that such
a directive stands in the body of one of the items, and that no item starts with one.  The unique
mark is the exception: it stands for a name, and may do so anywhere but at the start of an item.

A row of tokens is confined if its parts are (`Confined.append`), and the kind of an item and its
place make an item (`ConfinedKind.item`).
-/

namespace ControlFile

/-! ### Items outside the bodies of macros -/

mutual

/-- The item, and all items in it that are not in the body of a macro. -/
def Item.surface : Item → List Item
  | ⟨kind, range⟩ => ⟨kind, range⟩ :: kind.inner

def ItemKind.inner : ItemKind → List Item
  | .site _ members => Item.surfaceAll members
  | .conditional _ chain => chain.inner
  | .block items => Item.surfaceAll items
  | _ => []

def Chain.inner : Chain → List Item
  | .done => []
  | .otherwise items => Item.surfaceAll items
  | .branch _ items rest => Item.surfaceAll items ++ rest.inner

def Item.surfaceAll : List Item → List Item
  | [] => []
  | i :: is => i.surface ++ Item.surfaceAll is

end

theorem Item.surfaceAll_append (is js : List Item) :
    surfaceAll (is ++ js) = surfaceAll is ++ surfaceAll js := by
  induction is with
  | nil => rfl
  | cons i is ih => rw [List.cons_append, surfaceAll, surfaceAll, ih, List.append_assoc]

theorem Item.surfaceAll_single (i : Item) : surfaceAll [i] = i.surface := by
  rw [surfaceAll, surfaceAll, List.append_nil]

theorem Item.eq_nil_of_allEverywhere {is : List Item} (h : Item.AllEverywhere (fun _ => False) is) :
    is = [] := by
  cases is with
  | nil => rfl
  | cons i is =>
    obtain ⟨kind, range⟩ := i
    exact h.1.1.elim

theorem Chain.inner_eq_nil : ∀ {chain : Chain}, chain.Everywhere (fun _ => False) →
    chain.inner = []
  | .done, _ => by rw [inner]
  | .otherwise items, h => by rw [inner, Item.eq_nil_of_allEverywhere h, Item.surfaceAll]
  | .branch _ items rest, h => by
    rw [inner, Item.eq_nil_of_allEverywhere h.1, Item.surfaceAll, inner_eq_nil h.2, List.append_nil]

/-- Where there are no items in an item, there are none outside the bodies of macros. -/
theorem ItemKind.IsSimple.inner_eq_nil {k : ItemKind} (h : k.IsSimple) : k.inner = [] := by
  have hfalse := h fun _ => False
  cases k with
  | site name members => rw [inner, Item.eq_nil_of_allEverywhere hfalse, Item.surfaceAll]
  | conditional family chain => rw [inner, Chain.inner_eq_nil hfalse]
  | block items => rw [inner, Item.eq_nil_of_allEverywhere hfalse, Item.surfaceAll]
  | _ => rfl

/-- The item declares a macro, or a list of macros. -/
def ItemKind.IsMacro : ItemKind → Prop
  | .macroDecl .. => True
  | _ => False

theorem ItemKind.IsMacro.inner_eq_nil {k : ItemKind} (h : k.IsMacro) : k.inner = [] := by
  cases k with
  | macroDecl isList signatures body => rfl
  | _ => cases h

/-! ### Tokens in the bodies of macros -/

/-- The token `t` stands in the body of the macro that is declared by the tokens `row`: between the
first opening brace and the closing brace at the end. -/
def Token.InBody (row : List Token) (t : Token) : Prop :=
  ∃ head opening body closing, row = head ++ opening :: (body ++ [closing]) ∧
    (∀ s ∈ head, s.kind ≠ .mark .openBrace) ∧ opening.kind = .mark .openBrace ∧
    closing.kind = .mark .closeBrace ∧ t ∈ body

/-- The item declares a macro, and among the tokens `ts` are those of the item, of which `t` is one
in the body. -/
def Item.HasInBody (ts : List Token) (i : Item) (t : Token) : Prop :=
  i.kind.IsMacro ∧ ∃ before row after, ts = before ++ (row ++ after) ∧
    row.head?.map (·.range.start) = some i.range.start ∧
    row.getLast?.map (·.range.stop) = some i.range.stop ∧ t.InBody row

namespace Item.HasInBody

variable {ts : List Token} {i : Item} {t : Token}

theorem append (h : i.HasInBody ts t) (us : List Token) : i.HasInBody (ts ++ us) t := by
  obtain ⟨hdecl, before, row, after, rfl, hrow⟩ := h
  exact ⟨hdecl, before, row, after ++ us, by simp, hrow⟩

theorem behind (h : i.HasInBody ts t) (us : List Token) : i.HasInBody (us ++ ts) t := by
  obtain ⟨hdecl, before, row, after, rfl, hrow⟩ := h
  exact ⟨hdecl, us ++ before, row, after, by simp, hrow⟩

end Item.HasInBody

/-- What is confined among the tokens stands in the body of a macro that one of the items declares,
and no item starts with what has a meaning in such a body only. -/
structure Confined (ts : List Token) (is : List Item) : Prop where
  bodies : ∀ t ∈ ts, t.kind.isConfined = true → ∃ i ∈ is, i.HasInBody ts t
  starts : ∀ i ∈ is, ∃ t ∈ ts, t.range.start = i.range.start ∧ t.kind.isMacroScoped = false

namespace Confined

variable {ts us : List Token} {is js : List Item}

/-- Tokens of which nothing is read but what they are. -/
theorem of_not_confined (h : ∀ t ∈ ts, t.kind.isConfined = false) : Confined ts [] where
  bodies t ht hconfined := by
    rw [h t ht] at hconfined
    cases hconfined
  starts := List.forall_mem_nil _

theorem nil : Confined [] [] := of_not_confined (List.forall_mem_nil _)

theorem append (h : Confined ts is) (h' : Confined us js) : Confined (ts ++ us) (is ++ js) where
  bodies t ht hconfined := by
    rcases List.mem_append.1 ht with ht | ht
    · obtain ⟨i, hi, hbody⟩ := h.bodies t ht hconfined
      exact ⟨i, List.mem_append_left _ hi, hbody.append us⟩
    · obtain ⟨i, hi, hbody⟩ := h'.bodies t ht hconfined
      exact ⟨i, List.mem_append_right _ hi, hbody.behind ts⟩
  starts i hi := by
    rcases List.mem_append.1 hi with hi | hi
    · obtain ⟨t, ht, hstart⟩ := h.starts i hi
      exact ⟨t, List.mem_append_left _ ht, hstart⟩
    · obtain ⟨t, ht, hstart⟩ := h'.starts i hi
      exact ⟨t, List.mem_append_right _ ht, hstart⟩

/-- Other tokens before those of the items. -/
theorem behind (h : Confined us is) (ts : List Token)
    (hts : ∀ t ∈ ts, t.kind.isConfined = false) : Confined (ts ++ us) is := (of_not_confined hts).append h

/-- Other tokens behind those of the items. -/
theorem before (h : Confined ts is) (hus : ∀ t ∈ us, t.kind.isConfined = false) :
    Confined (ts ++ us) is := by
  have happend := h.append (of_not_confined hus)
  rwa [List.append_nil] at happend

end Confined

/-- The tokens `ts` of an item, of which it is known what it is and not yet where it stands: its own
body may be that of a macro. -/
structure ConfinedKind (ts : List Token) (k : ItemKind) : Prop where
  head : ∀ t ∈ ts.head?, t.kind.isMacroScoped = false
  bodies : ∀ t ∈ ts, t.kind.isConfined = true →
    (∃ i ∈ k.inner, i.HasInBody ts t) ∨ (k.IsMacro ∧ t.InBody ts)
  starts : ∀ i ∈ k.inner, ∃ t ∈ ts, t.range.start = i.range.start ∧ t.kind.isMacroScoped = false

namespace ConfinedKind

variable {ts : List Token} {k : ItemKind}

theorem of_inner (hhead : ∀ t ∈ ts.head?, t.kind.isMacroScoped = false) (h : Confined ts k.inner) :
    ConfinedKind ts k := ⟨hhead, fun t ht hconfined => .inl (h.bodies t ht hconfined), h.starts⟩

/-- The declaration of a macro, whose head is in `row` before the first opening brace. -/
theorem macroDecl (hk : k.IsMacro) {head body : List Token} {opening closing : Token}
    (hscoped : ∀ t ∈ head.head?, t.kind.isMacroScoped = false) (hne : head ≠ [])
    (hhead : ∀ t ∈ head, t.kind.isConfined = false ∧ t.kind ≠ .mark .openBrace)
    (hopening : opening.kind = .mark .openBrace) (hclosing : closing.kind = .mark .closeBrace) :
    ConfinedKind (head ++ opening :: (body ++ [closing])) k where
  head := by
    obtain ⟨t, ts, rfl⟩ := List.exists_cons_of_ne_nil hne
    exact hscoped
  bodies t ht hconfined := by
    refine .inr ⟨hk, head, opening, body, closing, rfl, fun s hs => (hhead s hs).2, hopening,
      hclosing, ?_⟩
    simp only [List.mem_append, List.mem_cons, List.not_mem_nil, or_false] at ht
    rcases ht with ht | rfl | ht | rfl
    · rw [(hhead t ht).1] at hconfined
      cases hconfined
    · rw [hopening] at hconfined
      cases hconfined
    · exact ht
    · rw [hclosing] at hconfined
      cases hconfined
  starts := by
    rw [hk.inner_eq_nil]
    exact List.forall_mem_nil _

/-- **The place makes an item.** -/
theorem item (h : ConfinedKind ts k) {range : Extent}
    (hstart : ts.head?.map (·.range.start) = some range.start)
    (hstop : ts.getLast?.map (·.range.stop) = some range.stop) :
    Confined ts (Item.surface ⟨k, range⟩) where
  bodies t ht hconfined := by
    rw [Item.surface]
    rcases h.bodies t ht hconfined with ⟨i, hi, hbody⟩ | ⟨hdecl, hbody⟩
    · exact ⟨i, List.mem_cons_of_mem _ hi, hbody⟩
    · exact ⟨⟨k, range⟩, List.mem_cons_self, hdecl, [], ts, [], by simp, hstart, hstop, hbody⟩
  starts := by
    rw [Item.surface]
    refine List.forall_mem_cons.2 ⟨?_, h.starts⟩
    obtain ⟨t, ht, heq⟩ := Option.map_eq_some_iff.1 hstart
    exact ⟨t, List.mem_of_mem_head? ht, heq, h.head t ht⟩

end ConfinedKind

end ControlFile
