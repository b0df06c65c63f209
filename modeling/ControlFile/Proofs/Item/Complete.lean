import ControlFile.Item.Parser
import ControlFile.Proofs.Item.Statement
import ControlFile.Proofs.Macro.Copies

/-!
# Complete statements

A declaration has a name and a value.  A place for a value in a statement of a site has one, or it is
empty and marked to be refined; and a fixed value is not marked.  Statements that are so are *complete*.

The parser reads no other ones outside the bodies of macros (`Parsed.items_complete`).  Inside of them
a name may stand alone in a place for a value, because the value can arrive with an argument.
-/

namespace ControlFile

/-- The value is there, or the place is left empty to be refined. -/
def Parameter.IsFilled (p : Parameter) : Prop :=
  p.value.isPresent = true ∨ (p.refinement = .refined ∧ p.name = none)

/-- The places for values, in the order in which they are written. -/
def SiteStatement.slots : SiteStatement → List Parameter
  | .coordinate _ value => [value]
  | .occupancy occ => occ.value :: occ.modifiers.map (·.value)
  | .scalar _ value => [value]
  | .adps values => values.toList

/-- Whether the value may not be marked. -/
def SiteStatement.isFixed : SiteStatement → Bool
  | .scalar word _ => word.isFixed
  | _ => false

/-- Every place is filled, and a fixed one is not marked. -/
def SiteStatement.IsComplete (s : SiteStatement) : Prop :=
  ∀ p ∈ s.slots, p.IsFilled ∧ (s.isFixed = true → p.refinement = .plain)

/-- A statement that has all its parts.  What is no statement has nothing to be complete. -/
def ItemKind.IsComplete : ItemKind → Prop
  | .declaration _ p => p.name.isSome = true ∧ p.value.isPresent = true
  | .siteStatement s => s.IsComplete
  | _ => True

def Item.IsComplete (i : Item) : Prop := i.kind.IsComplete

instance (p : Parameter) : Decidable p.IsFilled := inferInstanceAs (Decidable (_ ∨ _ ∧ _))

instance (s : SiteStatement) : Decidable s.IsComplete :=
  inferInstanceAs (Decidable (∀ p ∈ s.slots, _))

instance ItemKind.decidableIsComplete : DecidablePred ItemKind.IsComplete
  | .declaration .. => inferInstanceAs (Decidable (_ ∧ _))
  | .siteStatement s => inferInstanceAs (Decidable s.IsComplete)
  | .keyword .. | .expr _ | .parameter _ | .equation _ | .assignment .. => inferInstanceAs (Decidable True)
  | .existing _ | .site .. | .directive _ | .macroDecl .. => inferInstanceAs (Decidable True)
  | .conditional .. | .bodyOp .. | .block _ => inferInstanceAs (Decidable True)

instance : DecidablePred Item.IsComplete := fun i => ItemKind.decidableIsComplete i.kind

/-! ### Items outside the bodies of macros -/

mutual

/-- `P` holds of the item and of all items in it that are not in the body of a macro. -/
def Item.Outside (P : Item → Prop) : Item → Prop
  | ⟨kind, range⟩ => P ⟨kind, range⟩ ∧ kind.Outside P

def ItemKind.Outside (P : Item → Prop) : ItemKind → Prop
  | .site _ members => Item.AllOutside P members
  | .conditional _ chain => chain.Outside P
  | .block items => Item.AllOutside P items
  | _ => True

def Chain.Outside (P : Item → Prop) : Chain → Prop
  | .done => True
  | .otherwise items => Item.AllOutside P items
  | .branch _ items rest => Item.AllOutside P items ∧ rest.Outside P

def Item.AllOutside (P : Item → Prop) : List Item → Prop
  | [] => True
  | i :: is => i.Outside P ∧ Item.AllOutside P is

end

theorem Item.allOutside_iff {P : Item → Prop} {is : List Item} :
    AllOutside P is ↔ ∀ i ∈ is, i.Outside P := by
  induction is with
  | nil => simp [AllOutside]
  | cons i is ih => simp [AllOutside, ih]

theorem Item.Outside.self {P : Item → Prop} {i : Item} (h : i.Outside P) : P i := by
  cases i
  rw [Outside] at h
  exact h.1

mutual

/-- What holds everywhere holds outside the bodies of macros. -/
theorem Item.Everywhere.outside {P : Item → Prop} : ∀ {i : Item}, i.Everywhere P → i.Outside P
  | ⟨_, _⟩, h => by
    rw [Item.Everywhere] at h
    rw [Item.Outside]
    exact ⟨h.1, ItemKind.Everywhere.outside h.2⟩

theorem ItemKind.Everywhere.outside {P : Item → Prop} :
    ∀ {k : ItemKind}, k.Everywhere P → k.Outside P
  | .site _ _, h => Item.AllEverywhere.outside h
  | .conditional _ _, h => Chain.Everywhere.outside h
  | .block _, h => Item.AllEverywhere.outside h
  | .macroDecl .., _ | .keyword .., _ | .expr _, _ | .parameter _, _ | .equation _, _ => trivial
  | .assignment .., _ | .declaration .., _ | .existing _, _ | .siteStatement _, _ => trivial
  | .directive _, _ | .bodyOp .., _ => trivial

theorem Chain.Everywhere.outside {P : Item → Prop} : ∀ {c : Chain}, c.Everywhere P → c.Outside P
  | .done, _ => trivial
  | .otherwise _, h => Item.AllEverywhere.outside h
  | .branch _ _ _, h => ⟨Item.AllEverywhere.outside h.1, Chain.Everywhere.outside h.2⟩

theorem Item.AllEverywhere.outside {P : Item → Prop} :
    ∀ {is : List Item}, Item.AllEverywhere P is → Item.AllOutside P is
  | [], _ => trivial
  | _ :: _, h => ⟨Item.Everywhere.outside h.1, Item.AllEverywhere.outside h.2⟩

end

/-- If it is a macro, `P` holds of all items in its body. -/
def ItemKind.InBody (P : Item → Prop) : ItemKind → Prop
  | .macroDecl _ _ body => Item.AllEverywhere P body
  | _ => True

def Item.InBody (P : Item → Prop) (i : Item) : Prop := i.kind.InBody P

mutual

/-- What holds outside the bodies of macros and inside of them holds everywhere. -/
theorem Item.Outside.everywhere {P : Item → Prop} :
    ∀ {i : Item}, i.Outside P → i.Everywhere (Item.InBody P) → i.Everywhere P
  | ⟨kind, range⟩, h, hbody => by
    rw [Item.Outside] at h
    rw [Item.Everywhere] at hbody ⊢
    exact ⟨h.1, ItemKind.Outside.everywhere h.2 hbody.1 hbody.2⟩

theorem ItemKind.Outside.everywhere {P : Item → Prop} :
    ∀ {k : ItemKind}, k.Outside P → k.InBody P → k.Everywhere (Item.InBody P) → k.Everywhere P
  | .site _ _, h, _, hbody => Item.AllOutside.everywhere h hbody
  | .conditional _ _, h, _, hbody => Chain.Outside.everywhere h hbody
  | .block _, h, _, hbody => Item.AllOutside.everywhere h hbody
  | .macroDecl .., _, hself, _ => hself
  | .keyword .., _, _, _ | .expr _, _, _, _ | .parameter _, _, _, _ | .equation _, _, _, _ => trivial
  | .assignment .., _, _, _ | .declaration .., _, _, _ | .existing _, _, _, _ => trivial
  | .siteStatement _, _, _, _ | .directive _, _, _, _ | .bodyOp .., _, _, _ => trivial

theorem Chain.Outside.everywhere {P : Item → Prop} :
    ∀ {c : Chain}, c.Outside P → c.Everywhere (Item.InBody P) → c.Everywhere P
  | .done, _, _ => trivial
  | .otherwise _, h, hbody => Item.AllOutside.everywhere h hbody
  | .branch _ _ _, h, hbody =>
    ⟨Item.AllOutside.everywhere h.1 hbody.1, Chain.Outside.everywhere h.2 hbody.2⟩

theorem Item.AllOutside.everywhere {P : Item → Prop} :
    ∀ {is : List Item}, Item.AllOutside P is → Item.AllEverywhere (Item.InBody P) is →
      Item.AllEverywhere P is
  | [], _, _ => trivial
  | _ :: _, h, hbody =>
    ⟨Item.Outside.everywhere h.1 hbody.1, Item.AllOutside.everywhere h.2 hbody.2⟩

end

section Decidable

variable (P : Item → Prop) [DecidablePred P]

mutual

instance Item.decidableEverywhere : ∀ i : Item, Decidable (i.Everywhere P)
  | ⟨kind, range⟩ =>
    have := kind.decidableEverywhere
    inferInstanceAs (Decidable (P ⟨kind, range⟩ ∧ kind.Everywhere P))

instance ItemKind.decidableEverywhere : ∀ k : ItemKind, Decidable (k.Everywhere P)
  | .site _ members => Item.decidableAllEverywhere members
  | .macroDecl _ _ body => Item.decidableAllEverywhere body
  | .conditional _ chain => chain.decidableEverywhere
  | .block items => Item.decidableAllEverywhere items
  | .keyword .. | .expr _ | .parameter _ | .equation _ | .assignment .. => inferInstanceAs (Decidable True)
  | .declaration .. | .existing _ | .siteStatement _ | .directive _ => inferInstanceAs (Decidable True)
  | .bodyOp .. => inferInstanceAs (Decidable True)

instance Chain.decidableEverywhere : ∀ c : Chain, Decidable (c.Everywhere P)
  | .done => inferInstanceAs (Decidable True)
  | .otherwise items => Item.decidableAllEverywhere items
  | .branch _ items rest =>
    have := Item.decidableAllEverywhere items
    have := rest.decidableEverywhere
    inferInstanceAs (Decidable (Item.AllEverywhere P items ∧ rest.Everywhere P))

instance Item.decidableAllEverywhere : ∀ is : List Item, Decidable (Item.AllEverywhere P is)
  | [] => inferInstanceAs (Decidable True)
  | i :: is =>
    have := i.decidableEverywhere
    have := Item.decidableAllEverywhere is
    inferInstanceAs (Decidable (i.Everywhere P ∧ Item.AllEverywhere P is))

end

instance ItemKind.decidableInBody : ∀ k : ItemKind, Decidable (k.InBody P)
  | .macroDecl _ _ body => inferInstanceAs (Decidable (Item.AllEverywhere P body))
  | .keyword .. | .expr _ | .parameter _ | .equation _ | .assignment .. => inferInstanceAs (Decidable True)
  | .declaration .. | .existing _ | .siteStatement _ | .directive _ => inferInstanceAs (Decidable True)
  | .site .. | .conditional .. | .bodyOp .. | .block _ => inferInstanceAs (Decidable True)

instance : DecidablePred (Item.InBody P) := fun i => ItemKind.decidableInBody P i.kind

end Decidable

/-! ### What a step gives -/

section Returns

variable {ε σ α β : Type}

/-- If the step succeeds, `Q` holds of what it gives. -/
def Returns (e : EStateM ε σ α) (Q : α → Prop) : Prop := ∀ s a s', e s = .ok a s' → Q a

/-- `Q` holds of what the step, which cannot fail, gives. -/
def Collected (p : StateM σ α) (Q : α → Prop) : Prop := ∀ s, Q (p s).1

variable {e : EStateM ε σ α} {f : α → EStateM ε σ β} {P : α → Prop} {Q : β → Prop}

namespace Returns

theorem pure {b : β} (h : Q b) : Returns (Pure.pure b : EStateM ε σ β) Q := by
  rintro _ _ _ ⟨⟩
  exact h

theorem throw (fault : ε) : Returns (throw fault : EStateM ε σ β) Q := by
  rintro _ _ _ ⟨⟩

theorem bind_of (h : Returns e P) (hf : ∀ a, P a → Returns (f a) Q) : Returns (e >>= f) Q := by
  intro s b s' hrun
  obtain ⟨a, s₁, ha, hb⟩ := exists_of_bind_ok hrun
  exact hf a (h s a s₁ ha) s₁ b s' hb

theorem bind (hf : ∀ a, Returns (f a) Q) : Returns (e >>= f) Q :=
  bind_of (P := fun _ => True) (fun _ _ _ _ => trivial) fun a _ => hf a

theorem ite {c : Prop} [Decidable c] {e e' : EStateM ε σ β} (h : c → Returns e Q)
    (h' : ¬c → Returns e' Q) : Returns (if c then e else e') Q := by
  split
  · exact h ‹_›
  · exact h' ‹_›

theorem mono {R : α → Prop} (h : Returns e P) (hPR : ∀ a, P a → R a) : Returns e R :=
  fun s a s' hrun => hPR a (h s a s' hrun)

end Returns

namespace Collected

variable {p : StateM σ α} {f : α → StateM σ β}

theorem pure {b : β} (h : Q b) : Collected (Pure.pure b : StateM σ β) Q := fun _ => h

theorem bind_of (h : Collected p P) (hf : ∀ a, P a → Collected (f a) Q) : Collected (p >>= f) Q :=
  fun s => hf _ (h s) _

theorem bind (hf : ∀ a, Collected (f a) Q) : Collected (p >>= f) Q := fun _ => hf _ _

theorem ite {c : Prop} [Decidable c] {p p' : StateM σ β} (h : c → Collected p Q)
    (h' : ¬c → Collected p' Q) : Collected (if c then p else p') Q := by
  split
  · exact h ‹_›
  · exact h' ‹_›

end Collected

end Returns

/-! ### Statements -/

namespace Parser

theorem returns_fail {α : Type} {Q : α → Prop} (fault : Fault) : Returns (fail fault) Q := by
  rintro _ _ _ ⟨⟩

theorem returns_failExpected {α : Type} {Q : α → Prop} (what : Expected) :
    Returns (failExpected what) Q := by
  rintro _ _ _ ⟨⟩

theorem returns_failAt {α : Type} {Q : α → Prop} (range : Extent) (fault : Fault) :
    Returns (failAt range fault) Q := by
  rintro _ _ _ ⟨⟩

theorem returns_existing (expr : Parser Expr) : Returns (existing expr) ItemKind.IsComplete := by
  refine .bind fun _ => ?_
  refine .bind fun mark => ?_
  refine .bind fun n => ?_
  refine .bind fun c => ?_
  split
  · exact .bind fun e => .pure trivial
  · exact returns_failExpected _

variable {expr : Parser Expr} {scope : Scope} (hscope : scope.inMacro = false)
include hscope

theorem returns_declaration (kind : VariableScope) :
    Returns (declaration expr scope kind) ItemKind.IsComplete := by
  refine .bind fun _ => ?_
  refine .bind fun mark => ?_
  refine .bind fun n => ?_
  refine .bind fun c => ?_
  have hrest : ∀ value : Value, Returns
      (if (value.isPresent || scope.inMacro) = true then
          pure (ItemKind.declaration kind ⟨mark, some n, value⟩)
        else failExpected (.valueOf n) : Parser ItemKind) ItemKind.IsComplete :=
    fun value => .ite (fun h => .pure ⟨rfl, by simpa [hscope] using h⟩) fun _ =>
      returns_failExpected _
  refine .ite (fun _ => ?_) fun _ => ?_
  · refine .bind fun e => ?_
    exact .bind hrest
  · exact .bind hrest

/-- What is read in a place for a value. -/
theorem returns_valueSlot (v : Vocabulary) (fixed : Bool) :
    Returns (valueSlot v expr scope fixed)
      fun p => p.IsFilled ∧ (fixed = true → p.refinement = .plain) := by
  refine .bind fun c => ?_
  refine .ite (fun _ => .bind fun e => .pure ⟨.inl rfl, fun _ => rfl⟩) fun _ => ?_
  refine .bind fun mark => ?_
  refine .ite (fun _ => returns_failAt _ _) fun hmark => ?_
  refine .bind fun n => ?_
  refine .bind fun value => ?_
  refine .ite (fun h => .pure ⟨?_, fun hfixed => ?_⟩) fun _ => returns_failExpected _
  · simpa [Parameter.IsFilled, hscope] using h
  · simpa [hfixed] using hmark

/-! ### Sites -/

section Slots

variable {slot : Parser Parameter} {P : Parameter → Prop} (hslot : Returns slot P)
include hslot

omit hscope in
theorem returns_occModifiers (limit : Nat) :
    Returns (occModifiers slot limit) fun ms => ∀ m ∈ ms, P m.value := by
  induction limit with
  | zero => exact .pure (by simp)
  | succ limit ih =>
    refine .bind fun c => ?_
    split
    · refine .bind fun _ => ?_
      refine hslot.bind_of fun value hvalue => ?_
      refine ih.bind_of fun ms hms => .pure ?_
      simpa using ⟨hvalue, hms⟩
    · exact .pure (by simp)

omit hscope in
theorem returns_occupancy (wordEnd : Nat) :
    Returns (occupancy slot wordEnd) fun o => P o.value ∧ ∀ m ∈ o.modifiers, P m.value := by
  refine .bind fun atom => ?_
  cases atom with
  | none => exact returns_failAt _ _
  | some atom =>
    refine hslot.bind_of fun value hvalue => ?_
    refine .bind fun c => ?_
    exact (returns_occModifiers hslot _).bind_of fun ms hms => .pure ⟨hvalue, hms⟩

omit hscope in
theorem returns_adp (word : AdpWord) : Returns (adp slot word) P := by
  refine .bind fun _ => ?_
  refine .ite (fun _ => ?_) fun _ => ?_
  · exact .bind fun _ => hslot
  · exact returns_failExpected _

omit hscope in
theorem returns_adps (words : Adps AdpWord) :
    Returns (words.mapM (adp slot)) fun ps => ∀ p ∈ ps.toList, P p := by
  have hadp := returns_adp hslot
  refine (hadp _).bind_of fun p h => ?_
  refine (hadp _).bind_of fun p₂ h₂ => ?_
  refine (hadp _).bind_of fun p₃ h₃ => ?_
  refine (hadp _).bind_of fun p₄ h₄ => ?_
  refine (hadp _).bind_of fun p₅ h₅ => ?_
  refine (hadp _).bind_of fun p₆ h₆ => .pure ?_
  simpa [Adps.toList] using ⟨h, h₂, h₃, h₄, h₅, h₆⟩

end Slots

theorem returns_siteStatement (v : Vocabulary) (word : SiteWord) :
    Returns (siteStatement v expr scope word) ItemKind.IsComplete := by
  have hslot := fun fixed => @returns_valueSlot expr scope hscope v fixed
  refine .bind fun c => .bind fun _ => ?_
  cases word with
  | axis a => exact (hslot false).bind_of fun p hp => .pure (List.forall_mem_singleton.2 hp)
  | occ =>
    refine (returns_occupancy (hslot false) _).bind_of fun o ho => .pure ?_
    exact List.forall_mem_cons.2 ⟨ho.1, List.forall_mem_map.2 ho.2⟩
  | scalar s => exact (hslot s.isFixed).bind_of fun p hp => .pure (List.forall_mem_singleton.2 hp)
  | adps => exact (returns_adps (hslot false) _).bind_of fun ps hps => .pure hps
  | occupancy w => exact returns_failAt _ _
  | adp u => exact returns_failAt _ _

/-- No statement but those of a site is one that can be incomplete. -/
theorem returns_wordItem (v : Vocabulary) (levels : Nat) (word : String) :
    Returns (wordItem v levels scope word) ItemKind.IsComplete := by
  refine .bind fun c => ?_
  refine .ite (fun _ => .bind fun e => .pure trivial) fun _ => ?_
  split
  · exact returns_siteStatement hscope v _
  · refine .ite (fun _ => .bind fun _ => .bind fun c => ?_) fun _ => ?_
    · exact .ite (fun _ => .bind fun e => .pure trivial) fun _ => .pure trivial
    · split
      · exact .bind fun _ => .bind fun e => .pure trivial
      · exact .bind fun e => .pure trivial

end Parser

/-! ### Items -/

namespace ItemParser

variable {α : Type}

theorem returns_lift {p : Parser α} {Q : α → Prop} (h : Returns p Q) :
    Returns (liftM p : ItemParser α) Q := by
  intro r a r' hrun
  cases hp : p r.cursor with
  | ok b c =>
    simp only [liftM, monadLift, MonadLift.monadLift, hp] at hrun
    cases hrun
    exact h _ _ _ hp
  | error d c =>
    simp only [liftM, monadLift, MonadLift.monadLift, hp] at hrun
    cases hrun

theorem returns_collected {p : StateM Reading α} {Q : α → Prop} (h : Collected p Q) :
    Returns (liftM p : ItemParser α) Q := by
  rintro r _ _ ⟨⟩
  exact h r

section Sequences

variable {one : ItemParser (Option Item)} {P : Item → Prop}
variable (hone : Returns one fun o => ∀ i ∈ o, P i)
include hone

theorem collected_attempt : Collected (attempt one) fun o => ∀ i ∈ o, P i := by
  intro r
  unfold attempt
  cases hrun : one r with
  | ok item r' => exact hone r item r' hrun
  | error d r' => rintro _ ⟨⟩

omit hone in
theorem forall_mem_toList_append {o : Option Item} {is : List Item} (ho : ∀ i ∈ o, P i)
    (his : ∀ i ∈ is, P i) : ∀ i ∈ o.toList ++ is, P i := by
  intro i hi
  rcases List.mem_append.1 hi with hi | hi
  · exact ho i (Option.mem_toList.1 hi)
  · exact his i hi

theorem collected_items (stop : TokenKind → Bool) (limit : Nat) :
    Collected (items one stop limit) fun is => ∀ i ∈ is, P i := by
  induction limit with
  | zero => exact .pure (List.forall_mem_nil _)
  | succ limit ih =>
    refine .bind fun before => ?_
    split
    · exact .pure (List.forall_mem_nil _)
    · refine .ite (fun _ => .pure (List.forall_mem_nil _)) fun _ => ?_
      refine (collected_attempt hone).bind_of fun o ho => .bind fun r => ?_
      have hrest : Collected (do return o.toList ++ (← items one stop limit))
          fun is => ∀ i ∈ is, P i :=
        ih.bind_of fun is his => .pure (forall_mem_toList_append ho his)
      exact .ite (fun _ => .bind fun _ => hrest) fun _ => hrest

theorem collected_allItems (stop : TokenKind → Bool) :
    Collected (allItems one stop) fun is => ∀ i ∈ is, P i :=
  .bind fun _ => collected_items hone stop _

theorem collected_members (limit : Nat) :
    Collected (members one limit) fun is => ∀ i ∈ is, P i := by
  induction limit with
  | zero => exact .pure (List.forall_mem_nil _)
  | succ limit ih =>
    refine .bind fun before => .ite (fun _ => ?_) fun _ => .pure (List.forall_mem_nil _)
    refine (collected_attempt hone).bind_of fun o ho => ?_
    refine .bind fun r => ?_
    refine .ite (fun _ => ?_) fun _ => ?_
    · exact .pure fun i hi => ho i (Option.mem_toList.1 hi)
    · exact ih.bind_of fun is his => .pure (forall_mem_toList_append ho his)

end Sequences

/-- The items that there are are complete. -/
abbrev AllComplete (is : List Item) : Prop := ∀ i ∈ is, i.Outside Item.IsComplete

abbrev Complete? (o : Option Item) : Prop := ∀ i ∈ o, i.Outside Item.IsComplete

abbrev KindComplete? (o : Option ItemKind) : Prop :=
  ∀ k ∈ o, k.IsComplete ∧ k.Outside Item.IsComplete

theorem returns_located {kind : ItemParser (Option ItemKind)} (h : Returns kind KindComplete?) :
    Returns (located kind) Complete? := by
  refine .bind fun c => h.bind_of fun o ho => ?_
  cases o with
  | none => exact .pure (by rintro _ ⟨⟩)
  | some k =>
    refine .bind fun c' => .pure ?_
    rintro _ ⟨⟩
    rw [Item.Outside]
    exact ho k rfl

theorem returns_site {member : ItemParser (Option Item)} (h : Returns member Complete?) :
    Returns (site member) fun k => KindComplete? (some k) := by
  refine .bind fun c => ?_
  refine .bind fun _ => ?_
  refine .bind fun n => ?_
  cases n with
  | none => exact .throw _
  | some n =>
    refine .bind fun c => (returns_collected (collected_members h _)).bind_of fun is his => .pure ?_
    rintro _ ⟨⟩
    exact ⟨trivial, Item.allOutside_iff.2 his⟩

/-! ### Conditionals, macros and blocks -/

section Bodies

variable {body : StateM Reading (List Item)} (hbody : Collected body AllComplete)
include hbody

theorem returns_laterBranches (opening : Opening) (expr : Parser Expr) (limit : Nat) :
    Returns (laterBranches opening expr body limit) (Chain.Outside Item.IsComplete) := by
  have hitems := returns_collected hbody
  have hclose : Returns (do closeChain opening; return .done : ItemParser Chain)
      (Chain.Outside Item.IsComplete) := .bind fun _ => .pure trivial
  induction limit with
  | zero => exact .pure trivial
  | succ limit ih =>
    refine .bind fun c => ?_
    split
    · refine .ite (fun _ => .bind fun _ => .bind fun condition => ?_) fun _ => hclose
      refine hitems.bind_of fun is his => ?_
      refine ih.bind_of fun rest hrest => ?_
      exact .pure ⟨Item.allOutside_iff.2 his, hrest⟩
    · refine .ite (fun _ => .bind fun _ => ?_) fun _ => hclose
      exact hitems.bind_of fun is his => .bind fun _ => .pure (Item.allOutside_iff.2 his)
    · exact hclose

theorem returns_conditional (family : Family) (word : DirectiveWord) (expr : Parser Expr) :
    Returns (conditional family word expr body) fun k => KindComplete? (some k) := by
  refine .bind fun c => ?_
  refine .bind fun condition => ?_
  refine (returns_collected hbody).bind_of fun is his => ?_
  refine .bind fun c' => ?_
  refine (returns_laterBranches hbody _ expr _).bind_of fun rest hrest => .pure ?_
  rintro _ ⟨⟩
  exact ⟨trivial, Item.allOutside_iff.2 his, hrest⟩

theorem returns_block : Returns (block body) fun k => KindComplete? (some k) := by
  refine .bind fun c => ?_
  refine .bind fun _ => ?_
  refine (returns_collected hbody).bind_of fun is his => ?_
  refine .bind fun closed => ?_
  refine .ite (fun _ => .pure ?_) fun _ => .throw _
  rintro _ ⟨⟩
  exact ⟨trivial, Item.allOutside_iff.2 his⟩

end Bodies

/-- The body of a macro does not matter. -/
theorem returns_macroDecl (isList : Bool) (body : StateM Reading (List Item)) :
    Returns (macroDecl isList body) fun k => KindComplete? (some k) := by
  have hrest : ∀ signatures, Returns (do
      let opening := (← cursor).here
      Parser.expect (.mark .openBrace) .bodyStart
      let items ← body
      if !(← takeIf (.mark .closeBrace)) then report ⟨.unclosedMacro, opening⟩
      return .macroDecl isList signatures items : ItemParser ItemKind)
      fun k => KindComplete? (some k) := by
    intro signatures
    have hend : ∀ items, Returns (Pure.pure (.macroDecl isList signatures items) : ItemParser ItemKind)
        fun k => KindComplete? (some k) := by
      refine fun items => .pure ?_
      rintro _ ⟨⟩
      exact ⟨trivial, trivial⟩
    refine .bind fun c => ?_
    refine .bind fun _ => ?_
    refine .bind fun items => ?_
    refine .bind fun closed => ?_
    refine .ite (fun _ => ?_) fun _ => ?_
    · exact .bind fun _ => hend items
    · exact hend items
  refine .bind fun _ => ?_
  split
  · exact .bind fun c => .bind hrest
  · exact .bind fun s => .bind hrest

/-! ### Items of one level -/

/-- A statement has no items in it. -/
theorem returns_statement {p : Parser ItemKind} (h : Returns p ItemKind.IsComplete)
    (hsimple : ∀ c, Parser.Ensures p c fun k _ => k.IsSimple) :
    Returns (do return some (← p) : ItemParser (Option ItemKind)) KindComplete? := by
  have hboth : Returns p fun k => k.IsComplete ∧ k.Outside Item.IsComplete :=
    fun c k c' hrun => ⟨h c k c' hrun, (hsimple c k c' hrun _).outside⟩
  refine (returns_lift hboth).bind_of fun k hk => .pure ?_
  rintro _ ⟨⟩
  exact hk

/-- What is no statement is complete. -/
theorem returns_other {p : Parser α} {k : α → ItemKind}
    (h : ∀ a, (k a).IsComplete ∧ (k a).Outside Item.IsComplete) :
    Returns (do return some (k (← p)) : ItemParser (Option ItemKind)) KindComplete? := by
  refine .bind fun a => .pure ?_
  rintro _ ⟨⟩
  exact h a

theorem returns_some {p : ItemParser ItemKind} (h : Returns p fun k => KindComplete? (some k)) :
    Returns (do return some (← p)) KindComplete? := h.bind_of fun _ hk => .pure hk

theorem returns_nested {deeper : Deeper} {parse : (Scope → ItemParser (Option Item)) → ItemParser α}
    {Q : α → Prop} (h : ∀ next ∈ deeper, Returns (parse next) Q) : Returns (nested deeper parse) Q := by
  cases deeper with
  | none => exact returns_lift (Parser.returns_fail _)
  | some next => exact h next rfl

theorem returns_unexpected (scope : Scope) : Returns (unexpected scope) KindComplete? := by
  refine .bind fun c => ?_
  refine .bind fun _ => ?_
  exact .bind fun _ => .pure (by rintro _ ⟨⟩)

section Level

variable (v : Vocabulary) (levels : Nat) {deeper : Deeper} {scope : Scope}
variable (hdeeper : ∀ next ∈ deeper, ∀ scope : Scope, scope.inMacro = false →
  Returns (next scope) Complete?)
variable (hscope : scope.inMacro = false)
include hdeeper hscope

theorem returns_directiveAnywhere (word : DirectiveWord) :
    Returns (directiveAnywhere v levels deeper scope word) KindComplete? := by
  have hconditional : ∀ family, Returns (nested deeper fun next => do
      return some (← conditional family word (Parser.expression v (levels - 1) true)
        (allItems (next scope) endsBranch))) KindComplete? := fun family =>
    returns_nested fun next hnext => returns_some (returns_conditional
      (collected_allItems (hdeeper next hnext scope hscope) endsBranch) family word _)
  unfold directiveAnywhere
  split
  · exact returns_other fun d => ⟨trivial, trivial⟩
  · split
    · exact hconditional _
    · exact hconditional _
    · exact hconditional _
    · exact hconditional _
    · exact hconditional _
    · exact .bind fun _ => returns_other fun n => ⟨trivial, trivial⟩
    · exact returns_other fun e => ⟨trivial, trivial⟩
    · refine .bind fun c => ?_
      refine .bind fun _ => ?_
      exact .bind fun _ => .pure (by rintro _ ⟨⟩)
    · exact returns_unexpected scope

theorem returns_directive (word : DirectiveWord) :
    Returns (directive v levels deeper scope word) KindComplete? := by
  refine .bind fun c => ?_
  refine (returns_directiveAnywhere v levels hdeeper hscope word).bind_of fun o ho => ?_
  refine .ite (fun _ => ?_) fun _ => ?_
  · exact .bind fun _ => .pure (by rintro _ ⟨⟩)
  · exact .pure ho

theorem returns_leaf (t : Token) : Returns (leaf v levels deeper scope t) KindComplete? := by
  have hmacro (isList : Bool) : Returns (macroItem deeper scope isList) KindComplete? := by
    refine .bind fun c => ?_
    refine (returns_nested fun next _ => returns_macroDecl isList _).bind_of fun k hk => ?_
    exact .ite (fun _ => .bind fun _ => .pure (by rintro _ ⟨⟩)) fun _ => .pure hk
  unfold leaf
  dsimp only
  split
  · exact returns_statement (Parser.returns_declaration hscope _)
      fun _ => Parser.isSimple_declaration _ scope _
  · exact returns_statement (Parser.returns_declaration hscope _)
      fun _ => Parser.isSimple_declaration _ scope _
  · exact returns_statement (Parser.returns_existing _) fun _ => Parser.isSimple_existing _
  · exact hmacro false
  · exact hmacro true
  · exact returns_directive v levels hdeeper hscope _
  · exact returns_other fun p => ⟨trivial, trivial⟩
  · exact returns_other fun p => ⟨trivial, trivial⟩
  · exact returns_other fun e => ⟨trivial, trivial⟩
  · exact returns_statement (Parser.returns_wordItem hscope v levels _)
      fun _ => Parser.isSimple_wordItem v levels scope t.text
  · exact .bind fun _ => .bind fun _ => .pure (by rintro _ ⟨⟩)
  · refine .ite (fun _ => returns_nested fun next hnext => ?_) fun _ => .ite (fun _ => ?_)
      fun _ => returns_unexpected scope
    · exact returns_some (returns_block (collected_allItems
        (hdeeper next hnext { scope with body := .delimited } hscope) _))
    · exact returns_other fun e => ⟨trivial, trivial⟩

theorem returns_itemKind : Returns (itemKind v levels deeper scope) KindComplete? := by
  refine .bind fun c => ?_
  split
  · exact returns_unexpected scope
  · refine .ite (fun _ => returns_some (returns_site (returns_located (.bind fun c => ?_))))
      fun _ => returns_leaf v levels hdeeper hscope _
    have hmember : ({ scope with body := .siteBody } : Scope).inMacro = false := hscope
    cases c.peek? 0 with
    | none => exact .pure (by rintro _ ⟨⟩)
    | some t => exact returns_leaf v levels hdeeper hmember t

end Level

/-- An item, at any level of nesting. -/
theorem returns_item (v : Vocabulary) (levels : Nat) {scope : Scope} (hscope : scope.inMacro = false) :
    Returns (item v levels scope) Complete? := by
  induction levels generalizing scope with
  | zero => exact returns_located (returns_itemKind v 0 (by rintro _ ⟨⟩) hscope)
  | succ levels ih =>
    refine returns_located (returns_itemKind v (levels + 1) ?_ hscope)
    rintro next ⟨⟩ scope hscope
    exact ih hscope

end ItemParser

/-- **Every statement that is read outside the bodies of macros is complete.** -/
theorem Parsed.items_complete (v : Vocabulary) (text : String) :
    ∀ i ∈ (ofText v text).items, i.Outside Item.IsComplete :=
  ItemParser.collected_allItems (ItemParser.returns_item v maxNesting rfl) _ _

end ControlFile
