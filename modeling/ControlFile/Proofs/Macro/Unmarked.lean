import ControlFile.Macro.Substitution

/-!
# What the unique name does not matter for

An expression, an item or a part of one is *unmarked* if substitution in it gives the same for every
unique name, whatever the arguments are (`Substitution.Indifferent`).  It is, if the unique mark
stands nowhere in it as a name; the lemmas below say so, one for each form.

`Item.Everywhere P` says that `P` holds of an item and of all items in it.
-/

namespace ControlFile

namespace Substitution

variable {β γ : Type}

/-- The result does not depend on the unique name. -/
def Indifferent (f : Substitution → β) : Prop := ∀ bound u u', f ⟨bound, u⟩ = f ⟨bound, u'⟩

namespace Indifferent

theorem const (b : β) : Indifferent fun _ => b := fun _ _ _ => rfl

theorem comp {f : Substitution → β} (g : β → γ) (h : Indifferent f) :
    Indifferent fun s => g (f s) := fun bound u u' => congrArg g (h bound u u')

theorem bind {m : Type → Type} [Monad m] {f : Substitution → m β} {g : β → Substitution → m γ}
    (hf : Indifferent f) (hg : ∀ b, Indifferent (g b)) :
    Indifferent fun s => f s >>= fun b => g b s := by
  intro bound u u'
  change f ⟨bound, u⟩ >>= _ = f ⟨bound, u'⟩ >>= _
  rw [hf bound u u']
  exact congrArg _ (funext fun b => hg b bound u u')

theorem mapM {m : Type → Type} [Monad m] [LawfulMonad m] {f : β → Substitution → m γ} {bs : List β}
    (h : ∀ b ∈ bs, Indifferent (f b)) : Indifferent fun s => bs.mapM fun b => f b s := by
  induction bs with
  | nil =>
    simp only [List.mapM_nil]
    exact const _
  | cons b bs ih =>
    simp only [List.mapM_cons]
    exact bind (h b (by simp)) fun _ =>
      bind (ih fun c hc => h c (List.mem_cons_of_mem _ hc)) fun _ => const _

end Indifferent

/-- A name that is not the unique mark does not depend on the unique name. -/
theorem indifferent_name {n : String} (h : n ≠ uniqueMark) : Indifferent fun s => s.name n := by
  simp only [name, if_neg h]
  exact fun _ _ _ => rfl

theorem indifferent_passedThrough? (e : Expr) : Indifferent fun s => s.passedThrough? e := by
  cases e <;> exact fun _ _ _ => rfl

end Substitution

open Substitution (Indifferent indifferent_name indifferent_passedThrough?)

/-! ### Expressions -/

def Expr.Unmarked (e : Expr) : Prop := Indifferent fun s => e.substitute s

def Argument.Unmarked (a : Argument) : Prop := Indifferent fun s => a.substitute s

def Argument.AllUnmarked (as : List Argument) : Prop :=
  Indifferent fun s => Argument.substituteAll s as

def Parameter.Unmarked (p : Parameter) : Prop := Indifferent fun s => p.substitute s

def Value.Unmarked (w : Value) : Prop := Indifferent fun s => w.substitute s

def Equation.Unmarked (e : Equation) : Prop := Indifferent fun s => e.substitute s

def Uncertainty.Unmarked (u : Uncertainty) : Prop := Indifferent fun s => s.uncertainty (some u)

namespace Expr

theorem unmarked_literal (value : Literal) : (literal value).Unmarked := by
  simp only [Unmarked, substitute]
  exact .const _

theorem unmarked_ident {n : String} (h : n ≠ uniqueMark) : (ident n).Unmarked := by
  simp only [Unmarked, substitute, Substitution.ident, if_neg h]
  exact fun _ _ _ => rfl

theorem unmarked_call {n : String} {as : List Argument} (hn : n ≠ uniqueMark)
    (has : Argument.AllUnmarked as) (range : Extent) : (call n as range).Unmarked := by
  simp only [Unmarked, substitute]
  exact .bind has fun _ => .bind (indifferent_name hn) fun _ => .const _

theorem unmarked_unary {e : Expr} (h : e.Unmarked) (op : UnaryOp) : (unary op e).Unmarked := by
  simp only [Unmarked, substitute]
  exact .bind h fun _ => .const _

theorem unmarked_binary {l r : Expr} (hl : l.Unmarked) (hr : r.Unmarked) (op : BinaryOp) :
    (binary op l r).Unmarked := by
  simp only [Unmarked, substitute]
  exact .bind hl fun _ => .bind hr fun _ => .const _

theorem unmarked_paren {e : Expr} (h : e.Unmarked) : (paren e).Unmarked := by
  simp only [Unmarked, substitute]
  exact .bind h fun _ => .const _

end Expr

namespace Argument

theorem allUnmarked_nil : AllUnmarked [] := by
  simp only [AllUnmarked, substituteAll]
  exact .const _

theorem allUnmarked_cons {a : Argument} {as : List Argument} (ha : a.Unmarked)
    (has : AllUnmarked as) : AllUnmarked (a :: as) := by
  simp only [AllUnmarked, substituteAll]
  exact .bind ha fun _ => .bind has fun _ => .const _

theorem unmarked_hole : hole.Unmarked := by
  simp only [Unmarked, substitute]
  exact .const _

theorem unmarked_expr {e : Expr} (h : e.Unmarked) : (expr e).Unmarked := by
  intro bound u u'
  have hpassed := indifferent_passedThrough? e bound u u'
  have he := h bound u u'
  simp only at hpassed he
  simp only [substitute, hpassed, he]

theorem unmarked_parameter {p : Parameter} (h : p.Unmarked) : (parameter p).Unmarked := by
  simp only [Unmarked, substitute]
  exact .bind h fun _ => .const _

theorem unmarked_equation {e : Equation} (h : e.Unmarked) : (equation e).Unmarked := by
  simp only [Unmarked, substitute]
  exact .bind h fun _ => .const _

end Argument

namespace Value

theorem unmarked_absent : absent.Unmarked := by
  simp only [Unmarked, substitute]
  exact .const _

theorem unmarked_literal (value : Literal) : (literal value).Unmarked := by
  simp only [Unmarked, substitute]
  exact .const _

theorem unmarked_equation {e : Equation} (h : e.Unmarked) : (equation e).Unmarked := by
  simp only [Unmarked, substitute]
  exact .bind h fun _ => .const _

end Value

theorem Substitution.indifferent_name? {n : Option String} (h : n ≠ some uniqueMark) :
    Indifferent fun s => s.name? n := by
  cases n with
  | none => exact .const _
  | some n => exact .bind (indifferent_name fun hn => h (congrArg some hn)) fun _ => .const _

theorem Parameter.unmarked {n : Option String} {w : Value} (hn : n ≠ some uniqueMark)
    (hw : w.Unmarked) (refinement : Refinement) : (Parameter.mk refinement n w).Unmarked := by
  intro bound u u'
  have hwhole : Substitution.wholeParameter? ⟨bound, u⟩ refinement n w =
      Substitution.wholeParameter? ⟨bound, u'⟩ refinement n w := by
    cases n <;> cases w <;> rfl
  have hname := Substitution.indifferent_name? hn bound u u'
  have hvalue := hw bound u u'
  simp only at hname hvalue
  simp only [substitute, hwhole, hname, hvalue]

theorem Parameter.unmarked_ofEquation {e : Equation} (h : e.Unmarked) : (ofEquation e).Unmarked :=
  unmarked (by simp) (Value.unmarked_equation h) .plain

theorem Uncertainty.unmarked_literal (value : Literal) : (literal value).Unmarked :=
  fun _ _ _ => rfl

theorem Uncertainty.unmarked_name {n : String} (h : n ≠ uniqueMark) : (name n).Unmarked := by
  intro bound u u'
  have hname := indifferent_name h bound u u'
  simp only at hname
  simp only [Substitution.uncertainty, hname]
  rfl

theorem Equation.unmarked {body : Expr} {u : Option Uncertainty} (hbody : body.Unmarked)
    (hu : ∀ v, u = some v → v.Unmarked) (op : AssignOp) : (Equation.mk op body u).Unmarked := by
  simp only [Unmarked, substitute]
  refine .bind ?_ fun _ => .bind hbody fun _ => .const _
  cases u with
  | none => exact .const _
  | some v => exact hu v rfl

/-! ### Statements -/

namespace SiteStatement

theorem unmarked_coordinate {p : Parameter} (h : p.Unmarked) (axis : Axis) :
    Indifferent fun s => (coordinate axis p).substitute s := by
  simp only [substitute]
  exact .bind h fun _ => .const _

theorem unmarked_scalar {p : Parameter} (h : p.Unmarked) (word : SiteScalar) :
    Indifferent fun s => (scalar word p).substitute s := by
  simp only [substitute]
  exact .bind h fun _ => .const _

theorem unmarked_occupancy {o : Occupancy} (hatom : o.atom ≠ uniqueMark) (hvalue : o.value.Unmarked)
    (hmodifiers : ∀ m ∈ o.modifiers, m.value.Unmarked) :
    Indifferent fun s => (occupancy o).substitute s := by
  simp only [substitute]
  refine .bind (.mapM fun m hm => ?_) fun _ =>
    .bind (indifferent_name hatom) fun _ => .bind hvalue fun _ => .const _
  simp only [OccModifier.substitute]
  exact .bind (hmodifiers m hm) fun _ => .const _

theorem unmarked_adps {ps : Adps Parameter} (h : ∀ p ∈ ps.toList, p.Unmarked) :
    Indifferent fun s => (adps ps).substitute s := by
  simp only [substitute, Adps.mapM, bind_assoc, pure_bind]
  simp only [Adps.toList, List.mem_cons, List.not_mem_nil, or_false, forall_eq_or_imp,
    forall_eq] at h
  obtain ⟨h11, h22, h33, h12, h13, h23⟩ := h
  refine .bind h11 fun _ => ?_
  refine .bind h22 fun _ => ?_
  refine .bind h33 fun _ => ?_
  refine .bind h12 fun _ => ?_
  refine .bind h13 fun _ => ?_
  exact .bind h23 fun _ => .const _

end SiteStatement

namespace Directive

theorem unmarked_define {n : String} (h : n ≠ uniqueMark) :
    Indifferent fun s => (define n).substitute s := by
  simp only [substitute]
  exact .bind (indifferent_name h) fun _ => .const _

theorem unmarked_undef {n : String} (h : n ≠ uniqueMark) :
    Indifferent fun s => (undef n).substitute s := by
  simp only [substitute]
  exact .bind (indifferent_name h) fun _ => .const _

theorem unmarked_deleteMacros {ns : List String} (h : ∀ n ∈ ns, n ≠ uniqueMark) :
    Indifferent fun s => (deleteMacros ns).substitute s := by
  simp only [substitute]
  exact .bind (.mapM fun n hn => indifferent_name (h n hn)) fun _ => .const _

theorem unmarked_prm {n : String} {e : Equation} (hn : n ≠ uniqueMark) (he : e.Unmarked) :
    Indifferent fun s => (prm n e).substitute s := by
  simp only [substitute]
  exact .bind (indifferent_name hn) fun _ => .bind he fun _ => .const _

theorem unmarked_out {e : Expr} (h : e.Unmarked) :
    Indifferent fun s => (out e).substitute s := by
  simp only [substitute]
  exact .bind h fun _ => .const _

end Directive

/-! ### Items -/

def ItemKind.Unmarked (k : ItemKind) : Prop := Indifferent fun s => k.substitute s

def Item.Unmarked (i : Item) : Prop := Indifferent fun s => i.substitute s

def Chain.Unmarked (c : Chain) : Prop := Indifferent fun s => c.substitute s

def Condition.Unmarked (c : Condition) : Prop := Indifferent fun s => c.substitute s

theorem Item.unmarked {k : ItemKind} (h : k.Unmarked) (range : Extent) :
    (Item.mk k range).Unmarked := by
  simp only [Unmarked, substitute]
  exact .bind h fun _ => .const _

theorem Item.indifferent_substituteAll {is : List Item} (h : ∀ i ∈ is, i.Unmarked) :
    Indifferent fun s => Item.substituteAll s is := by
  induction is with
  | nil =>
    simp only [substituteAll]
    exact .const _
  | cons i is ih =>
    simp only [substituteAll]
    refine .bind (h i (by simp)) fun _ => ?_
    exact .bind (ih fun j hj => h j (List.mem_cons_of_mem _ hj)) fun _ => .const _

namespace Condition

theorem unmarked_expr {e : Expr} (h : e.Unmarked) : (expr e).Unmarked := by
  simp only [Unmarked, substitute]
  exact .bind h fun _ => .const _

theorem unmarked_defined {n : String} (h : n ≠ uniqueMark) (negated : Bool) :
    (defined n negated).Unmarked := by
  simp only [Unmarked, substitute]
  exact .bind (indifferent_name h) fun _ => .const _

theorem unmarked_argument (n : String) (test : ArgumentTest) :
    (argument n test).Unmarked := fun _ _ _ => rfl

end Condition

namespace Chain

theorem unmarked_done : done.Unmarked := by
  simp only [Unmarked, substitute]
  exact .const _

theorem unmarked_otherwise {is : List Item} (h : ∀ i ∈ is, i.Unmarked) :
    (otherwise is).Unmarked := by
  simp only [Unmarked, substitute]
  exact .bind (Item.indifferent_substituteAll h) fun _ => .const _

theorem unmarked_branch {c : Condition} {is : List Item} {rest : Chain} (hc : c.Unmarked)
    (his : ∀ i ∈ is, i.Unmarked) (hrest : rest.Unmarked) : (branch c is rest).Unmarked := by
  simp only [Unmarked, substitute]
  refine .bind (.comp _ hc) fun _ => ?_
  refine .bind (Item.indifferent_substituteAll his) fun _ => ?_
  exact .bind hrest fun _ => .const _

end Chain

namespace ItemKind

theorem unmarked_expr {e : Expr} (h : e.Unmarked) : (expr e).Unmarked := by
  intro bound u u'
  have hpassed := indifferent_passedThrough? e bound u u'
  have he := h bound u u'
  simp only at hpassed he
  simp only [substitute, Expr.substituteItem, hpassed, he]

theorem unmarked_keyword {e : Option Equation} (h : ∀ f, e = some f → f.Unmarked) (word : String) :
    (keyword word e).Unmarked := by
  cases e with
  | none =>
    simp only [Unmarked, substitute]
    exact .const _
  | some f =>
    simp only [Unmarked, substitute]
    exact .bind (.comp _ (h f rfl)) fun _ => .const _

theorem unmarked_parameter {p : Parameter} (h : p.Unmarked) : (parameter p).Unmarked := by
  simp only [Unmarked, substitute]
  exact .bind (.comp _ h) fun _ => .const _

theorem unmarked_equation {e : Equation} (h : e.Unmarked) : (equation e).Unmarked := by
  simp only [Unmarked, substitute]
  exact .bind (.comp _ h) fun _ => .const _

theorem unmarked_assignment {n : String} {e : Equation} (hn : n ≠ uniqueMark) (he : e.Unmarked) :
    (assignment n e).Unmarked := by
  simp only [Unmarked, substitute]
  exact .bind (.comp _ (indifferent_name hn)) fun _ => .bind (.comp _ he) fun _ => .const _

theorem unmarked_declaration {p : Parameter} (h : p.Unmarked) (scope : VariableScope) :
    (declaration scope p).Unmarked := by
  simp only [Unmarked, substitute]
  exact .bind (.comp _ h) fun _ => .const _

theorem unmarked_existing {a : Assignment} (hn : a.name ≠ uniqueMark) (he : a.equation.Unmarked) :
    (existing a).Unmarked := by
  simp only [Unmarked, substitute]
  exact .bind (.comp _ (indifferent_name hn)) fun _ => .bind (.comp _ he) fun _ => .const _

theorem unmarked_site {n : String} {members : List Item} (hn : n ≠ uniqueMark)
    (h : ∀ i ∈ members, i.Unmarked) : (site n members).Unmarked := by
  simp only [Unmarked, substitute]
  refine .bind (.comp _ (indifferent_name hn)) fun _ => ?_
  exact .bind (Item.indifferent_substituteAll h) fun _ => .const _

theorem unmarked_siteStatement {t : SiteStatement} (h : Indifferent fun s => t.substitute s) :
    (siteStatement t).Unmarked := by
  simp only [Unmarked, substitute]
  exact .bind (.comp _ h) fun _ => .const _

theorem unmarked_directive {d : Directive} (h : Indifferent fun s => d.substitute s) :
    (directive d).Unmarked := by
  simp only [Unmarked, substitute]
  exact .bind (.comp _ h) fun _ => .const _

theorem unmarked_macroDecl (isList : Bool) (signatures : List Signature) (body : List Item) :
    (macroDecl isList signatures body).Unmarked := by
  simp only [Unmarked, substitute]
  exact .const _

theorem unmarked_conditional {c : Chain} (h : c.Unmarked) (family : Family) :
    (conditional family c).Unmarked := by
  simp only [Unmarked, substitute]
  exact .bind h fun _ => .const _

theorem unmarked_bodyOp (op : BodyOp) (param : String) : (bodyOp op param).Unmarked := by
  simp only [Unmarked, substitute]
  exact fun _ _ _ => rfl

theorem unmarked_block {is : List Item} (h : ∀ i ∈ is, i.Unmarked) : (block is).Unmarked := by
  simp only [Unmarked, substitute]
  exact .bind (Item.indifferent_substituteAll h) fun _ => .const _

end ItemKind

/-! ### All items in an item -/

mutual

/-- `P` holds of the item and of all items in it. -/
def Item.Everywhere (P : Item → Prop) : Item → Prop
  | ⟨kind, range⟩ => P ⟨kind, range⟩ ∧ kind.Everywhere P

/-- `P` holds of all items in what an item is. -/
def ItemKind.Everywhere (P : Item → Prop) : ItemKind → Prop
  | .site _ members => Item.AllEverywhere P members
  | .macroDecl _ _ body => Item.AllEverywhere P body
  | .conditional _ chain => chain.Everywhere P
  | .block items => Item.AllEverywhere P items
  | _ => True

/-- `P` holds of all items in the branches of a chain. -/
def Chain.Everywhere (P : Item → Prop) : Chain → Prop
  | .done => True
  | .otherwise items => Item.AllEverywhere P items
  | .branch _ items rest => Item.AllEverywhere P items ∧ rest.Everywhere P

/-- `P` holds of the items and of all items in them. -/
def Item.AllEverywhere (P : Item → Prop) : List Item → Prop
  | [] => True
  | i :: is => i.Everywhere P ∧ Item.AllEverywhere P is

end

theorem Item.allEverywhere_iff {P : Item → Prop} {is : List Item} :
    AllEverywhere P is ↔ ∀ i ∈ is, i.Everywhere P := by
  induction is with
  | nil => simp [AllEverywhere]
  | cons i is ih => simp [AllEverywhere, ih]

theorem Item.everywhere_iff {P : Item → Prop} {i : Item} :
    i.Everywhere P ↔ P i ∧ i.kind.Everywhere P := by
  cases i
  rw [Everywhere]

mutual

/-- What follows from things that all hold everywhere holds everywhere. -/
theorem Item.everywhere_of_all {ι : Type} {P : ι → Item → Prop} {R : Item → Prop}
    (h : ∀ i, (∀ x, P x i) → R i) : ∀ i : Item, (∀ x, i.Everywhere (P x)) → i.Everywhere R
  | ⟨kind, _⟩, hp => by
    have hboth := fun x => Item.everywhere_iff.1 (hp x)
    rw [Item.Everywhere]
    exact ⟨h _ fun x => (hboth x).1, ItemKind.everywhere_of_all h kind fun x => (hboth x).2⟩

theorem ItemKind.everywhere_of_all {ι : Type} {P : ι → Item → Prop} {R : Item → Prop}
    (h : ∀ i, (∀ x, P x i) → R i) : ∀ k : ItemKind, (∀ x, k.Everywhere (P x)) → k.Everywhere R
  | .site _ members, hp => Item.allEverywhere_of_all h members hp
  | .macroDecl _ _ body, hp => Item.allEverywhere_of_all h body hp
  | .conditional _ chain, hp => Chain.everywhere_of_all h chain hp
  | .block items, hp => Item.allEverywhere_of_all h items hp
  | .keyword .., _ | .expr _, _ | .parameter _, _ | .equation _, _ | .assignment .., _ => trivial
  | .declaration .., _ | .existing _, _ | .siteStatement _, _ | .directive _, _ => trivial
  | .bodyOp .., _ => trivial

theorem Chain.everywhere_of_all {ι : Type} {P : ι → Item → Prop} {R : Item → Prop}
    (h : ∀ i, (∀ x, P x i) → R i) : ∀ c : Chain, (∀ x, c.Everywhere (P x)) → c.Everywhere R
  | .done, _ => trivial
  | .otherwise items, hp => Item.allEverywhere_of_all h items hp
  | .branch _ items rest, hp =>
    ⟨Item.allEverywhere_of_all h items fun x => (hp x).1,
      Chain.everywhere_of_all h rest fun x => (hp x).2⟩

theorem Item.allEverywhere_of_all {ι : Type} {P : ι → Item → Prop} {R : Item → Prop}
    (h : ∀ i, (∀ x, P x i) → R i) :
    ∀ is : List Item, (∀ x, Item.AllEverywhere (P x) is) → Item.AllEverywhere R is
  | [], _ => trivial
  | i :: is, hp =>
    ⟨Item.everywhere_of_all h i fun x => (hp x).1,
      Item.allEverywhere_of_all h is fun x => (hp x).2⟩

end

/-- What holds of every item holds everywhere. -/
theorem Item.everywhere_of_forall {P : Item → Prop} (h : ∀ i, P i) (i : Item) : i.Everywhere P :=
  i.everywhere_of_all (P := fun (_ : Empty) _ => True) (fun j _ => h j) nofun

theorem Chain.everywhere_of_forall {P : Item → Prop} (h : ∀ i, P i) (c : Chain) : c.Everywhere P :=
  c.everywhere_of_all (P := fun (_ : Empty) _ => True) (fun j _ => h j) nofun

theorem Item.allEverywhere_of_forall {P : Item → Prop} (h : ∀ i, P i) (is : List Item) :
    Item.AllEverywhere P is :=
  allEverywhere_iff.2 fun i _ => everywhere_of_forall h i

theorem Item.Everywhere.self {P : Item → Prop} {i : Item} (h : i.Everywhere P) : P i :=
  (everywhere_iff.1 h).1

end ControlFile
