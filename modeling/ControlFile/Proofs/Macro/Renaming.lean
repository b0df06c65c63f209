import ControlFile.Proofs.Macro.Evaluation
import ControlFile.Proofs.Macro.Names

/-!
# The names of parameters do not matter

A parameter may be given another name, in the head of a macro and wherever it stands in the body.  The copies
of the body are the same then, and where one cannot be made there is a fault of the same kind, which may say the
new name (`Item.substitute_rename`).

The unique mark is no name, so it may be neither the old name nor the new one.  A macro in the body of a macro
is copied as it is, with parameters of its own, so it is left as it is here too.
-/

namespace ControlFile

/-! ### New names -/

/-- The name `q` in the place of `p`. -/
def renamed (p q n : String) : String := if n = p then q else n

section New

variable (f : String → String)

def Uncertainty.rename : Option Uncertainty → Option Uncertainty
  | some (.name n) => some (.name (f n))
  | u => u

mutual

/-- The expression with new names, those of its calls among them. -/
def Expr.rename : Expr → Expr
  | .literal value => .literal value
  | .ident n => .ident (f n)
  | .call n arguments range => .call (f n) (Argument.renameAll arguments) range
  | .unary op operand => .unary op operand.rename
  | .binary op lhs rhs => .binary op lhs.rename rhs.rename
  | .paren inner => .paren inner.rename

def Argument.renameAll : List Argument → List Argument
  | [] => []
  | a :: as => a.rename :: Argument.renameAll as

def Argument.rename : Argument → Argument
  | .hole => .hole
  | .expr e => .expr e.rename
  | .parameter p => .parameter p.rename
  | .equation e => .equation e.rename

def Parameter.rename : Parameter → Parameter
  | ⟨refinement, n, value⟩ => ⟨refinement, n.map f, value.rename⟩

def Value.rename : Value → Value
  | .absent => .absent
  | .literal value => .literal value
  | .equation e => .equation e.rename

def Equation.rename : Equation → Equation
  | ⟨op, body, uncertainty⟩ => ⟨op, body.rename, Uncertainty.rename f uncertainty⟩

end

def OccModifier.rename (m : OccModifier) : OccModifier := ⟨m.word, m.value.rename f⟩

def Adps.rename (values : Adps Parameter) : Adps Parameter :=
  ⟨values.u11.rename f, values.u22.rename f, values.u33.rename f, values.u12.rename f, values.u13.rename f,
    values.u23.rename f⟩

def SiteStatement.rename : SiteStatement → SiteStatement
  | .coordinate axis value => .coordinate axis (value.rename f)
  | .occupancy occ => .occupancy ⟨f occ.atom, occ.value.rename f, occ.modifiers.map (OccModifier.rename f)⟩
  | .scalar word value => .scalar word (value.rename f)
  | .adps values => .adps (values.rename f)

/-- The path of a file is no name. -/
def Directive.rename : Directive → Directive
  | .define n => .define (f n)
  | .undef n => .undef (f n)
  | .seed => .seed
  | .includeFile path => .includeFile path
  | .deleteMacros names => .deleteMacros (names.map f)
  | .prm n equation => .prm (f n) (equation.rename f)
  | .out e => .out (e.rename f)

def Condition.rename : Condition → Condition
  | .expr e => .expr (e.rename f)
  | .defined symbol negated => .defined (f symbol) negated
  | .argument param test => .argument (f param) test

mutual

/-- The item with new names wherever a parameter can stand.  Keywords are no names. -/
def Item.rename : Item → Item
  | ⟨kind, range⟩ => ⟨kind.rename, range⟩

def ItemKind.rename : ItemKind → ItemKind
  | .expr e => .expr (e.rename f)
  | .keyword word equation => .keyword word (equation.map (Equation.rename f))
  | .parameter p => .parameter (p.rename f)
  | .equation e => .equation (e.rename f)
  | .assignment n e => .assignment (f n) (e.rename f)
  | .declaration scope p => .declaration scope (p.rename f)
  | .existing a => .existing ⟨a.refinement, f a.name, a.equation.rename f⟩
  | .site n members => .site (f n) (Item.renameAll members)
  | .siteStatement statement => .siteStatement (statement.rename f)
  | .directive d => .directive (d.rename f)
  | .macroDecl isList signatures body => .macroDecl isList signatures body
  | .conditional family chain => .conditional family chain.rename
  | .bodyOp op param => .bodyOp op (f param)
  | .block items => .block (Item.renameAll items)

def Chain.rename : Chain → Chain
  | .done => .done
  | .otherwise items => .otherwise (Item.renameAll items)
  | .branch condition items rest => .branch (condition.rename f) (Item.renameAll items) rest.rename

def Item.renameAll : List Item → List Item
  | [] => []
  | i :: is => i.rename :: Item.renameAll is

end

/-- The arguments stay as they are: they come from outside of the macro. -/
def Substitution.rename (s : Substitution) : Substitution := ⟨s.bound.map fun (n, a) => (f n, a), s.unique⟩

end New

/-! ### Copies that are the same -/

section Same

variable {α β γ : Type}

theorem SameOutcome.map {x y : Except Fault α} (h : SameOutcome x y) (g : α → β) :
    SameOutcome (x >>= fun a => return g a) (y >>= fun a => return g a) := h.bind fun a => .result (g a)

theorem SameOutcome.mapM {ρ : α → α} {g g' : α → Except Fault β} {as : List α}
    (h : ∀ a ∈ as, SameOutcome (g' (ρ a)) (g a)) : SameOutcome ((as.map ρ).mapM g') (as.mapM g) := by
  induction as with
  | nil => exact .result []
  | cons a as ih =>
    obtain ⟨ha, has⟩ := List.forall_mem_cons.1 h
    rw [List.map_cons, List.mapM_cons, List.mapM_cons]
    exact ha.bind fun b => (ih has).map (b :: ·)

/-- The same result, or faults of one kind, with as many unique names given out. -/
inductive SameCopy : EStateM.Result Fault Nat α → EStateM.Result Fault Nat α → Prop
  | made (a : α) (n : Nat) : SameCopy (.ok a n) (.ok a n)
  | refused {fault fault' : Fault} (n : Nat) (h : fault.kind = fault'.kind) :
      SameCopy (.error fault n) (.error fault' n)

namespace Substituting

/-- The two steps come to the same, however many unique names have been given out before. -/
def Same (e e' : Substituting α) : Prop := ∀ n, SameCopy (e n) (e' n)

namespace Same

theorem refl (e : Substituting α) : Same e e := by
  intro n
  cases e n with
  | ok a m => exact .made a m
  | error fault m => exact .refused m rfl

theorem of_eq {e e' : Substituting α} (h : e = e') : Same e e' := h ▸ refl e

theorem lift {x y : Except Fault α} (h : SameOutcome x y) :
    Same (liftM x : Substituting α) (liftM y) := by
  intro n
  cases h with
  | result a => exact .made a n
  | faults h => exact .refused n h

theorem bind {e e' : Substituting α} {g g' : α → Substituting β} (h : Same e e') (hg : ∀ a, Same (g a) (g' a)) :
    Same (e >>= g) (e' >>= g') := by
  intro n
  have hn := h n
  change SameCopy (EStateM.bind e g n) (EStateM.bind e' g' n)
  unfold EStateM.bind
  generalize e n = x, e' n = y at hn
  cases hn with
  | made a m => exact hg a m
  | refused m h => exact .refused m h

theorem map {e e' : Substituting α} (h : Same e e') (g : α → β) :
    Same (e >>= fun a => return g a) (e' >>= fun a => return g a) := h.bind fun a => refl (return g a)

end Same

end Substituting

end Same

open Substituting (Same)

namespace Substitution

/-- Under its new name each of the names `ns` is bound as it was.  Only names that are bound are changed, and
the unique mark is not among the old names, nor among the new ones. -/
structure Renames (f : String → String) (s s' : Substitution) (ns : List String) : Prop where
  unique : s'.unique = s.unique
  lookup : ∀ n ∈ ns, s'.lookup (f n) = s.lookup n
  free : ∀ n ∈ ns, s.lookup n = none → f n = n
  mark : ∀ n ∈ ns, f n = uniqueMark ↔ n = uniqueMark

namespace Renames

variable {f : String → String} {s s' : Substitution} {n : String} {ns ms : List String}

theorem of_subset (h : Renames f s s' ns) (hms : ms ⊆ ns) : Renames f s s' ms :=
  ⟨h.unique, fun n hn => h.lookup n (hms hn), fun n hn => h.free n (hms hn), fun n hn => h.mark n (hms hn)⟩

theorem left (h : Renames f s s' (ns ++ ms)) : Renames f s s' ns := h.of_subset (List.subset_append_left ns ms)

theorem right (h : Renames f s s' (ns ++ ms)) : Renames f s s' ms := h.of_subset (List.subset_append_right ns ms)

theorem of_mem (h : Renames f s s' ns) (hn : n ∈ ns) : Renames f s s' [n] :=
  h.of_subset (List.cons_subset.2 ⟨hn, List.nil_subset ns⟩)

/-- In a row of parts the names of each part are names of the whole. -/
theorem of_flatMap {α : Type} {g : α → List String} {as : List α} (h : Renames f s s' (as.flatMap g)) {a : α}
    (ha : a ∈ as) : Renames f s s' (g a) :=
  h.of_subset fun _ hn => List.mem_flatMap.2 ⟨a, ha, hn⟩

theorem lookup_eq (h : Renames f s s' [n]) : s'.lookup (f n) = s.lookup n := h.lookup n (List.mem_singleton_self n)

theorem free_eq (h : Renames f s s' [n]) (hnone : s.lookup n = none) : f n = n :=
  h.free n (List.mem_singleton_self n) hnone

theorem mark_iff (h : Renames f s s' [n]) : f n = uniqueMark ↔ n = uniqueMark := h.mark n (List.mem_singleton_self n)

/-! ### Places for names -/

theorem name (h : Renames f s s' [n]) : SameOutcome (s'.name (f n)) (s.name n) := by
  unfold Substitution.name
  by_cases hn : n = uniqueMark
  · rw [if_pos hn, if_pos (h.mark_iff.2 hn), h.unique]
    exact .result s.unique
  · rw [if_neg hn, if_neg (mt h.mark_iff.1 hn), h.lookup_eq]
    cases hlookup : s.lookup n with
    | none => rw [h.free_eq hlookup]; exact .result n
    | some a =>
      dsimp only
      cases a.toWord? with
      | some word => exact .result word
      | none => exact .faults rfl

theorem ident (h : Renames f s s' [n]) : SameOutcome (s'.ident (f n)) (s.ident n) := by
  unfold Substitution.ident
  by_cases hn : n = uniqueMark
  · rw [if_pos hn, if_pos (h.mark_iff.2 hn), h.unique]
    exact .result _
  · rw [if_neg hn, if_neg (mt h.mark_iff.1 hn), h.lookup_eq]
    cases hlookup : s.lookup n with
    | none => rw [h.free_eq hlookup]; exact .result (Expr.ident n)
    | some a =>
      dsimp only
      cases a.toExpr? with
      | some e => exact .result e
      | none => exact .faults rfl

theorem name? {o : Option String} (h : Renames f s s' o.toList) :
    SameOutcome (s'.name? (o.map f)) (s.name? o) := by
  cases o with
  | none => exact .result none
  | some n => exact (name h).map some

/-- An error estimate that is no parameter is kept, the unique mark too. -/
theorem uncertainty {u : Option Uncertainty} (h : Renames f s s' (Uncertainty.names u)) :
    SameOutcome (s'.uncertainty (Uncertainty.rename f u)) (s.uncertainty u) := by
  match u with
  | none | some (.literal _) => exact .result _
  | some (.name n) =>
    have hn : Renames f s s' [n] := h
    rw [Uncertainty.rename, Substitution.uncertainty, Substitution.uncertainty, hn.lookup_eq]
    cases hlookup : s.lookup n with
    | none => rw [hn.free_eq hlookup]; exact .result _
    | some a =>
      have hname : SameOutcome (s'.name (f n) >>= fun m => return some (Uncertainty.name m))
          (s.name n >>= fun m => return some (Uncertainty.name m)) := hn.name.map _
      cases a with
      | expr e =>
        cases e with
        | literal value => exact .result _
        | _ => exact hname
      | _ => exact hname

theorem passedThrough?_eq {e : Expr} (h : Renames f s s' e.names) :
    s'.passedThrough? (e.rename f) = s.passedThrough? e := by
  cases e with
  | ident n => exact lookup_eq (by rwa [Expr.names] at h)
  | _ => rfl

theorem wholeParameter?_eq {refinement : Refinement} {o : Option String} {value : Value}
    (h : Renames f s s' o.toList) :
    s'.wholeParameter? refinement (o.map f) (value.rename f) = s.wholeParameter? refinement o value := by
  cases o with
  | none => rfl
  | some n =>
    cases value with
    | absent =>
      have hlookup : s'.lookup (f n) = s.lookup n := lookup_eq h
      rw [Value.rename, Option.map_some, wholeParameter?, wholeParameter?, hlookup]
    | _ => rfl

end Renames

end Substitution

/-! ### Expressions -/

section Copies

variable {f : String → String} {s s' : Substitution}

mutual

theorem Expr.sameOutcome_rename : (e : Expr) → s.Renames f s' e.names →
    SameOutcome ((e.rename f).substitute s') (e.substitute s)
  | .literal _, _ => .of_eq rfl
  | .ident n, h => by
    rw [Expr.names] at h
    rw [Expr.rename, Expr.substitute, Expr.substitute]
    exact h.ident
  | .call n arguments _, h => by
    rw [Expr.names] at h
    rw [Expr.rename, Expr.substitute, Expr.substitute]
    exact (Argument.sameOutcome_renameAll arguments h.right).bind fun _ => h.left.name.map _
  | .unary _ operand, h => by
    rw [Expr.names] at h
    rw [Expr.rename, Expr.substitute, Expr.substitute]
    exact (operand.sameOutcome_rename h).map _
  | .binary _ lhs rhs, h => by
    rw [Expr.names] at h
    rw [Expr.rename, Expr.substitute, Expr.substitute]
    exact (lhs.sameOutcome_rename h.left).bind fun _ => (rhs.sameOutcome_rename h.right).map _
  | .paren inner, h => by
    rw [Expr.names] at h
    rw [Expr.rename, Expr.substitute, Expr.substitute]
    exact (inner.sameOutcome_rename h).map _

theorem Argument.sameOutcome_renameAll : (as : List Argument) → s.Renames f s' (Argument.namesAll as) →
    SameOutcome (Argument.substituteAll s' (Argument.renameAll f as)) (Argument.substituteAll s as)
  | [], _ => .result []
  | a :: as, h => by
    rw [Argument.namesAll] at h
    rw [Argument.renameAll, Argument.substituteAll, Argument.substituteAll]
    exact (a.sameOutcome_rename h.left).bind fun _ => (Argument.sameOutcome_renameAll as h.right).map _

theorem Argument.sameOutcome_rename : (a : Argument) → s.Renames f s' a.names →
    SameOutcome ((a.rename f).substitute s') (a.substitute s)
  | .hole, _ => .of_eq rfl
  | .expr e, h => by
    rw [Argument.names] at h
    rw [Argument.rename, Argument.substitute, Argument.substitute, h.passedThrough?_eq]
    cases s.passedThrough? e with
    | some a => exact .result a
    | none => exact (e.sameOutcome_rename h).map _
  | .parameter p, h => by
    rw [Argument.names] at h
    rw [Argument.rename, Argument.substitute, Argument.substitute]
    exact (p.sameOutcome_rename h).map _
  | .equation e, h => by
    rw [Argument.names] at h
    rw [Argument.rename, Argument.substitute, Argument.substitute]
    exact (e.sameOutcome_rename h).map _

theorem Parameter.sameOutcome_rename : (p : Parameter) → s.Renames f s' p.names →
    SameOutcome ((p.rename f).substitute s') (p.substitute s)
  | ⟨refinement, n, value⟩, h => by
    rw [Parameter.names] at h
    rw [Parameter.rename, Parameter.substitute, Parameter.substitute, h.left.wholeParameter?_eq]
    cases s.wholeParameter? refinement n value with
    | some p => exact .result p
    | none => exact h.left.name?.bind fun _ => (value.sameOutcome_rename h.right).map _

theorem Value.sameOutcome_rename : (w : Value) → s.Renames f s' w.names →
    SameOutcome ((w.rename f).substitute s') (w.substitute s)
  | .absent, _ | .literal _, _ => .of_eq rfl
  | .equation e, h => by
    rw [Value.names] at h
    rw [Value.rename, Value.substitute, Value.substitute]
    exact (e.sameOutcome_rename h).map _

theorem Equation.sameOutcome_rename : (e : Equation) → s.Renames f s' e.names →
    SameOutcome ((e.rename f).substitute s') (e.substitute s)
  | ⟨op, body, u⟩, h => by
    rw [Equation.names] at h
    rw [Equation.rename, Equation.substitute, Equation.substitute]
    exact h.right.uncertainty.bind fun _ => (body.sameOutcome_rename h.left).map _

end

/-! ### Items -/

theorem Adps.sameOutcome_rename {values : Adps Parameter}
    (h : ∀ p ∈ values.toList, SameOutcome ((p.rename f).substitute s') (p.substitute s)) :
    SameOutcome ((values.rename f).mapM (Parameter.substitute s')) (values.mapM (Parameter.substitute s)) := by
  simp only [Adps.toList, List.forall_mem_cons] at h
  obtain ⟨h11, h22, h33, h12, h13, h23, -⟩ := h
  refine h11.bind fun _ => ?_
  refine h22.bind fun _ => ?_
  refine h33.bind fun _ => ?_
  refine h12.bind fun _ => ?_
  refine h13.bind fun _ => ?_
  exact h23.map _

theorem SiteStatement.sameOutcome_rename (t : SiteStatement) (h : s.Renames f s' t.names) :
    SameOutcome ((t.rename f).substitute s') (t.substitute s) := by
  cases t with
  | coordinate axis value => exact (value.sameOutcome_rename h).map _
  | scalar word value => exact (value.sameOutcome_rename h).map _
  | occupancy occ =>
    rw [names] at h
    have hmodifiers : SameOutcome ((occ.modifiers.map (OccModifier.rename f)).mapM (OccModifier.substitute s'))
        (occ.modifiers.mapM (OccModifier.substitute s)) :=
      .mapM fun m hm => (m.value.sameOutcome_rename (h.right.right.of_flatMap hm)).map _
    refine hmodifiers.bind fun _ => ?_
    refine h.left.name.bind fun _ => ?_
    exact (occ.value.sameOutcome_rename h.right.left).map _
  | adps values =>
    rw [names] at h
    exact (Adps.sameOutcome_rename fun p hp => p.sameOutcome_rename (h.of_flatMap hp)).map _

theorem Directive.sameOutcome_rename (d : Directive) (h : s.Renames f s' d.names) :
    SameOutcome ((d.rename f).substitute s') (d.substitute s) := by
  cases d with
  | define n => exact (Substitution.Renames.name h).map _
  | undef n => exact (Substitution.Renames.name h).map _
  | seed => exact .of_eq rfl
  | includeFile path => exact .of_eq rfl
  | deleteMacros ns =>
    have hnames : SameOutcome ((ns.map f).mapM s'.name) (ns.mapM s.name) :=
      .mapM fun n hn => (h.of_mem hn).name
    exact hnames.map _
  | prm n equation =>
    rw [names] at h
    exact h.left.name.bind fun _ => (equation.sameOutcome_rename h.right).map _
  | out e => exact (e.sameOutcome_rename h).map _

theorem Condition.sameOutcome_rename (c : Condition) (h : s.Renames f s' c.names) :
    SameOutcome ((c.rename f).substitute s') (c.substitute s) := by
  cases c with
  | expr e => exact (e.sameOutcome_rename h).map _
  | defined symbol negated => exact (Substitution.Renames.name h).map _
  | argument param test =>
    rw [rename, substitute, substitute, Substitution.Renames.lookup_eq h]
    cases s.lookup param with
    | some a => exact .result _
    | none => exact .faults rfl

theorem BodyOp.same_rename (op : BodyOp) (param : String) (h : s.Renames f s' [param]) :
    Same (op.substitute s' (f param)) (op.substitute s param) := by
  rw [substitute, substitute, h.lookup_eq]
  cases hlookup : s.lookup param with
  | none => rw [h.free_eq hlookup]; exact .refl _
  | some a =>
    cases op with
    | out =>
      dsimp only
      cases a.toExpr? with
      | some e => exact .refl _
      | none => exact fun n => .refused n rfl
    | _ => exact .refl _

theorem Expr.sameOutcome_renameItem (e : Expr) (h : s.Renames f s' e.names) :
    SameOutcome ((e.rename f).substituteItem s') (e.substituteItem s) := by
  rw [substituteItem, substituteItem, h.passedThrough?_eq]
  cases s.passedThrough? e with
  | some a => exact .result _
  | none => exact (e.sameOutcome_rename h).map _

mutual

theorem Item.same_rename : (i : Item) → s.Renames f s' i.names →
    Same ((i.rename f).substitute s') (i.substitute s)
  | ⟨kind, _⟩, h => by
    rw [Item.names] at h
    rw [Item.rename, Item.substitute, Item.substitute]
    exact (kind.same_rename h).bind fun copy => .refl _

theorem ItemKind.same_rename : (k : ItemKind) → s.Renames f s' k.names →
    Same ((k.rename f).substitute s') (k.substitute s)
  | .expr e, h => by
    rw [ItemKind.names] at h
    rw [ItemKind.rename, ItemKind.substitute, ItemKind.substitute]
    exact .lift (e.sameOutcome_renameItem h)
  | .keyword _ none, _ => .of_eq rfl
  | .keyword _ (some e), h => by
    rw [ItemKind.names] at h
    rw [ItemKind.rename, Option.map_some, ItemKind.substitute, ItemKind.substitute]
    exact (Same.lift (e.sameOutcome_rename h)).map _
  | .equation e, h => by
    rw [ItemKind.names] at h
    rw [ItemKind.rename, ItemKind.substitute, ItemKind.substitute]
    exact (Same.lift (e.sameOutcome_rename h)).map _
  | .parameter p, h => by
    rw [ItemKind.names] at h
    rw [ItemKind.rename, ItemKind.substitute, ItemKind.substitute]
    exact (Same.lift (p.sameOutcome_rename h)).map _
  | .declaration _ p, h => by
    rw [ItemKind.names] at h
    rw [ItemKind.rename, ItemKind.substitute, ItemKind.substitute]
    exact (Same.lift (p.sameOutcome_rename h)).map _
  | .assignment n e, h => by
    rw [ItemKind.names] at h
    rw [ItemKind.rename, ItemKind.substitute, ItemKind.substitute]
    exact (Same.lift h.left.name).bind fun _ => (Same.lift (e.sameOutcome_rename h.right)).map _
  | .existing a, h => by
    rw [ItemKind.names] at h
    rw [ItemKind.rename, ItemKind.substitute, ItemKind.substitute]
    exact (Same.lift h.left.name).bind fun _ => (Same.lift (a.equation.sameOutcome_rename h.right)).map _
  | .site n members, h => by
    rw [ItemKind.names] at h
    rw [ItemKind.rename, ItemKind.substitute, ItemKind.substitute]
    exact (Same.lift h.left.name).bind fun _ => (Item.same_renameAll members h.right).map _
  | .siteStatement t, h => by
    rw [ItemKind.names] at h
    rw [ItemKind.rename, ItemKind.substitute, ItemKind.substitute]
    exact (Same.lift (t.sameOutcome_rename h)).map _
  | .directive d, h => by
    rw [ItemKind.names] at h
    rw [ItemKind.rename, ItemKind.substitute, ItemKind.substitute]
    exact (Same.lift (d.sameOutcome_rename h)).map _
  | .macroDecl .., _ => .of_eq rfl
  | .conditional _ chain, h => by
    rw [ItemKind.names] at h
    rw [ItemKind.rename, ItemKind.substitute, ItemKind.substitute]
    exact (chain.same_rename h).map _
  | .bodyOp op param, h => by
    rw [ItemKind.names] at h
    rw [ItemKind.rename, ItemKind.substitute, ItemKind.substitute]
    exact op.same_rename param h
  | .block items, h => by
    rw [ItemKind.names] at h
    rw [ItemKind.rename, ItemKind.substitute, ItemKind.substitute]
    exact (Item.same_renameAll items h).map _

theorem Chain.same_rename : (c : Chain) → s.Renames f s' c.names →
    Same ((c.rename f).substitute s') (c.substitute s)
  | .done, _ => .of_eq rfl
  | .otherwise items, h => by
    rw [Chain.names] at h
    rw [Chain.rename, Chain.substitute, Chain.substitute]
    exact (Item.same_renameAll items h).map _
  | .branch condition items rest, h => by
    rw [Chain.names] at h
    rw [Chain.rename, Chain.substitute, Chain.substitute]
    refine (Same.lift (condition.sameOutcome_rename h.left)).bind fun _ => ?_
    refine (Item.same_renameAll items h.right.left).bind fun _ => ?_
    exact (rest.same_rename h.right.right).map _

theorem Item.same_renameAll : (is : List Item) → s.Renames f s' (Item.namesAll is) →
    Same (Item.substituteAll s' (Item.renameAll f is)) (Item.substituteAll s is)
  | [], _ => .refl (return [])
  | i :: is, h => by
    rw [Item.namesAll] at h
    rw [Item.renameAll, Item.substituteAll, Item.substituteAll]
    exact (i.same_rename h.left).bind fun _ => (Item.same_renameAll is h.right).map _

end

end Copies

/-! ### One parameter -/

theorem renamed_inj {p q m n : String} (hm : m ≠ q) (hn : n ≠ q) : renamed p q m = renamed p q n ↔ m = n := by
  unfold renamed
  by_cases hmp : m = p <;> by_cases hnp : n = p
  · simp [hmp, hnp]
  · simp [hmp, hnp, Ne.symm hn, Ne.symm hnp]
  · simp [hmp, hnp, hm]
  · simp [hmp, hnp]

/-- A name that is not bound is free to be the new name. -/
theorem Bindings.get?_rename {p q n : String} {bound : Bindings} (hq : bound.get? q = none) (hn : n ≠ q) :
    Assoc.get? (bound.map fun (m, a) => (renamed p q m, a)) (renamed p q n) = bound.get? n := by
  induction bound with
  | nil => rfl
  | cons entry bound ih =>
    obtain ⟨m, a⟩ := entry
    rw [Assoc.get?_cons] at hq
    have hm : m ≠ q := by
      rintro rfl
      rw [if_pos rfl] at hq
      cases hq
    rw [if_neg hm] at hq
    rw [List.map_cons, Assoc.get?_cons, Assoc.get?_cons, ih hq]
    simp only [renamed_inj hm hn]

/-- **The names of parameters do not matter.**  If the parameter `p` is called `q` instead, where it is bound
and in the item, the copy of the item is the same: the same item, or none, or a fault of the same kind, and as
many unique names are given out.  The name `q` has to be new. -/
theorem Item.substitute_rename (s : Substitution) (i : Item) {p q : String} (hp : s.lookup p ≠ none)
    (hq : s.lookup q = none) (hnew : q ∉ i.names) (hpmark : p ≠ uniqueMark) (hqmark : q ≠ uniqueMark) (n : Nat) :
    SameCopy ((i.rename (renamed p q)).substitute (s.rename (renamed p q)) n) (i.substitute s n) := by
  have hrenames : s.Renames (renamed p q) (s.rename (renamed p q)) i.names := by
    refine ⟨rfl, fun m hm => ?_, fun m _ hfree => ?_, fun m _ => ?_⟩
    · exact Bindings.get?_rename hq (ne_of_mem_of_not_mem hm hnew)
    · exact if_neg fun hmp : m = p => hp (hmp ▸ hfree)
    · unfold renamed
      by_cases hmp : m = p
      · simp [hmp, hpmark, hqmark]
      · rw [if_neg hmp]
  exact i.same_rename hrenames n

/-- A branch that asks for the parameter and calls a function of it; the copy says `a` in both places. -/
theorem Item.substitute_rename_branch :
    let s : Substitution := ⟨[("p", .expr (.ident "a"))], "_unique_1"⟩
    let body (n : String) : Item := ⟨.expr (.call "f" [.expr (.ident n), .hole] ⟨12, 17⟩), ⟨12, 17⟩⟩
    let chain (n : String) : Item :=
      ⟨.conditional .document (.branch (.defined n false) [body n] .done), ⟨0, 24⟩⟩
    s.lookup "p" ≠ none ∧ s.lookup "q" = none ∧ "q" ∉ (chain "p").names ∧
      (chain "p").rename (renamed "p" "q") = chain "q" ∧ (chain "p").substitute s 0 = .ok (some (chain "a")) 0 ∧
      SameCopy ((chain "q").substitute (s.rename (renamed "p" "q")) 0) ((chain "p").substitute s 0) := by
  intro s body chain
  have hp : s.lookup "p" ≠ none := by rintro ⟨⟩
  have hq : s.lookup "q" = none := rfl
  have hnew : "q" ∉ (chain "p").names := by decide
  exact ⟨hp, hq, hnew, rfl, rfl, (chain "p").substitute_rename s hp hq hnew (by decide) (by decide) 0⟩

end ControlFile
