import ControlFile.Macro.Substitution

/-!
# The names that a copy looks up

A copy of the body of a macro depends on the arguments only by the names in the body, and on nothing but
the names that stand where a parameter can stand.  `Item.names` lists them, and two substitutions that agree
on them make the same copy (`Item.substitute_congr`).

A macro in the body of a macro is copied as it is, so it adds no names.
-/

namespace ControlFile

/-! ### Names -/

def Uncertainty.names : Option Uncertainty → List String
  | some (.name n) => [n]
  | _ => []

mutual

/-- The names in an expression, those of its calls among them. -/
def Expr.names : Expr → List String
  | .literal _ => []
  | .ident n => [n]
  | .call n arguments _ => [n] ++ Argument.namesAll arguments
  | .unary _ operand => operand.names
  | .binary _ lhs rhs => lhs.names ++ rhs.names
  | .paren inner => inner.names

def Argument.namesAll : List Argument → List String
  | [] => []
  | a :: as => a.names ++ Argument.namesAll as

def Argument.names : Argument → List String
  | .hole => []
  | .expr e => e.names
  | .parameter p => p.names
  | .equation e => e.names

def Parameter.names : Parameter → List String
  | ⟨_, n, value⟩ => n.toList ++ value.names

def Value.names : Value → List String
  | .absent | .literal _ => []
  | .equation e => e.names

def Equation.names : Equation → List String
  | ⟨_, body, uncertainty⟩ => body.names ++ Uncertainty.names uncertainty

end

def SiteStatement.names : SiteStatement → List String
  | .coordinate _ value | .scalar _ value => value.names
  | .occupancy occ => [occ.atom] ++ (occ.value.names ++ occ.modifiers.flatMap (·.value.names))
  | .adps values => values.toList.flatMap Parameter.names

def Directive.names : Directive → List String
  | .define n | .undef n => [n]
  | .seed | .includeFile _ => []
  | .deleteMacros ns => ns
  | .prm n equation => [n] ++ equation.names
  | .out e => e.names

def Condition.names : Condition → List String
  | .expr e => e.names
  | .defined symbol _ => [symbol]
  | .argument param _ => [param]

mutual

/-- The names in an item that stand where a parameter can stand. -/
def Item.names : Item → List String
  | ⟨kind, _⟩ => kind.names

def ItemKind.names : ItemKind → List String
  | .expr e => e.names
  | .keyword _ none => []
  | .keyword _ (some e) | .equation e => e.names
  | .parameter p | .declaration _ p => p.names
  | .assignment n e => [n] ++ e.names
  | .existing a => [a.name] ++ a.equation.names
  | .site n members => [n] ++ Item.namesAll members
  | .siteStatement statement => statement.names
  | .directive d => d.names
  | .macroDecl .. => []
  | .conditional _ chain => chain.names
  | .bodyOp _ param => [param]
  | .block items => Item.namesAll items

def Chain.names : Chain → List String
  | .done => []
  | .otherwise items => Item.namesAll items
  | .branch condition items rest => condition.names ++ (Item.namesAll items ++ rest.names)

def Item.namesAll : List Item → List String
  | [] => []
  | i :: is => i.names ++ Item.namesAll is

end

/-! ### Substitutions that agree -/

namespace Substitution

/-- The same names are bound to the same arguments, as far as the names `ns` go. -/
structure AgreeOn (s s' : Substitution) (ns : List String) : Prop where
  unique : s.unique = s'.unique
  lookup : ∀ n ∈ ns, s.lookup n = s'.lookup n

namespace AgreeOn

variable {s s' : Substitution} {n : String} {ns ms : List String}

theorem left (h : AgreeOn s s' (ns ++ ms)) : AgreeOn s s' ns :=
  ⟨h.unique, fun n hn => h.lookup n (List.mem_append_left ms hn)⟩

theorem right (h : AgreeOn s s' (ns ++ ms)) : AgreeOn s s' ms :=
  ⟨h.unique, fun n hn => h.lookup n (List.mem_append_right ns hn)⟩

theorem of_mem (h : AgreeOn s s' ns) (hn : n ∈ ns) : AgreeOn s s' [n] :=
  ⟨h.unique, List.forall_mem_singleton.2 (h.lookup n hn)⟩

/-- In a row of parts the names of each part are names of the whole. -/
theorem of_flatMap {α : Type} {f : α → List String} {as : List α} (h : AgreeOn s s' (as.flatMap f)) {a : α}
    (ha : a ∈ as) : AgreeOn s s' (f a) :=
  ⟨h.unique, fun n hn => h.lookup n (List.mem_flatMap.2 ⟨a, ha, hn⟩)⟩

theorem lookup_eq (h : AgreeOn s s' [n]) : s.lookup n = s'.lookup n := h.lookup n (List.mem_singleton_self n)

theorem name_eq (h : AgreeOn s s' [n]) : s.name n = s'.name n := by
  rw [name, name, h.unique, h.lookup_eq]

theorem ident_eq (h : AgreeOn s s' [n]) : s.ident n = s'.ident n := by
  rw [ident, ident, h.unique, h.lookup_eq]

theorem name?_eq {o : Option String} (h : AgreeOn s s' o.toList) : s.name? o = s'.name? o := by
  cases o with
  | none => rfl
  | some n => rw [name?, name?, h.name_eq]

theorem uncertainty_eq {u : Option Uncertainty} (h : AgreeOn s s' (Uncertainty.names u)) :
    s.uncertainty u = s'.uncertainty u := by
  match u with
  | none | some (.literal _) => rfl
  | some (.name n) =>
    have hn : AgreeOn s s' [n] := h
    rw [uncertainty, uncertainty, hn.lookup_eq, hn.name_eq]

theorem passedThrough?_eq {e : Expr} (h : AgreeOn s s' e.names) : s.passedThrough? e = s'.passedThrough? e := by
  cases e with
  | ident n => exact lookup_eq (by rwa [Expr.names] at h)
  | _ => rfl

theorem wholeParameter?_eq {refinement : Refinement} {o : Option String} {value : Value}
    (h : AgreeOn s s' o.toList) :
    s.wholeParameter? refinement o value = s'.wholeParameter? refinement o value := by
  cases o with
  | none => rfl
  | some n =>
    cases value with
    | absent => rw [wholeParameter?, wholeParameter?, h.lookup_eq]
    | _ => rfl

end AgreeOn

end Substitution

/-! ### Expressions -/

section Copies

variable {s s' : Substitution}

mutual

theorem Expr.substitute_congr : (e : Expr) → s.AgreeOn s' e.names → e.substitute s = e.substitute s'
  | .literal _, _ => rfl
  | .ident n, h => by
    rw [Expr.names] at h
    rw [Expr.substitute, Expr.substitute, h.ident_eq]
  | .call n arguments _, h => by
    rw [Expr.names] at h
    rw [Expr.substitute, Expr.substitute, Argument.substituteAll_congr arguments h.right, h.left.name_eq]
  | .unary _ operand, h => by
    rw [Expr.names] at h
    rw [Expr.substitute, Expr.substitute, operand.substitute_congr h]
  | .binary _ lhs rhs, h => by
    rw [Expr.names] at h
    rw [Expr.substitute, Expr.substitute, lhs.substitute_congr h.left, rhs.substitute_congr h.right]
  | .paren inner, h => by
    rw [Expr.names] at h
    rw [Expr.substitute, Expr.substitute, inner.substitute_congr h]

theorem Argument.substituteAll_congr : (as : List Argument) → s.AgreeOn s' (Argument.namesAll as) →
    Argument.substituteAll s as = Argument.substituteAll s' as
  | [], _ => rfl
  | a :: as, h => by
    rw [Argument.namesAll] at h
    rw [Argument.substituteAll, Argument.substituteAll, a.substitute_congr h.left,
      Argument.substituteAll_congr as h.right]

theorem Argument.substitute_congr : (a : Argument) → s.AgreeOn s' a.names → a.substitute s = a.substitute s'
  | .hole, _ => rfl
  | .expr e, h => by
    rw [Argument.names] at h
    rw [Argument.substitute, Argument.substitute, h.passedThrough?_eq, e.substitute_congr h]
  | .parameter p, h => by
    rw [Argument.names] at h
    rw [Argument.substitute, Argument.substitute, p.substitute_congr h]
  | .equation e, h => by
    rw [Argument.names] at h
    rw [Argument.substitute, Argument.substitute, e.substitute_congr h]

theorem Parameter.substitute_congr : (p : Parameter) → s.AgreeOn s' p.names → p.substitute s = p.substitute s'
  | ⟨refinement, n, value⟩, h => by
    rw [Parameter.names] at h
    rw [Parameter.substitute, Parameter.substitute, h.left.wholeParameter?_eq, h.left.name?_eq,
      value.substitute_congr h.right]

theorem Value.substitute_congr : (w : Value) → s.AgreeOn s' w.names → w.substitute s = w.substitute s'
  | .absent, _ => rfl
  | .literal _, _ => rfl
  | .equation e, h => by
    rw [Value.names] at h
    rw [Value.substitute, Value.substitute, e.substitute_congr h]

theorem Equation.substitute_congr : (e : Equation) → s.AgreeOn s' e.names → e.substitute s = e.substitute s'
  | ⟨op, body, u⟩, h => by
    rw [Equation.names] at h
    rw [Equation.substitute, Equation.substitute, h.right.uncertainty_eq, body.substitute_congr h.left]

end

/-! ### Items -/

theorem mapM_congr {m : Type → Type} [Monad m] [LawfulMonad m] {α β : Type} {f g : α → m β} {as : List α}
    (h : ∀ a ∈ as, f a = g a) : as.mapM f = as.mapM g := by
  induction as with
  | nil => rfl
  | cons a as ih =>
    rw [List.mapM_cons, List.mapM_cons, h a List.mem_cons_self, ih fun b hb => h b (List.mem_cons_of_mem a hb)]

theorem Adps.mapM_congr {m : Type → Type} [Monad m] {α β : Type} {f g : α → m β} {values : Adps α}
    (h : ∀ a ∈ values.toList, f a = g a) : values.mapM f = values.mapM g := by
  simp only [Adps.toList, List.forall_mem_cons] at h
  obtain ⟨h11, h22, h33, h12, h13, h23, -⟩ := h
  rw [Adps.mapM, Adps.mapM, h11, h22, h33, h12, h13, h23]

theorem SiteStatement.substitute_congr (t : SiteStatement) (h : s.AgreeOn s' t.names) :
    t.substitute s = t.substitute s' := by
  cases t with
  | coordinate axis value => rw [substitute, substitute, value.substitute_congr h]
  | scalar word value => rw [substitute, substitute, value.substitute_congr h]
  | occupancy occ =>
    rw [names] at h
    have hmodifiers : occ.modifiers.mapM (OccModifier.substitute s) =
        occ.modifiers.mapM (OccModifier.substitute s') := mapM_congr fun m hm => by
      rw [OccModifier.substitute, OccModifier.substitute, m.value.substitute_congr (h.right.right.of_flatMap hm)]
    rw [substitute, substitute, hmodifiers, h.left.name_eq, occ.value.substitute_congr h.right.left]
  | adps values =>
    rw [names] at h
    have hvalues : values.mapM (Parameter.substitute s) = values.mapM (Parameter.substitute s') :=
      Adps.mapM_congr fun p hp => p.substitute_congr (h.of_flatMap hp)
    rw [substitute, substitute, hvalues]

theorem Directive.substitute_congr (d : Directive) (h : s.AgreeOn s' d.names) :
    d.substitute s = d.substitute s' := by
  cases d with
  | define n => rw [substitute, substitute, h.name_eq]
  | undef n => rw [substitute, substitute, h.name_eq]
  | seed => rfl
  | includeFile path => rfl
  | deleteMacros ns =>
    have hnames : ns.mapM s.name = ns.mapM s'.name := mapM_congr fun n hn => (h.of_mem hn).name_eq
    rw [substitute, substitute, hnames]
  | prm n equation =>
    rw [names] at h
    rw [substitute, substitute, h.left.name_eq, equation.substitute_congr h.right]
  | out e => rw [substitute, substitute, e.substitute_congr h]

theorem Condition.substitute_congr (c : Condition) (h : s.AgreeOn s' c.names) :
    c.substitute s = c.substitute s' := by
  cases c with
  | expr e => rw [substitute, substitute, e.substitute_congr h]
  | defined symbol negated => rw [substitute, substitute, h.name_eq]
  | argument param test => rw [substitute, substitute, h.lookup_eq]

theorem BodyOp.substitute_congr (op : BodyOp) (param : String) (h : s.AgreeOn s' [param]) :
    op.substitute s param = op.substitute s' param := by
  rw [substitute, substitute, h.lookup_eq]

theorem Expr.substituteItem_congr (e : Expr) (h : s.AgreeOn s' e.names) :
    e.substituteItem s = e.substituteItem s' := by
  rw [substituteItem, substituteItem, h.passedThrough?_eq, e.substitute_congr h]

mutual

/-- **Substitutions that agree on the names in an item make the same copy of it.** -/
theorem Item.substitute_congr : (i : Item) → s.AgreeOn s' i.names → i.substitute s = i.substitute s'
  | ⟨kind, _⟩, h => by
    rw [Item.names] at h
    rw [Item.substitute, Item.substitute, kind.substitute_congr h]

theorem ItemKind.substitute_congr : (k : ItemKind) → s.AgreeOn s' k.names → k.substitute s = k.substitute s'
  | .expr e, h => by
    rw [ItemKind.names] at h
    rw [ItemKind.substitute, ItemKind.substitute, e.substituteItem_congr h]
  | .keyword _ none, _ => rfl
  | .keyword _ (some e), h => by
    rw [ItemKind.names] at h
    rw [ItemKind.substitute, ItemKind.substitute, e.substitute_congr h]
  | .equation e, h => by
    rw [ItemKind.names] at h
    rw [ItemKind.substitute, ItemKind.substitute, e.substitute_congr h]
  | .parameter p, h => by
    rw [ItemKind.names] at h
    rw [ItemKind.substitute, ItemKind.substitute, p.substitute_congr h]
  | .declaration _ p, h => by
    rw [ItemKind.names] at h
    rw [ItemKind.substitute, ItemKind.substitute, p.substitute_congr h]
  | .assignment n e, h => by
    rw [ItemKind.names] at h
    rw [ItemKind.substitute, ItemKind.substitute, h.left.name_eq, e.substitute_congr h.right]
  | .existing a, h => by
    rw [ItemKind.names] at h
    rw [ItemKind.substitute, ItemKind.substitute, h.left.name_eq, a.equation.substitute_congr h.right]
  | .site n members, h => by
    rw [ItemKind.names] at h
    rw [ItemKind.substitute, ItemKind.substitute, h.left.name_eq, Item.substituteAll_congr members h.right]
  | .siteStatement t, h => by
    rw [ItemKind.names] at h
    rw [ItemKind.substitute, ItemKind.substitute, t.substitute_congr h]
  | .directive d, h => by
    rw [ItemKind.names] at h
    rw [ItemKind.substitute, ItemKind.substitute, d.substitute_congr h]
  | .macroDecl .., _ => rfl
  | .conditional _ chain, h => by
    rw [ItemKind.names] at h
    rw [ItemKind.substitute, ItemKind.substitute, chain.substitute_congr h]
  | .bodyOp op param, h => by
    rw [ItemKind.names] at h
    rw [ItemKind.substitute, ItemKind.substitute, op.substitute_congr param h]
  | .block items, h => by
    rw [ItemKind.names] at h
    rw [ItemKind.substitute, ItemKind.substitute, Item.substituteAll_congr items h]

theorem Chain.substitute_congr : (c : Chain) → s.AgreeOn s' c.names → c.substitute s = c.substitute s'
  | .done, _ => rfl
  | .otherwise items, h => by
    rw [Chain.names] at h
    rw [Chain.substitute, Chain.substitute, Item.substituteAll_congr items h]
  | .branch condition items rest, h => by
    rw [Chain.names] at h
    rw [Chain.substitute, Chain.substitute, condition.substitute_congr h.left,
      Item.substituteAll_congr items h.right.left, rest.substitute_congr h.right.right]

theorem Item.substituteAll_congr : (is : List Item) → s.AgreeOn s' (Item.namesAll is) →
    Item.substituteAll s is = Item.substituteAll s' is
  | [], _ => rfl
  | i :: is, h => by
    rw [Item.namesAll] at h
    rw [Item.substituteAll, Item.substituteAll, i.substitute_congr h.left, Item.substituteAll_congr is h.right]

end

end Copies

end ControlFile
