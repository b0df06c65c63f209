import ControlFile.Proofs.Expansion.Termination

/-!
# Settled items

A part of an item is *inert* for a table of macros if expanding it gives it back and does nothing
else (`Inert`).  Items are *settled* (`AllSettle`) if, one after the other, all that could be
expanded in them is inert, and each of them changes the tables as it stands there.

* `AllSettle.isExpanded`: settled items have no conditional, no block, and nothing else in them that
  is replaced by what it stands for.
* `AllSettle.independently_eq`: settled items are expanded to themselves.
-/

namespace ControlFile

/-- The same macros, deleted ones too, symbols, values and declared names. -/
def Tables.Agree (s t : Tables) : Prop :=
  s.macros = t.macros ∧ s.symbols = t.symbols ∧ s.values = t.values ∧ s.declared = t.declared

theorem Tables.agree_withUniqueCount (n : Nat) (t : Tables) : (t.withUniqueCount n).Agree t :=
  ⟨rfl, rfl, rfl, rfl⟩

namespace Tables.Agree

variable {t u v : Tables}

theorem congr_left (h : t.Agree u) (v : Tables) : t.Agree v ↔ u.Agree v := by
  obtain ⟨hmacros, hsymbols, hvalues, hdeclared⟩ := h
  unfold Agree
  rw [hmacros, hsymbols, hvalues, hdeclared]

theorem refl (t : Tables) : t.Agree t := ⟨rfl, rfl, rfl, rfl⟩

theorem symm (h : t.Agree u) : u.Agree t := (h.congr_left t).1 (refl t)

theorem trans (h : t.Agree u) (h' : u.Agree v) : t.Agree v := (h.congr_left v).2 h'

theorem define (h : t.Agree u) (name : String) : (t.define name).Agree (u.define name) :=
  ⟨h.1, by simp [Tables.define, h.2.1], h.2.2.1, h.2.2.2⟩

theorem undef (h : t.Agree u) (name : String) : (t.undef name).Agree (u.undef name) :=
  ⟨h.1, by simp [Tables.undef, h.2.1], h.2.2.1, h.2.2.2⟩

theorem setVariable (h : t.Agree u) (name : String) (value : Float) :
    (t.setVariable name value).Agree (u.setVariable name value) :=
  ⟨h.1, h.2.1, by simp [Tables.setVariable, h.2.2.1], h.2.2.2⟩

theorem declare (h : t.Agree u) (name : String) : (t.declare name).Agree (u.declare name) :=
  ⟨h.1, h.2.1, h.2.2.1, by simp [Tables.declare, h.2.2.2]⟩

theorem registerMacros (h : t.Agree u) (signatures : List Signature) (body : List Item) :
    (t.registerMacros signatures body).Agree (u.registerMacros signatures body) :=
  ⟨by simp [Tables.registerMacros, h.1], h.2⟩

theorem deleteMacros (h : t.Agree u) (names : List String) :
    (t.deleteMacros names).Agree (u.deleteMacros names) :=
  ⟨by simp [Tables.deleteMacros, h.1], h.2⟩

theorem contains_eq (h : t.Agree u) (name : String) :
    t.macros.contains name = u.macros.contains name := by rw [h.1]

theorem isDefined_eq (h : t.Agree u) (name : String) : t.isDefined name = u.isDefined name := by
  rw [isDefined, isDefined, h.2.1]

theorem valueOf?_eq (h : t.Agree u) : t.valueOf? = u.valueOf? := by
  funext name
  rw [valueOf?, valueOf?, h.2.2.1]

theorem isDeclared_eq (h : t.Agree u) (name : String) : t.isDeclared name = u.isDeclared name := by
  rw [isDeclared, isDeclared, h.2.2.2]

end Tables.Agree

/-! ### Items with nothing left to expand -/

mutual

/-- There is no conditional and no block in the item, no operator on an argument, and no directive
that is replaced by what it stands for.  The bodies of macros are not looked at. -/
def Item.IsExpanded : Item → Prop
  | ⟨kind, _⟩ => kind.IsExpanded

def ItemKind.IsExpanded : ItemKind → Prop
  | .site _ members => Item.AllExpanded members
  | .conditional .. | .bodyOp .. | .block _ => False
  | .directive (.includeFile _) | .directive (.out _) => False
  | _ => True

def Item.AllExpanded : List Item → Prop
  | [] => True
  | i :: is => i.IsExpanded ∧ Item.AllExpanded is

end

theorem Item.allExpanded_iff {is : List Item} : AllExpanded is ↔ ∀ i ∈ is, i.IsExpanded := by
  induction is with
  | nil => simp [AllExpanded]
  | cons i is ih => simp [AllExpanded, ih]

namespace Expansion

open Expander (belowAt itemAt_eq)

/-- A place with the given number of levels below it. -/
abbrev placeAt (config : Config) (levels : Nat) (frame : Frame) (range : Extent) : Place :=
  ⟨config, belowAt config levels, frame, range⟩

/-! ### Inert parts -/

section Inert

variable {α β : Type} {m : MacroTable}

/-- Where the table of macros is `m`, the expansion of `a` gives it back and does nothing else. -/
def Inert (m : MacroTable) (expand : Place → α → Expansion α) (a : α) : Prop :=
  ∀ place r, r.tables.macros = m → expand place a r = .ok a r

theorem tables_bind {f : Tables → Expansion β} (r : Run) : (tables >>= f) r = f r.tables r := rfl

theorem Inert.literal (value : Literal) : Inert m expandExpr (.literal value) := by
  intro place r _
  rw [expandExpr]
  rfl

theorem Inert.ident {name : String} (h : m.contains name = false) :
    Inert m expandExpr (.ident name) := by
  intro place r hr
  rw [expandExpr, tables_bind, hr, h]
  rfl

theorem Inert.call {name : String} {arguments : List Argument} (h : m.contains name = false)
    (hdeleted : m.isDeleted name = false) (harguments : Inert m expandArguments arguments)
    (range : Extent) : Inert m expandExpr (.call name arguments range) := by
  intro place r hr
  rw [expandExpr, tables_bind]
  simp only [hr, h, hdeleted, Bool.false_eq_true, if_false]
  rw [bind_of_ok (harguments place r hr)]
  rfl

theorem Inert.unary {e : Expr} (h : Inert m expandExpr e) (op : UnaryOp) :
    Inert m expandExpr (.unary op e) := by
  intro place r hr
  rw [expandExpr, bind_of_ok (h place r hr)]
  rfl

theorem Inert.binary {l e : Expr} (hl : Inert m expandExpr l) (he : Inert m expandExpr e)
    (op : BinaryOp) : Inert m expandExpr (.binary op l e) := by
  intro place r hr
  rw [expandExpr, bind_of_ok (hl place r hr), bind_of_ok (he place r hr)]
  rfl

theorem Inert.paren {e : Expr} (h : Inert m expandExpr e) : Inert m expandExpr (.paren e) := by
  intro place r hr
  rw [expandExpr, bind_of_ok (h place r hr)]
  rfl

theorem Inert.parenthesized {e : Expr} (h : Inert m expandExpr e) :
    Inert m expandExpr e.parenthesized := by
  unfold Expr.parenthesized
  split
  · exact h.paren
  · exact h

theorem Inert.nil : Inert m expandArguments [] := by
  intro place r _
  rw [expandArguments]
  rfl

theorem Inert.cons {a : Argument} {as : List Argument} (ha : Inert m expandArgument a)
    (has : Inert m expandArguments as) : Inert m expandArguments (a :: as) := by
  intro place r hr
  rw [expandArguments, bind_of_ok (ha place r hr), bind_of_ok (has place r hr)]
  rfl

theorem Inert.hole : Inert m expandArgument .hole := by
  intro place r _
  rw [expandArgument]
  rfl

theorem Inert.exprArgument {e : Expr} (h : Inert m expandExpr e) :
    Inert m expandArgument (.expr e) := by
  intro place r hr
  rw [expandArgument, bind_of_ok (h place r hr)]
  rfl

theorem Inert.parameterArgument {p : Parameter} (h : Inert m expandParameter p) :
    Inert m expandArgument (.parameter p) := by
  intro place r hr
  rw [expandArgument, bind_of_ok (h place r hr)]
  rfl

theorem Inert.equationArgument {e : Equation} (h : Inert m expandEquation e) :
    Inert m expandArgument (.equation e) := by
  intro place r hr
  rw [expandArgument, bind_of_ok (h place r hr)]
  rfl

theorem Inert.parameter {w : Value} (h : Inert m expandValue w) (mark : Refinement)
    (n : Option String) : Inert m expandParameter ⟨mark, n, w⟩ := by
  intro place r hr
  rw [expandParameter, bind_of_ok (h place r hr)]
  rfl

theorem Inert.absent : Inert m expandValue .absent := by
  intro place r _
  rw [expandValue]
  rfl

theorem Inert.literalValue (value : Literal) : Inert m expandValue (.literal value) := by
  intro place r _
  rw [expandValue]
  rfl

theorem Inert.equationValue {e : Equation} (h : Inert m expandEquation e) :
    Inert m expandValue (.equation e) := by
  intro place r hr
  rw [expandValue, bind_of_ok (h place r hr)]
  rfl

theorem Inert.equation {e : Expr} (h : Inert m expandExpr e) (op : AssignOp)
    (u : Option Uncertainty) : Inert m expandEquation ⟨op, e, u⟩ := by
  intro place r hr
  rw [expandEquation, bind_of_ok (h place r hr)]
  rfl

theorem Inert.coordinate {p : Parameter} (h : Inert m expandParameter p) (axis : Axis) :
    Inert m expandSiteStatement (.coordinate axis p) := by
  intro place r hr
  rw [expandSiteStatement, bind_of_ok (h place r hr)]
  rfl

theorem Inert.scalar {p : Parameter} (h : Inert m expandParameter p) (word : SiteScalar) :
    Inert m expandSiteStatement (.scalar word p) := by
  intro place r hr
  rw [expandSiteStatement, bind_of_ok (h place r hr)]
  rfl

/-- The expansion of a value behind that of an occupancy. -/
def expandModifier (place : Place) (m : OccModifier) : Expansion OccModifier := do
  return { m with value := ← expandParameter place m.value }

theorem Inert.modifier {w : OccModifier} (h : Inert m expandParameter w.value) :
    Inert m expandModifier w := by
  intro place r hr
  rw [expandModifier, bind_of_ok (h place r hr)]
  rfl

theorem Inert.mapM {expand : Place → α → Expansion α} {as : List α}
    (h : ∀ a ∈ as, Inert m expand a) : Inert m (fun place as => as.mapM (expand place)) as := by
  intro place r hr
  induction as with
  | nil => rfl
  | cons a as ih =>
    simp only [List.mapM_cons] at ih ⊢
    rw [bind_of_ok (h a (by simp) place r hr),
      bind_of_ok (ih fun b hb => h b (List.mem_cons_of_mem _ hb))]
    rfl

theorem Inert.occupancy {w : Parameter} {ms : List OccModifier} (h : Inert m expandParameter w)
    (hms : ∀ w ∈ ms, Inert m expandModifier w) (atom : String) :
    Inert m expandSiteStatement (.occupancy ⟨atom, w, ms⟩) := by
  intro place r hr
  rw [expandSiteStatement, bind_of_ok (h place r hr)]
  exact bind_of_ok (Inert.mapM hms place r hr)

theorem Inert.adps {ps : Adps Parameter} (h : ∀ p ∈ ps.toList, Inert m expandParameter p) :
    Inert m expandSiteStatement (.adps ps) := by
  intro place r hr
  simp only [Adps.toList, List.mem_cons, List.not_mem_nil, or_false, forall_eq_or_imp,
    forall_eq] at h
  obtain ⟨h11, h22, h33, h12, h13, h23⟩ := h
  rw [expandSiteStatement]
  simp only [Adps.mapM, bind_assoc, pure_bind]
  rw [bind_of_ok (h11 place r hr), bind_of_ok (h22 place r hr), bind_of_ok (h33 place r hr),
    bind_of_ok (h12 place r hr), bind_of_ok (h13 place r hr), bind_of_ok (h23 place r hr)]
  rfl

/-- Where no level is left, no macro is called. -/
theorem callWith_of_none {place : Place} (hbelow : place.below = none) (name : String)
    (count : Nat) (bind : Signature → Expansion Bindings) (r : Run) :
    ∃ d, callWith place name count bind r = .error d r := by
  have htables : tables r = .ok r.tables r := rfl
  rw [callWith, bind_of_ok htables, hbelow]
  cases r.tables.macros.get? name with
  | none => exact ⟨_, rfl⟩
  | some entry =>
    dsimp only
    split
    · exact ⟨_, rfl⟩
    · exact ⟨_, rfl⟩

theorem inlineWith_of_none {place : Place} (hbelow : place.below = none) (name : String)
    (count : Nat) (bind : Signature → Expansion Bindings) (r : Run) :
    ∃ d, inlineWith place name count bind r = .error d r := by
  obtain ⟨d, hd⟩ := callWith_of_none hbelow name count bind r
  exact ⟨d, bind_of_error hd⟩

/-- A place with no level left, at which no macro can be called. -/
def deepest : Place := ⟨⟨{}, default, .nothing, .never⟩, none, .root, default⟩

theorem Inert.ident_not_macro {name : String} (h : Inert m expandExpr (.ident name)) :
    m.contains name = false := by
  rw [← Bool.not_eq_true]
  intro hmacro
  have hrun := h deepest ⟨⟨m, [], [], [], 0⟩, [], [], []⟩ rfl
  rw [expandExpr, tables_bind, if_pos hmacro] at hrun
  obtain ⟨d, hd⟩ := inlineWith_of_none (show deepest.below = none from rfl) name 0 _ _
  rw [hd] at hrun
  cases hrun

theorem Inert.call_not_macro {name : String} {arguments : List Argument} {range : Extent}
    (h : Inert m expandExpr (.call name arguments range)) : m.contains name = false := by
  rw [← Bool.not_eq_true]
  intro hmacro
  have hrun := h deepest ⟨⟨m, [], [], [], 0⟩, [], [], []⟩ rfl
  rw [expandExpr, tables_bind] at hrun
  simp only [if_pos hmacro] at hrun
  obtain ⟨d, hd⟩ := inlineWith_of_none (show deepest.below = none from rfl) name arguments.length _ _
  rw [hd] at hrun
  cases hrun

/-- An inert expression that stands as an item stays. -/
theorem Inert.expandExprItem_eq {e : Expr} (h : Inert m expandExpr e) (place : Place) {r : Run}
    (hr : r.tables.macros = m) : expandExprItem place e r = .ok [⟨.expr e, place.range⟩] r := by
  have hkeep : (do return [(⟨.expr (← expandExpr place e), place.range⟩ : Item)] :
      Expansion (List Item)) r = .ok [⟨.expr e, place.range⟩] r := bind_of_ok (h place r hr)
  unfold expandExprItem
  rw [tables_bind]
  cases e with
  | call name arguments range => simpa [hr, h.call_not_macro] using hkeep
  | ident name => simpa [hr, h.ident_not_macro] using hkeep
  | literal value => exact hkeep
  | unary op operand => exact hkeep
  | binary op lhs rhs => exact hkeep
  | paren inner => exact hkeep

end Inert

/-! ### Settled items -/

/-- Wherever the tables agree with `t`, the expression is evaluated to `value` at the highest level,
and nothing else is changed by that. -/
def Evaluates (config : Config) (t : Tables) (e : Expr) (value : Float) : Prop :=
  ∀ frame range r, r.tables.Agree t →
    ∃ r', evaluate ⟨config, belowAt config config.options.maxDepth, frame, range⟩ e r =
      .ok value r' ∧ r'.tables.Agree t ∧ r'.problems = r.problems

/-- Tables in which the name is declared, if there is one. -/
def declaring (t : Tables) : Option String → Tables
  | some name => t.declare name
  | none => t

mutual

/-- What could be expanded in the item is inert where it is reached with the tables `t`, and it
changes them to `t'`. -/
inductive Settles (config : Config) : ItemKind → Tables → Tables → Prop
  | keyword {word : String} {t : Tables} : Settles config (.keyword word none) t t
  | keywordEquation {word : String} {e : Equation} {t : Tables}
      (h : Inert t.macros expandEquation e) : Settles config (.keyword word (some e)) t t
  | expr {e : Expr} {t : Tables} (h : Inert t.macros expandExpr e) : Settles config (.expr e) t t
  | parameter {p : Parameter} {t : Tables} (h : Inert t.macros expandParameter p) :
      Settles config (.parameter p) t t
  | equation {e : Equation} {t : Tables} (h : Inert t.macros expandEquation e) :
      Settles config (.equation e) t t
  | assignment {name : String} {e : Equation} {t : Tables} (h : Inert t.macros expandEquation e) :
      Settles config (.assignment name e) t t
  | declaration {scope : VariableScope} {p : Parameter} {t : Tables}
      (h : Inert t.macros expandParameter p) :
      Settles config (.declaration scope p) t (declaring t p.name)
  | existing {a : Assignment} {t : Tables} (hdeclared : t.isDeclared a.name = true)
      (h : Inert t.macros expandEquation a.equation) : Settles config (.existing a) t t
  | site {name : String} {members : List Item} {t t' : Tables} (h : AllSettle config members t t') :
      Settles config (.site name members) t t'
  | siteStatement {s : SiteStatement} {t : Tables} (h : Inert t.macros expandSiteStatement s) :
      Settles config (.siteStatement s) t t
  | define {name : String} {t : Tables} :
      Settles config (.directive (.define name)) t (t.define name)
  | undef {name : String} {t : Tables} : Settles config (.directive (.undef name)) t (t.undef name)
  | seed {t : Tables} : Settles config (.directive .seed) t t
  | deleteMacros {names : List String} {t : Tables} :
      Settles config (.directive (.deleteMacros names)) t (t.deleteMacros names)
  | prm {name : String} {e : Equation} {value : Float} {t : Tables}
      (h : Evaluates config t e.body value) :
      Settles config (.directive (.prm name e)) t (t.setVariable name value)
  | macroDecl {isList : Bool} {signatures : List Signature} {body : List Item} {t : Tables} :
      Settles config (.macroDecl isList signatures body) t (t.registerMacros signatures body)

/-- The items are settled one after the other, and change the tables from `t` to `t'`. -/
inductive AllSettle (config : Config) : List Item → Tables → Tables → Prop
  | nil {t : Tables} : AllSettle config [] t t
  | cons {i : Item} {is : List Item} {t t' t'' : Tables} (h : Settles config i.kind t t')
      (his : AllSettle config is t' t'') : AllSettle config (i :: is) t t''

end

section Settled

variable {config : Config} {t t' t'' : Tables}

theorem AllSettle.single {i : Item} (h : Settles config i.kind t t') :
    AllSettle config [i] t t' := .cons h .nil

theorem AllSettle.append {is js : List Item} (h : AllSettle config is t t')
    (h' : AllSettle config js t' t'') : AllSettle config (is ++ js) t t'' := by
  induction is generalizing t with
  | nil =>
    cases h
    exact h'
  | cons i is ih =>
    cases h with
    | cons hi his => exact .cons hi (ih his)

/-- Where settled items stand does not matter. -/
theorem AllSettle.moveTo {is : List Item} (h : AllSettle config is t t') (range : Extent) :
    AllSettle config (is.map fun i => { i with range }) t t' := by
  induction is generalizing t with
  | nil => exact h
  | cons i is ih =>
    cases h with
    | cons hi his => exact .cons hi (ih his)

/-- A settled expression changes no tables. -/
theorem AllSettle.eq_of_expr {e : Expr} {range : Extent}
    (h : AllSettle config [⟨.expr e, range⟩] t t') : t' = t ∧ Inert t.macros expandExpr e := by
  cases h with
  | cons hi his =>
    cases his
    cases hi with
    | expr h => exact ⟨rfl, h⟩

mutual

theorem Settles.isExpanded {k : ItemKind} {t t' : Tables} : Settles config k t t' → k.IsExpanded
  | .site h => h.isExpanded
  | .keyword | .keywordEquation _ | .expr _ | .parameter _ | .equation _ | .assignment _
  | .declaration _ | .existing _ _ | .siteStatement _ | .define | .undef | .seed | .deleteMacros
  | .prm _ | .macroDecl => trivial

/-- **Settled items are expanded.** -/
theorem AllSettle.isExpanded {is : List Item} {t t' : Tables} :
    AllSettle config is t t' → Item.AllExpanded is
  | .nil => trivial
  | .cons (i := ⟨_, _⟩) h his => ⟨h.isExpanded, his.isExpanded⟩

end

/-! ### Settled items are expanded to themselves -/

/-- The step gives `a`, changes the tables to some that agree with `t'`, and finds nothing wrong. -/
def Gives {α : Type} (e : Expansion α) (r : Run) (a : α) (t' : Tables) : Prop :=
  ∃ r', e r = .ok a r' ∧ r'.tables.Agree t' ∧ r'.problems = r.problems

section Giving

variable {α β : Type} {e : Expansion α} {f : α → Expansion β} {r : Run} {a : α} {b : β}

theorem Gives.of_ok (h : e r = .ok a r) (hagree : r.tables.Agree t) : Gives e r a t :=
  ⟨r, h, hagree, rfl⟩

theorem Gives.bind (h : Gives e r a t')
    (hf : ∀ r', r'.tables.Agree t' → Gives (f a) r' b t'') : Gives (e >>= f) r b t'' := by
  obtain ⟨r₁, hrun, hagree, hproblems⟩ := h
  obtain ⟨r₂, hrun', hagree', hproblems'⟩ := hf r₁ hagree
  exact ⟨r₂, (bind_of_ok hrun).trans hrun', hagree', hproblems'.trans hproblems⟩

theorem Gives.modifyTables_bind {g : Tables → Tables} {f : Unit → Expansion β} {t' : Tables}
    (hg : (g r.tables).Agree t') (hf : ∀ r', r'.tables.Agree t' → Gives (f ()) r' b t'') :
    Gives (modifyTables g >>= f) r b t'' := .bind ⟨_, rfl, hg, rfl⟩ hf

theorem Gives.pure (a : α) (h : r.tables.Agree t) : Gives (Pure.pure a) r a t := .of_ok rfl h

end Giving

theorem checkCancelled_eq (hwatch : config.watch = .never) (range : Extent) (r : Run) :
    checkCancelled config range r = .ok () r := by
  change (if config.watch.cancelled r.asked = true then failAt range .cancelled else pure () :
    Expansion Unit) r = _
  rw [hwatch]
  rfl

mutual

theorem Settles.expandKind (hwatch : config.watch = .never) {k : ItemKind} {t t' : Tables}
    {frame : Frame} {range : Extent} {r : Run} : Settles config k t t' → r.tables.Agree t →
      Gives (expandKind ⟨config, belowAt config config.options.maxDepth, frame, range⟩ k) r
        [⟨k, range⟩] t'
  | .keyword, hr => by
    rw [Expansion.expandKind]
    exact .pure _ hr
  | .keywordEquation h, hr => by
    rw [Expansion.expandKind]
    exact .of_ok (bind_of_ok (h _ r hr.1)) hr
  | .expr h, hr => by
    rw [Expansion.expandKind]
    exact .of_ok (h.expandExprItem_eq _ hr.1) hr
  | .parameter h, hr => by
    rw [Expansion.expandKind]
    exact .of_ok (bind_of_ok (h _ r hr.1)) hr
  | .equation h, hr => by
    rw [Expansion.expandKind]
    exact .of_ok (bind_of_ok (h _ r hr.1)) hr
  | .assignment h, hr => by
    rw [Expansion.expandKind]
    exact .of_ok (bind_of_ok (h _ r hr.1)) hr
  | @Settles.declaration _ scope p t h, hr => by
    rw [Expansion.expandKind]
    have hkeep : ∀ r' (u : Tables), r'.tables.Agree u → u.macros = t.macros →
        Gives (do return [(⟨.declaration scope (← expandParameter
          ⟨config, belowAt config config.options.maxDepth, frame, range⟩ p), range⟩ : Item)]) r'
          [⟨.declaration scope p, range⟩] u :=
      fun r' u hr' hu => .of_ok (bind_of_ok (h _ r' (hr'.1.trans hu))) hr'
    cases p.name with
    | none => exact hkeep r t hr rfl
    | some name => exact .modifyTables_bind (hr.declare name) fun r' hr' => hkeep r' _ hr' rfl
  | .existing hdeclared h, hr => by
    rw [Expansion.expandKind]
    refine .bind (.of_ok rfl hr) fun r' hr' => ?_
    rw [hr.isDeclared_eq, hdeclared]
    exact .of_ok (bind_of_ok (h _ r' hr'.1)) hr'
  | .site h, hr => by
    rw [Expansion.expandKind]
    exact .bind (h.expandItems hwatch hr) fun r' hr' => .pure _ hr'
  | .siteStatement h, hr => by
    rw [Expansion.expandKind]
    exact .of_ok (bind_of_ok (h _ r hr.1)) hr
  | .define, hr => by
    rw [Expansion.expandKind, expandDirective]
    exact .modifyTables_bind (hr.define _) fun r' hr' => .pure _ hr'
  | .undef, hr => by
    rw [Expansion.expandKind, expandDirective]
    exact .modifyTables_bind (hr.undef _) fun r' hr' => .pure _ hr'
  | .seed, hr => by
    rw [Expansion.expandKind, expandDirective]
    exact .pure _ hr
  | .deleteMacros, hr => by
    rw [Expansion.expandKind, expandDirective]
    exact .modifyTables_bind (hr.deleteMacros _) fun r' hr' => .pure _ hr'
  | .prm h, hr => by
    rw [Expansion.expandKind, expandDirective]
    refine .bind (h _ _ r hr) fun r' hr' => ?_
    exact .modifyTables_bind (hr'.setVariable _ _) fun r'' hr'' => .pure _ hr''
  | .macroDecl, hr => by
    rw [Expansion.expandKind]
    exact .modifyTables_bind (hr.registerMacros _ _) fun r' hr' => .pure _ hr'

theorem AllSettle.expandItems (hwatch : config.watch = .never) {is : List Item} {t t' : Tables}
    {frame : Frame} {r : Run} : AllSettle config is t t' → r.tables.Agree t →
      Gives (expandItems config (belowAt config config.options.maxDepth) frame is) r is t'
  | .nil, hr => by
    rw [Expansion.expandItems]
    exact .pure _ hr
  | .cons (i := ⟨kind, range⟩) h his, hr => by
    rw [Expansion.expandItems, Expansion.expandItem]
    refine .bind (.bind (.of_ok (checkCancelled_eq hwatch range r) hr) fun r' hr' => h.expandKind hwatch
      hr') fun r' hr' => ?_
    exact .bind (his.expandItems hwatch hr') fun r'' hr'' => .pure _ hr''

end

/-- **Settled items are expanded to themselves**, each of them by itself. -/
theorem AllSettle.independently_eq (hwatch : config.watch = .never) {is : List Item}
    {t t' : Tables} (h : AllSettle config is t t') {frame : Frame} {r : Run}
    (hr : r.tables.Agree t) :
    Gives (independently frame (itemAt config config.options.maxDepth frame) is) r is t' := by
  induction is generalizing t r with
  | nil =>
    cases h
    exact .pure _ hr
  | cons i is ih =>
    obtain ⟨kind, range⟩ := i
    cases h with
    | cons hi his =>
      obtain ⟨r', hrun, hagree, hproblems⟩ : Gives (Expansion.expandKind
        ⟨config, belowAt config config.options.maxDepth, frame, range⟩ kind) r [⟨kind, range⟩] _ :=
          hi.expandKind hwatch hr
      have hitem : itemAt config config.options.maxDepth frame ⟨kind, range⟩ r =
          .ok [⟨kind, range⟩] r' := by
        rw [itemAt_eq, expandItem, bind_of_ok (checkCancelled_eq hwatch range r), hrun]
      rw [independently]
      refine .bind (a := [⟨kind, range⟩]) ⟨r', ?_, hagree, hproblems⟩ fun r₁ hr₁ =>
        .bind (ih his hr₁) fun r₂ hr₂ => .pure _ hr₂
      simp only [hitem]

end Settled

end Expansion

end ControlFile
