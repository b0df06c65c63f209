import ControlFile.Proofs.Expansion.Settled
import ControlFile.Proofs.Expansion.Simulation
import ControlFile.Session

/-!
# The items of a document account for its tables

Every item that changes the tables stays in the document, in the place where it has changed them:
`Tables.After t kinds u` says that the tables `t` become `u` when one reads the items `kinds` one
after the other.  If nothing is reported in a run, its tables are those after the items it gives
(`counted_itemAt`), and those of the document are the tables after its items, read from empty
tables on (`Session.tables_after_items`).

Expressions are the other half of this.  A macro that is called in an expression expands to one
expression and to nothing else, so expanding an expression changes nothing (`steady_expandExpr`).

`existing_prm` is expanded only where the name is declared.  So the item that has declared the name
stands before it in the document (`Session.declared_before_existing`).
-/

namespace ControlFile

/-! ### Reading items -/

mutual

/-- The items that are read at an item: itself, and then the members of a site. The body of a macro
is not read. -/
def ItemKind.reading : ItemKind → List ItemKind
  | .site name members => .site name members :: Item.readingAll members
  | kind => [kind]

def Item.reading : Item → List ItemKind
  | ⟨kind, _⟩ => kind.reading

/-- The items that are read in a row of items. -/
def Item.readingAll : List Item → List ItemKind
  | [] => []
  | i :: is => i.reading ++ Item.readingAll is

end

theorem Item.readingAll_append (is js : List Item) :
    readingAll (is ++ js) = readingAll is ++ readingAll js := by
  induction is with
  | nil => rfl
  | cons i is ih => rw [List.cons_append, readingAll, readingAll, ih, List.append_assoc]

/-- Where items stand does not matter. -/
theorem Item.readingAll_moveTo (range : Extent) (is : List Item) :
    readingAll (is.map fun i => { i with range }) = readingAll is := by
  induction is with
  | nil => rfl
  | cons i is ih => 
    rw [List.map_cons, readingAll, readingAll, ih]
    obtain ⟨kind, _⟩ := i
    rfl

/-- One item that has no items to be read in it. -/
theorem Item.readingAll_single {kind : ItemKind} (h : kind.reading = [kind]) (range : Extent) :
    readingAll [⟨kind, range⟩] = [kind] := by
  rw [readingAll, reading, h, readingAll, List.append_nil]

/-- What reading one item makes of the tables `t`.  The value of a preprocessor variable is not to be
read off the item; and an existing parameter can be read only where it is declared. -/
def ItemKind.Makes (t u : Tables) : ItemKind → Prop
  | .directive (.define name) => u.Agree (t.define name)
  | .directive (.undef name) => u.Agree (t.undef name)
  | .directive (.deleteMacros names) => u.Agree (t.deleteMacros names)
  | .directive (.prm name _) => ∃ value, u.Agree (t.setVariable name value)
  | .macroDecl _ signatures body => u.Agree (t.registerMacros signatures body)
  | .declaration _ p => u.Agree (Expansion.declaring t p.name)
  | .existing a => t.isDeclared a.name = true ∧ u.Agree t
  | _ => u.Agree t

/-- The tables `u` are those after the items, if one starts to read with the tables `t`. -/
inductive Tables.After : (t : Tables) → List ItemKind → (u : Tables) → Prop
  | nil {t u : Tables} (h : u.Agree t) : After t [] u
  | cons {t u v : Tables} {kind : ItemKind} {kinds : List ItemKind} (hkind : kind.Makes t u)
      (hkinds : After u kinds v) : After t (kind :: kinds) v

namespace Tables.After

variable {t t' u u' v : Tables} {kinds kinds' : List ItemKind}

theorem agree (h : After t [] u) : u.Agree t := by
  cases h with
  | nil h => exact h

/-- An item reads tables that agree alike. -/
theorem makes_congr {kind : ItemKind} (ht : t.Agree t') (h : kind.Makes t u) :
    kind.Makes t' u := by
  unfold ItemKind.Makes at h ⊢
  split at h
  case h_1 name => exact h.trans (ht.define name)
  case h_2 name => exact h.trans (ht.undef name)
  case h_3 names => exact h.trans (ht.deleteMacros names)
  case h_4 name _ =>
    obtain ⟨value, h⟩ := h
    exact ⟨value, h.trans (ht.setVariable name value)⟩
  case h_5 signatures body => exact h.trans (ht.registerMacros signatures body)
  case h_6 _ p =>
    cases hname : p.name with
    | some name => exact (hname ▸ h).trans (ht.declare name)
    | none => exact (hname ▸ h).trans ht
  case h_7 a => exact ⟨(ht.isDeclared_eq a.name).symm.trans h.1, h.2.trans ht⟩
  case h_8 => exact h.trans ht

theorem congr_left (h : After t kinds u) (ht : t.Agree t') : After t' kinds u := by
  cases h with
  | nil h => exact .nil (h.trans ht)
  | cons hkind hkinds => exact .cons (makes_congr ht hkind) hkinds

theorem append (h : After t kinds u) (h' : After u kinds' v) : After t (kinds ++ kinds') v := by
  induction h with
  | nil h => exact h'.congr_left h
  | cons hkind _ ih => exact .cons hkind (ih h')

theorem congr_right (h : After t kinds u) (hu : u'.Agree u) : After t kinds u' := by
  simpa using h.append (.nil hu)

theorem single {kind : ItemKind} (h : kind.Makes t u) : After t [kind] u := .cons h (.nil (.refl u))

/-- The tables at one of the items that are read. -/
theorem split (h : After t (kinds ++ kinds') v) : ∃ u, After t kinds u ∧ After u kinds' v := by
  induction kinds generalizing t with
  | nil => exact ⟨t, .nil (.refl t), h⟩
  | cons kind kinds ih =>
    cases h with
    | cons hkind hkinds =>
      obtain ⟨u, hu, hv⟩ := ih hkinds
      exact ⟨u, .cons hkind hu, hv⟩

/-- Only a declaration makes a name declared, and only its own. -/
theorem makes_isDeclared {kind : ItemKind} (h : kind.Makes t u) {name : String}
    (hname : u.isDeclared name = true) :
    t.isDeclared name = true ∨ ∃ scope p, kind = .declaration scope p ∧ p.name = some name := by
  unfold ItemKind.Makes at h
  split at h
  case h_4 =>
    obtain ⟨value, h⟩ := h
    exact .inl ((h.isDeclared_eq name).symm.trans hname)
  case h_6 scope p =>
    rw [h.isDeclared_eq] at hname
    cases hp : p.name with
    | none =>
      rw [hp] at hname
      exact .inl hname
    | some declared =>
      rw [hp, Expansion.declaring, Tables.isDeclared, Tables.declare, List.contains_iff_mem,
        mem_insertName] at hname
      rcases hname with hname | rfl
      · exact .inl (List.contains_iff_mem.2 hname)
      · exact .inr ⟨scope, p, rfl, hp⟩
  case h_7 a => exact .inl ((h.2.isDeclared_eq name).symm.trans hname)
  all_goals exact .inl ((h.isDeclared_eq name).symm.trans hname)

/-- **A name is declared by an item**, if it was not declared before. -/
theorem exists_declaration (h : After t kinds u) {name : String} (hname : u.isDeclared name = true) :
    t.isDeclared name = true ∨ ∃ scope p, .declaration scope p ∈ kinds ∧ p.name = some name := by
  induction h with
  | nil h => exact .inl ((h.isDeclared_eq name).symm.trans hname)
  | @cons t u v kind kinds hkind hkinds ih =>
    rcases ih hname with hu | ⟨scope, p, hp, heq⟩
    · rcases makes_isDeclared hkind hu with ht | ⟨scope, p, rfl, heq⟩
      · exact .inl ht
      · exact .inr ⟨scope, p, List.mem_cons_self, heq⟩
    · exact .inr ⟨scope, p, List.mem_cons_of_mem _ hp, heq⟩

end Tables.After

namespace Expansion

variable {α β : Type}

/-! ### Steps after which the tables are known -/

/-- If the step succeeds and nothing has been reported by then, nothing had been reported before,
and `Q` holds of the tables before it, of what it gives and of the tables behind it. -/
def Accounted (e : Expansion α) (Q : Tables → α → Tables → Prop) : Prop :=
  ∀ r a r', e r = .ok a r' → r'.problems = [] → r.problems = [] ∧ Q r.tables a r'.tables

/-- The step changes nothing. -/
abbrev Steady (e : Expansion α) : Prop := Accounted e fun t _ u => u.Agree t

/-- The tables behind the step are those after the items that it gives. -/
abbrev Counted (e : Expansion (List Item)) : Prop :=
  Accounted e fun t is u => t.After (Item.readingAll is) u

namespace Accounted

variable {e : Expansion α} {f : α → Expansion β} {P : Tables → α → Tables → Prop}
  {Q : Tables → β → Tables → Prop} {R : α → Tables → β → Tables → Prop}

theorem pure {b : β} (h : ∀ t, Q t b t) : Accounted (Pure.pure b) Q := by
  intro r a r' hrun hquiet
  cases hrun
  exact ⟨hquiet, h r.tables⟩

theorem failAt (range : Extent) (fault : Fault) : Accounted (failAt range fault) Q := by
  intro r a r' hrun
  cases hrun

/-- One step behind the other. -/
theorem bind (he : Accounted e P) (hf : ∀ a, Accounted (f a) (R a))
    (h : ∀ t a u b v, P t a u → R a u b v → Q t b v) : Accounted (e >>= f) Q := by
  intro r b r' hrun hquiet
  cases hstep : e r with
  | ok a r₁ =>
    rw [bind_of_ok hstep] at hrun
    obtain ⟨hquiet₁, hrest⟩ := hf a r₁ b r' hrun hquiet
    obtain ⟨hquiet₀, hfirst⟩ := he r a r₁ hstep hquiet₁
    exact ⟨hquiet₀, h _ a _ b _ hfirst hrest⟩
  | error d r₁ => rw [bind_of_error hstep] at hrun; cases hrun

theorem mono {Q : Tables → α → Tables → Prop} (he : Accounted e P)
    (h : ∀ t a u, P t a u → Q t a u) : Accounted e Q := fun r a r' hrun hquiet =>
  (he r a r' hrun hquiet).imp_right (h _ _ _)

theorem map {g : α → β} (he : Accounted e P) (h : ∀ t a u, P t a u → Q t (g a) u) :
    Accounted (e >>= fun a => Pure.pure (g a)) Q :=
  he.bind (R := fun a u b v => b = g a ∧ v = u) (fun _ => .pure fun _ => ⟨rfl, rfl⟩) <| by
    rintro t a u _ _ hP ⟨rfl, rfl⟩
    exact h t a _ hP

/-- The tables are those that are read. -/
theorem tables_bind {f : Tables → Expansion β}
    (hf : ∀ t, Accounted (f t) fun u b v => u = t → Q u b v) : Accounted (tables >>= f) Q := by
  intro r b r' hrun hquiet
  obtain ⟨hquiet₀, hrest⟩ := hf r.tables r b r' hrun hquiet
  exact ⟨hquiet₀, hrest rfl⟩

theorem modifyTables (f : Tables → Tables) : Accounted (modifyTables f) fun t _ u => u = f t := by
  intro r a r' hrun hquiet
  cases hrun
  exact ⟨hquiet, rfl⟩

theorem ite {c : Prop} [Decidable c] {e e' : Expansion β} (h : Accounted e Q)
    (h' : Accounted e' Q) : Accounted (if c then e else e') Q := by
  split
  · exact h
  · exact h'

theorem relocating {range : Extent} (he : Accounted e P) : Accounted (relocating range e) P := by
  intro r a r' hrun hquiet
  unfold Expansion.relocating at hrun
  cases hstep : e r with
  | ok b r₁ =>
    rw [hstep] at hrun
    cases hrun
    exact he r a r' hstep hquiet
  | error d r₁ => rw [hstep] at hrun; cases hrun

/-- An item that fails is reported. -/
theorem alone {frame : Frame} {e : Expansion (List Item)} {P : Tables → List Item → Tables → Prop}
    (he : Accounted e P) : Accounted (alone frame e) P := by
  intro r is r' hrun hquiet
  unfold Expansion.alone at hrun
  cases hstep : e r with
  | ok items r₁ =>
    rw [hstep] at hrun
    cases hrun
    exact he r is r' hstep hquiet
  | error d r₁ =>
    rw [hstep] at hrun
    by_cases hd : d.fault = .cancelled
    · simp only [if_pos hd] at hrun
      cases hrun
    · simp only [if_neg hd] at hrun
      cases hrun
      exact absurd hquiet (List.append_ne_nil_of_right_ne_nil _ (List.cons_ne_nil _ _))

end Accounted

/-! ### Steps that change nothing -/

namespace Steady

variable {e : Expansion α} {f : α → Expansion β} {Q : Tables → β → Tables → Prop}

theorem pure (a : α) : Steady (Pure.pure a) := Accounted.pure .refl

theorem tables : Steady tables := by
  intro r a r' hrun hquiet
  cases hrun
  exact ⟨hquiet, .refl _⟩

theorem bind (he : Steady e) (hf : ∀ a, Steady (f a)) : Steady (e >>= f) :=
  Accounted.bind he hf fun _ _ _ _ _ h h' => h'.trans h

theorem map (he : Steady e) (g : α → β) : Steady (e >>= fun a => Pure.pure (g a)) :=
  Accounted.map he fun _ _ _ h => h

/-- Items behind a step that changes nothing. -/
theorem counted {f : α → Expansion (List Item)} (he : Steady e) (hf : ∀ a, Counted (f a)) :
    Counted (e >>= f) :=
  Accounted.bind he hf fun _ _ _ _ _ h h' => h'.congr_left h

/-- One item that leaves the tables as they are. -/
theorem single {g : α → ItemKind} (he : Steady e) (hreading : ∀ a, (g a).reading = [g a])
    (h : ∀ a t, (g a).Makes t t) (range : Extent) :
    Counted (e >>= fun a => Pure.pure [⟨g a, range⟩]) :=
  Accounted.map he fun t a u hu => by
    rw [Item.readingAll_single (hreading a)]
    exact (Tables.After.single (h a t)).congr_right hu

theorem mapM {f : α → Expansion β} (h : ∀ a, Steady (f a)) (as : List α) : Steady (as.mapM f) := by
  induction as with
  | nil => exact .pure []
  | cons a as ih =>
    rw [List.mapM_cons]
    exact (h a).bind fun b => ih.map fun bs => b :: bs

theorem adps {f : α → Expansion β} (h : ∀ a, Steady (f a)) (as : Adps α) : Steady (as.mapM f) := by
  refine (h _).bind fun _ => ?_
  refine (h _).bind fun _ => ?_
  refine (h _).bind fun _ => ?_
  refine (h _).bind fun _ => ?_
  refine (h _).bind fun _ => ?_
  exact (h _).bind fun _ => .pure _

theorem nextUnique : Steady nextUnique := by
  intro r a r' hrun hquiet
  cases hrun
  exact ⟨hquiet, Tables.agree_withUniqueCount _ _⟩

theorem liftFault (range : Extent) (result : Except Fault α) : Steady (liftFault range result) := by
  cases result with
  | ok a => exact .pure a
  | error fault => exact .failAt range fault

theorem substitute (s : Substitution) (range : Extent) (i : Item) :
    Steady (substitute s range i) := by
  intro r a r' hrun hquiet
  unfold Expansion.substitute at hrun
  cases hstep : i.substitute s r.tables.uniqueCount with
  | ok j n =>
    rw [hstep] at hrun
    cases hrun
    exact ⟨hquiet, Tables.agree_withUniqueCount _ _⟩
  | error fault n => rw [hstep] at hrun; cases hrun

theorem reportParsed (config : Config) (frame : Frame) (parsed : Parsed) :
    Steady (reportParsed config frame parsed) := by
  intro r a r' hrun hquiet
  cases hrun
  exact ⟨(List.append_eq_nil_iff.1 hquiet).1, .refl _⟩

theorem ask (config : Config) (path : String) : Steady (ask config path) := by
  intro r a r' hrun hquiet
  cases hrun
  exact ⟨hquiet, .refl _⟩

theorem checkCancelled (config : Config) (range : Extent) :
    Steady (checkCancelled config range) := by
  intro r a r' hrun hquiet
  unfold Expansion.checkCancelled at hrun
  change (if config.watch.cancelled r.asked then _ else _ : Expansion Unit) r = _ at hrun
  split at hrun
  · cases hrun
  · cases hrun
    exact ⟨hquiet, .refl _⟩

end Steady

/-! ### Items one behind the other -/

namespace Counted

theorem nil : Counted (Pure.pure []) := Accounted.pure fun t => .nil (.refl t)

theorem append {e e' : Expansion (List Item)} (he : Counted e) (he' : Counted e') :
    Counted (do
      let produced ← e
      let rest ← e'
      return produced ++ rest) :=
  Accounted.bind he (R := fun produced u is v => ∃ rest, is = produced ++ rest ∧
      u.After (Item.readingAll rest) v)
    (fun produced => Accounted.map he' fun _ rest _ h => ⟨rest, rfl, h⟩) <| by
    rintro t produced u _ v h ⟨rest, rfl, h'⟩
    rw [Item.readingAll_append]
    exact h.append h'

/-- An item that changes the tables and stays. -/
theorem change {f : Tables → Tables} (kind : ItemKind) (hreading : kind.reading = [kind])
    (h : ∀ t, kind.Makes t (f t)) (range : Extent) :
    Counted (do
      Expansion.modifyTables f
      return [⟨kind, range⟩]) :=
  Accounted.map (Accounted.modifyTables f) fun t _ u hu => by
    rw [Item.readingAll_single hreading, hu]
    exact .single (h t)

/-- What expands to one expression changes nothing. -/
theorem agree_of_expr {t u : Tables} {e : Expr} {range : Extent}
    (h : t.After (Item.readingAll [⟨.expr e, range⟩]) u) : u.Agree t := by
  rw [Item.readingAll_single rfl] at h
  cases h with
  | cons hkind hkinds => exact hkinds.agree.trans hkind

end Counted

/-- The items of the level below account for the tables. -/
def CountedBelow (below : Below) : Prop := ∀ one ∈ below, ∀ frame i, Counted (one frame i)

/-! ### Calls and expressions -/

theorem counted_expandBody {one : Item → Expansion (List Item)} (s : Substitution) (range : Extent)
    (hone : ∀ i, Counted (one i)) (body : List Item) : Counted (expandBody s range one body) := by
  induction body with
  | nil => exact .nil
  | cons i is ih =>
    rw [expandBody]
    refine (Steady.substitute s range i).counted fun o => ?_
    cases o with
    | some j => exact (hone j).append ih
    | none => exact Counted.nil.append ih

section Places

variable {place : Place}

theorem counted_callWith (hbelow : CountedBelow place.below) (name : String) (count : Nat)
    {bind : Signature → Expansion Bindings} (hbind : ∀ signature, Steady (bind signature)) :
    Counted (callWith place name count bind) := by
  refine Steady.tables.counted fun t => ?_
  cases t.macros.get? name with
  | none => exact .failAt _ _
  | some entry =>
    refine .ite (.failAt _ _) ?_
    cases hlevel : place.below with
    | none => exact .failAt _ _
    | some below =>
      refine (hbind entry.signature).counted fun bound => Steady.nextUnique.counted fun unique =>
        Accounted.map (counted_expandBody _ _ (fun i => hbelow below hlevel _ i)
          entry.body).relocating fun t items u h => ?_
      rw [Item.readingAll_moveTo]
      exact h

theorem steady_inlineWith (hbelow : CountedBelow place.below) (name : String) (count : Nat)
    {bind : Signature → Expansion Bindings} (hbind : ∀ signature, Steady (bind signature)) :
    Steady (inlineWith place name count bind) := by
  refine Accounted.bind (counted_callWith hbelow name count hbind)
    (R := fun items u _ v => v.Agree u ∧ ∃ e range, items = [⟨.expr e, range⟩]) ?_ ?_
  · intro items
    split
    · exact .pure fun t => ⟨.refl t, _, _, rfl⟩
    · exact .failAt _ _
  · rintro t _ u _ v h ⟨hv, e, range, rfl⟩
    exact hv.trans (Counted.agree_of_expr h)

mutual

/-- **Expanding an expression changes nothing.** -/
theorem steady_expandExpr (hbelow : CountedBelow place.below) : ∀ e : Expr,
    Steady (expandExpr place e)
  | .literal value => by
    rw [expandExpr]
    exact .pure _
  | .ident name => by
    rw [expandExpr]
    refine Steady.tables.bind fun t => ?_
    exact .ite (steady_inlineWith hbelow name 0 fun _ => .pure _) (Steady.pure _)
  | .call name arguments range => by
    rw [expandExpr]
    refine Steady.tables.bind fun t => ?_
    refine .ite ?_ ?_
    · exact steady_inlineWith hbelow name arguments.length fun signature => steady_bindArguments hbelow
        signature.byReference signature.params [] arguments
    · exact .ite (.failAt _ _) ((steady_expandArguments hbelow arguments).map _)
  | .unary op operand => by
    rw [expandExpr]
    exact (steady_expandExpr hbelow operand).map _
  | .binary op lhs rhs => by
    rw [expandExpr]
    exact (steady_expandExpr hbelow lhs).bind fun _ => (steady_expandExpr hbelow rhs).map _
  | .paren inner => by
    rw [expandExpr]
    exact (steady_expandExpr hbelow inner).map _

theorem steady_bindArguments (hbelow : CountedBelow place.below) (byReference : Bool)
    (params : List MacroParam) (bound : Bindings) : ∀ as : List Argument,
    Steady (bindArguments place byReference params bound as)
  | [] => by
    rw [bindArguments]
    exact .pure _
  | a :: as => by
    cases params with
    | nil =>
      rw [bindArguments]
      exact .pure _
    | cons p ps =>
      rw [bindArguments]
      have hrest := fun b =>
        steady_bindArguments hbelow byReference ps (bindParam p b bound) as
      exact .ite ((Steady.pure a).bind hrest) ((steady_expandArgument hbelow a).bind hrest)

theorem steady_expandArguments (hbelow : CountedBelow place.below) : ∀ as : List Argument,
    Steady (expandArguments place as)
  | [] => by
    rw [expandArguments]
    exact .pure _
  | a :: as => by
    rw [expandArguments]
    exact (steady_expandArgument hbelow a).bind fun _ => (steady_expandArguments hbelow as).map _

theorem steady_expandArgument (hbelow : CountedBelow place.below) : ∀ a : Argument,
    Steady (expandArgument place a)
  | .hole => by
    rw [expandArgument]
    exact .pure _
  | .expr e => by
    rw [expandArgument]
    exact (steady_expandExpr hbelow e).map _
  | .parameter p => by
    rw [expandArgument]
    exact (steady_expandParameter hbelow p).map _
  | .equation e => by
    rw [expandArgument]
    exact (steady_expandEquation hbelow e).map _

theorem steady_expandParameter (hbelow : CountedBelow place.below) : ∀ p : Parameter,
    Steady (expandParameter place p)
  | ⟨refinement, name, value⟩ => by
    rw [expandParameter]
    exact (steady_expandValue hbelow value).map _

theorem steady_expandValue (hbelow : CountedBelow place.below) : ∀ w : Value,
    Steady (expandValue place w)
  | .absent => by
    rw [expandValue]
    exact .pure _
  | .literal value => by
    rw [expandValue]
    exact .pure _
  | .equation e => by
    rw [expandValue]
    exact (steady_expandEquation hbelow e).map _

theorem steady_expandEquation (hbelow : CountedBelow place.below) : ∀ e : Equation,
    Steady (expandEquation place e)
  | ⟨op, body, uncertainty⟩ => by
    rw [expandEquation]
    exact (steady_expandExpr hbelow body).map _

end

/-- The name of a parameter stays. -/
theorem accounted_expandParameter (hbelow : CountedBelow place.below) : ∀ p : Parameter,
    Accounted (expandParameter place p) fun t q u => q.name = p.name ∧ u.Agree t
  | ⟨refinement, name, value⟩ => by
    rw [expandParameter]
    exact Accounted.map (steady_expandValue hbelow value) fun _ _ _ h => ⟨rfl, h⟩

theorem steady_evaluate (hbelow : CountedBelow place.below) (e : Expr) : Steady (evaluate place e) :=
  (steady_expandExpr hbelow e).bind fun _ => Steady.tables.bind fun _ => .liftFault _ _

theorem steady_holds (hbelow : CountedBelow place.below) (c : Condition) :
    Steady (holds place c) := by
  cases c <;> rw [holds]
  case expr e => exact (steady_evaluate hbelow e).map _
  case defined symbol negated => exact Steady.tables.bind fun _ => .pure _
  case argument param test => exact .failAt _ _

theorem counted_expandExprItem (hbelow : CountedBelow place.below) (e : Expr) :
    Counted (expandExprItem place e) := by
  have hkeep : Counted (do return [(⟨.expr (← expandExpr place e), place.range⟩ : Item)]) :=
    (steady_expandExpr hbelow e).single (g := ItemKind.expr) (fun _ => rfl) (fun _ => .refl) _
  refine Steady.tables.counted fun t => ?_
  cases e with
  | call name arguments range =>
    exact .ite (counted_callWith hbelow name arguments.length fun signature =>
      steady_bindArguments hbelow signature.byReference signature.params [] arguments) hkeep
  | ident name => exact .ite (counted_callWith hbelow name 0 fun _ => .pure _) hkeep
  | literal value => exact hkeep
  | unary op operand => exact hkeep
  | binary op lhs rhs => exact hkeep
  | paren inner => exact hkeep

theorem steady_expandSiteStatement (hbelow : CountedBelow place.below) (s : SiteStatement) :
    Steady (expandSiteStatement place s) := by
  have hparam := steady_expandParameter hbelow
  cases s <;> rw [expandSiteStatement]
  case coordinate axis value => exact (hparam value).map _
  case occupancy occ =>
    refine (hparam occ.value).bind fun _ => ?_
    exact (Steady.mapM (fun m => (hparam m.value).map _) occ.modifiers).map _
  case scalar word value => exact (hparam value).map _
  case adps values => exact (Steady.adps hparam values).map _

end Places

/-! ### Items -/

theorem counted_independently (frame : Frame) {one : Item → Expansion (List Item)}
    (hone : ∀ i, Counted (one i)) (is : List Item) : Counted (independently frame one is) := by
  induction is with
  | nil => exact .nil
  | cons i is ih =>
    rw [independently_cons]
    exact Counted.append (hone i).alone ih

section Places

variable {place : Place}

theorem counted_includeFile (hbelow : CountedBelow place.below) (path : String) :
    Counted (includeFile place path) := by
  unfold includeFile
  cases hlevel : place.below with
  | none => exact .failAt _ _
  | some below =>
    refine (Steady.ask _ path).counted fun text => ?_
    cases text with
    | none => exact .failAt _ _
    | some text =>
      exact (Steady.reportParsed _ _ _).counted fun _ =>
        (counted_independently _ (fun i => hbelow below hlevel _ i) _).relocating

theorem counted_expandDirective (hbelow : CountedBelow place.below) (d : Directive) :
    Counted (expandDirective place d) := by
  cases d <;> rw [expandDirective]
  case includeFile path => exact counted_includeFile hbelow path
  case out e =>
    exact (steady_evaluate hbelow e).single (g := fun value => .expr (.literal (.ofNumber value)))
      (fun _ => rfl) (fun _ => .refl) _
  case define name => exact .change (.directive (.define name)) rfl (fun _ => .refl _) _
  case undef name => exact .change (.directive (.undef name)) rfl (fun _ => .refl _) _
  case deleteMacros names =>
    exact .change (.directive (.deleteMacros names)) rfl (fun _ => .refl _) _
  case prm name e =>
    exact (steady_evaluate hbelow e.body).counted fun value =>
      .change (.directive (.prm name e)) rfl (fun _ => ⟨value, .refl _⟩) _
  case seed =>
    exact (Steady.pure ()).single (g := fun _ => .directive .seed) (fun _ => rfl) (fun _ => .refl) _

end Places

section Items

variable {config : Config} {below : Below} {frame : Frame}

mutual

theorem counted_expandItem (hbelow : CountedBelow below) :
    ∀ i : Item, Counted (expandItem config below frame i)
  | ⟨kind, range⟩ => by
    rw [expandItem]
    exact (Steady.checkCancelled config range).counted fun _ => counted_expandKind hbelow kind

theorem counted_expandKind (hbelow : CountedBelow below) {range : Extent} : ∀ k : ItemKind,
    Counted (expandKind ⟨config, below, frame, range⟩ k)
  | .directive d => by
    rw [expandKind]
    exact counted_expandDirective hbelow d
  | .conditional _ chain => by
    rw [expandKind]
    exact counted_expandChain hbelow chain
  | .block items => by
    rw [expandKind]
    exact counted_expandItems hbelow items
  | .expr e => by
    rw [expandKind]
    exact counted_expandExprItem hbelow e
  | .bodyOp _ param => by
    rw [expandKind]
    exact .failAt _ _
  | .macroDecl isList signatures body => by
    rw [expandKind]
    exact .change (.macroDecl isList signatures body) rfl (fun _ => .refl _) _
  | .declaration scope p => by
    rw [expandKind]
    have hrest : Accounted (do
        return [(⟨.declaration scope (← expandParameter ⟨config, below, frame, range⟩ p), range⟩ :
          Item)]) fun t is u => ∃ q, is = [⟨.declaration scope q, range⟩] ∧ q.name = p.name ∧
            u.Agree t :=
      Accounted.map (accounted_expandParameter hbelow p) fun _ q _ h => ⟨q, rfl, h⟩
    have hmakes : ∀ {t u : Tables} {q : Parameter}, q.name = p.name →
        u.Agree (declaring t p.name) →
        t.After (Item.readingAll [⟨.declaration scope q, range⟩]) u := by
      intro t u q hq hu
      rw [← hq] at hu
      exact .single hu
    cases hname : p.name with
    | none =>
      refine hrest.mono ?_
      rintro t _ u ⟨q, rfl, hq, hu⟩
      exact hmakes hq (hname ▸ hu)
    | some name =>
      refine Accounted.bind (Accounted.modifyTables _) (fun _ => hrest) ?_
      rintro t _ _ _ v rfl ⟨q, rfl, hq, hv⟩
      exact hmakes hq (hname ▸ hv)
  | .existing a => by
    rw [expandKind]
    refine .tables_bind fun t => ?_
    by_cases hdeclared : t.isDeclared a.name = true
    · rw [if_pos hdeclared]
      refine Accounted.map (steady_expandEquation hbelow a.equation) ?_
      rintro _ e u hu rfl
      exact .single ⟨hdeclared, hu⟩
    · rw [if_neg hdeclared]
      exact .failAt _ _
  | .site name members => by
    rw [expandKind]
    refine Accounted.map (counted_expandItems hbelow members) fun t ms u h => ?_
    rw [Item.readingAll, Item.reading, ItemKind.reading, Item.readingAll, List.append_nil]
    exact .cons (.refl t) h
  | .siteStatement s => by
    rw [expandKind]
    exact (steady_expandSiteStatement hbelow s).single (g := .siteStatement) (fun _ => rfl)
      (fun _ => .refl) _
  | .keyword word none => by
    rw [expandKind]
    exact (Steady.pure ()).single (g := fun _ => .keyword word none) (fun _ => rfl) (fun _ => .refl) _
  | .keyword word (some e) => by
    rw [expandKind]
    exact (steady_expandEquation hbelow e).single (g := fun f => .keyword word (some f))
      (fun _ => rfl) (fun _ => .refl) _
  | .parameter p => by
    rw [expandKind]
    exact (steady_expandParameter hbelow p).single (g := .parameter) (fun _ => rfl) (fun _ => .refl) _
  | .equation e => by
    rw [expandKind]
    exact (steady_expandEquation hbelow e).single (g := .equation) (fun _ => rfl) (fun _ => .refl) _
  | .assignment name e => by
    rw [expandKind]
    exact (steady_expandEquation hbelow e).single (g := .assignment name) (fun _ => rfl)
      (fun _ => .refl) _

theorem counted_expandChain (hbelow : CountedBelow below) {range : Extent} : ∀ c : Chain,
    Counted (expandChain ⟨config, below, frame, range⟩ c)
  | .done => by
    rw [expandChain]
    exact .nil
  | .otherwise items => by
    rw [expandChain]
    exact counted_expandItems hbelow items
  | .branch condition items rest => by
    rw [expandChain]
    exact (steady_holds hbelow condition).counted fun _ =>
      .ite (counted_expandItems hbelow items) (counted_expandChain hbelow rest)

theorem counted_expandItems (hbelow : CountedBelow below) : ∀ is : List Item,
    Counted (expandItems config below frame is)
  | [] => by
    rw [expandItems]
    exact .nil
  | i :: is => by
    rw [expandItems]
    exact (counted_expandItem hbelow i).append (counted_expandItems hbelow is)

end

end Items

/-- **Items account for the tables**, however deep macros and files are nested. -/
theorem counted_itemAt (config : Config) (levels : Nat) (frame : Frame) (i : Item) :
    Counted (itemAt config levels frame i) := by
  induction levels generalizing frame i with
  | zero => exact counted_expandItem (by rintro _ ⟨⟩) i
  | succ levels ih =>
    refine counted_expandItem ?_ i
    rintro one ⟨⟩ frame j
    exact ih frame j

theorem counted_rootExpansion (config : Config) (parsed : Parsed) :
    Counted (Expander.rootExpansion config parsed) :=
  (Steady.reportParsed config .root parsed).counted fun _ =>
    counted_independently .root (counted_itemAt config _ .root) _

end Expansion

open Expander (rootExpansion documentOf)

/-- **The items of a document account for its tables.**  If nothing is found to be wrong, the tables
are those after the items of the document, read from empty tables on. -/
theorem Session.tables_after_items (s : Session) (text : String)
    (hok : (s.parse text).isOk = true) :
    Tables.After .empty (Item.readingAll (s.parse text).items) (s.parse text).tables := by
  cases hroot : rootExpansion s.config (Parsed.ofText s.vocabulary text)
      ⟨.empty, [], [], []⟩ with
  | ok items r =>
    have hdocument : s.parse text = ⟨items, r.problems, r.comments, r.tables⟩ :=
      congrArg documentOf hroot
    rw [hdocument] at hok ⊢
    exact (Expansion.counted_rootExpansion _ _ _ _ _ hroot (List.isEmpty_iff.1 hok)).2
  | error d r =>
    have hdocument : s.parse text = ⟨[], [⟨d, .root⟩], [], r.tables⟩ := congrArg documentOf hroot
    rw [hdocument] at hok
    cases hok

/-- **No parameter is used before it is declared.**  If nothing is found to be wrong, then before
every existing parameter of the document there is a declaration of its name, wherever the two came
from. -/
theorem Session.declared_before_existing (s : Session) (text : String)
    (hok : (s.parse text).isOk = true) (before after : List ItemKind) (a : Assignment)
    (h : Item.readingAll (s.parse text).items = before ++ .existing a :: after) :
    ∃ scope p, .declaration scope p ∈ before ∧ p.name = some a.name := by
  have hafter := s.tables_after_items text hok
  rw [h] at hafter
  obtain ⟨t, hbefore, hexisting⟩ := hafter.split
  cases hexisting with
  | cons hkind _ =>
    obtain ⟨hdeclared, -⟩ := hkind
    refine (hbefore.exists_declaration hdeclared).resolve_left ?_
    simp [Tables.isDeclared, Tables.empty]

/-- The declaration comes from an included macro that is called in a site, and the use of it from the
branch of a conditional. -/
theorem Session.declared_before_existing_include :
    let s := Session.standard.withResolver (.ofFiles [("f", "macro m(a) \x7b prm a 1 \x7d")])
    let text := "#include \"f\" site s m(b) x 0 #if 1; existing_prm b = 2; #endif"
    (s.parse text).isOk = true ∧
      (∃ before after a, Item.readingAll (s.parse text).items = before ++ .existing a :: after ∧
        ∃ scope p, .declaration scope p ∈ before ∧ p.name = some a.name) := by
  intro s text
  have hok : (s.parse text).isOk = true := by decide +kernel
  have hexisting : (Item.readingAll (s.parse text).items).any
      (fun kind => kind matches .existing _) = true := by decide +kernel
  obtain ⟨kind, hmem, hkind⟩ := List.any_eq_true.1 hexisting
  obtain ⟨before, after, hsplit⟩ := List.append_of_mem hmem
  cases kind with
  | existing a =>
    exact ⟨hok, before, after, a, hsplit,
      s.declared_before_existing text hok before after a hsplit⟩
  | _ => cases hkind

end ControlFile
