import ControlFile.Proofs.Expansion.Course
import ControlFile.Proofs.Expansion.Simulation

/-!
# Where an expansion fails

An expansion that fails does so at one point of its course, and what fails there changes no tables: a name
that is not known, a number of arguments that does not fit, a depth that is reached, a value that is not
there, a file that is missing.  So the tables that are left are those at that point (`reaches_of_fails`).

This is proved one step at a time: what is left at a point fails by itself, or in a part to which there is
a step (`failsWithin`).
-/

namespace ControlFile.Expansion

open Expander (belowAt itemAt_eq)

/-! ### Where a sequence fails -/

section Sequences

variable {α β : Type} {r r' : Run} {d : Diagnostic}

/-- A sequence of steps fails in its first step or behind it. -/
theorem error_of_bind {e : Expansion α} {g : α → Expansion β} (h : (e >>= g) r = .error d r') :
    e r = .error d r' ∨ ∃ a r₁, e r = .ok a r₁ ∧ g a r₁ = .error d r' := by
  cases he : e r with
  | ok a r₁ => exact .inr ⟨a, r₁, rfl, (bind_of_ok he).symm.trans h⟩
  | error d₁ r₁ =>
    rw [bind_of_error he] at h
    cases h
    exact .inl rfl

theorem error_of_map {e : Expansion α} {g : α → β}
    (h : (e >>= fun a => pure (g a)) r = .error d r') : e r = .error d r' := by
  obtain h | ⟨a, r₁, -, h⟩ := error_of_bind h
  · exact h
  · cases h

theorem error_of_relocating {range : Extent} {e : Expansion α}
    (h : relocating range e r = .error d r') : ∃ d', e r = .error d' r' ∧ d.fault = d'.fault := by
  unfold Expansion.relocating at h
  cases he : e r with
  | ok a r₁ =>
    rw [he] at h
    cases h
  | error d' r₁ =>
    rw [he] at h
    cases h
    exact ⟨d', rfl, rfl⟩

/-- The step, without what it gives. -/
def silent (e : Expansion α) : Expansion Unit := e >>= fun _ => pure ()

theorem error_silent_iff {e : Expansion α} : silent e r = .error d r' ↔ e r = .error d r' :=
  ⟨error_of_map, bind_of_error⟩

@[simp] theorem silent_pure (a : α) : silent (pure a) = pure () := pure_bind ..

@[simp] theorem silent_bind (e : Expansion α) (g : α → Expansion β) :
    silent (e >>= g) = e >>= fun a => silent (g a) := bind_assoc ..

@[simp] theorem silent_map (f : α → β) (e : Expansion α) : silent (f <$> e) = silent e :=
  bind_map_left ..

end Sequences

/-! ### Arguments that are expanded -/

section Arguments

variable {place : Place} {r r' : Run} {d : Diagnostic}

/-- An expression that calls no macro fails where its parts do. -/
theorem error_parts {e : Expr} (hcallee : ∀ c ∈ e.callee, r.tables.macros.contains c.1 = false)
    (h : expandExpr place e r = .error d r') :
    r' = r ∨ expandArguments place e.parts r = .error d r' := by
  cases e with
  | literal value =>
    rw [expandExpr] at h
    cases h
  | ident name =>
    rw [expandExpr, tables_bind, hcallee _ rfl] at h
    cases h
  | call name arguments range =>
    rw [expandExpr, tables_bind] at h
    simp only [hcallee _ rfl, Bool.false_eq_true, if_false] at h
    split at h
    · cases h
      exact .inl rfl
    · exact .inr (error_of_map h)
  | unary op operand =>
    rw [← error_silent_iff] at h ⊢
    refine .inr (Eq.trans ?_ h)
    simp [Expr.parts, expandExpr, expandArguments, expandArgument]
  | binary op lhs rhs =>
    rw [← error_silent_iff] at h ⊢
    refine .inr (Eq.trans ?_ h)
    simp [Expr.parts, expandExpr, expandArguments, expandArgument]
  | paren inner =>
    rw [← error_silent_iff] at h ⊢
    refine .inr (Eq.trans ?_ h)
    simp [Expr.parts, expandExpr, expandArguments, expandArgument]

/-- Arguments are bound if those by value can be expanded. -/
theorem error_byValue {byReference : Bool} {params : List MacroParam} {bound : Bindings}
    {arguments : List Argument}
    (h : bindArguments place byReference params bound arguments r = .error d r') :
    expandArguments place (Argument.byValue byReference params arguments) r = .error d r' := by
  induction arguments generalizing params bound r with
  | nil =>
    rw [bindArguments] at h
    cases h
  | cons a as ih =>
    cases params with
    | nil =>
      rw [bindArguments] at h
      cases h
    | cons p ps =>
      rw [bindArguments] at h
      rw [Argument.byValue]
      split at h
      · rename_i hreference
        rw [if_pos hreference]
        exact ih h
      · rename_i hreference
        rw [if_neg hreference, expandArguments]
        obtain ha | ⟨b, r₁, ha, has⟩ := error_of_bind h
        · exact bind_of_error ha
        · exact (bind_of_ok ha).trans (bind_of_error (ih has))

theorem error_expandEquation {e : Equation} (h : expandEquation place e r = .error d r') :
    expandArguments place [.expr e.body] r = .error d r' := by
  obtain ⟨op, body, u⟩ := e
  rw [expandEquation] at h
  rw [expandArguments, expandArgument]
  exact bind_of_error (bind_of_error (error_of_map h))

/-- The value of an expression can fail to be there once it has been expanded. -/
theorem error_evaluate {e : Expr} (h : evaluate place e r = .error d r') :
    expandArguments place [.expr e] r = .error d r' ∨
      ∃ a, expandArgument place (.expr e) r = .ok a r' := by
  rw [expandArguments, expandArgument]
  obtain he | ⟨f, r₁, he, hvalue⟩ := error_of_bind h
  · exact .inl (bind_of_error (bind_of_error he))
  · refine .inr ⟨.expr f, ?_⟩
    rw [tables_bind] at hvalue
    cases hresult : f.evaluate r₁.tables.valueOf? with
    | ok value =>
      rw [hresult] at hvalue
      cases hvalue
    | error fault =>
      rw [hresult] at hvalue
      cases hvalue
      exact bind_of_ok he

/-! ### Calls -/

variable {config : Config} {n : Nat} {f : Frame} {x : Extent} {name : String}
  {arguments : List Argument}

/-- **A call fails** before anything is done, in the arguments by value, or in the body. -/
theorem error_callAt (h : callAt (placeAt config n f x) name arguments r = .error d r') :
    r' = r ∨ ∃ m entry, n = m + 1 ∧ r.tables.macros.get? name = some entry ∧
      entry.Takes arguments.length ∧
      (expandArguments (placeAt config n f x)
          (Argument.byValue entry.signature.byReference entry.signature.params arguments) r =
            .error d r' ∨
        ∃ bound r₁ d', bindArguments (placeAt config n f x) entry.signature.byReference
            entry.signature.params [] arguments r = .ok bound r₁ ∧
          expandBody ⟨bound, r₁.tables.nextUnique.1⟩ x (itemAt config m (f.inCall x)) entry.body
            { r₁ with tables := r₁.tables.nextUnique.2 } = .error d' r' ∧ d.fault = d'.fault) := by
  unfold callAt callWith at h
  rw [tables_bind] at h
  cases hentry : r.tables.macros.get? name with
  | none =>
    simp only [hentry] at h
    cases h
    exact .inl rfl
  | some entry =>
    simp only [hentry] at h
    split at h
    · cases h
      exact .inl rfl
    · rename_i hcount
      have harity : entry.Takes arguments.length := by
        unfold MacroEntry.Takes
        omega
      cases n with
      | zero =>
        cases h
        exact .inl rfl
      | succ m =>
        refine .inr ⟨m, entry, rfl, rfl, harity, ?_⟩
        obtain hbind | ⟨bound, r₁, hbound, h⟩ := error_of_bind h
        · exact .inl (error_byValue hbind)
        · rw [Expander.nextUnique_bind] at h
          obtain ⟨d', hbody, hfault⟩ := error_of_relocating (error_of_map h)
          exact .inr ⟨bound, r₁, d', hbound, hbody, hfault⟩

/-- A macro that is called in an expression. -/
theorem expandExpr_eq_of_callee {e : Expr} (hcallee : e.callee = some (name, arguments))
    (hknown : r.tables.macros.contains name = true) :
    expandExpr place e r = inlineWith place name arguments.length (fun signature =>
      bindArguments place signature.byReference signature.params [] arguments) r := by
  cases e with
  | ident m =>
    cases hcallee
    rw [expandExpr, tables_bind, if_pos hknown]
    simp only [bindArguments]
    rfl
  | call m as range =>
    cases hcallee
    rw [expandExpr, tables_bind]
    simp only [if_pos hknown]
  | _ => cases hcallee

/-- A macro that is called in an expression fails where the call does, or behind it. -/
theorem error_inline {e : Expr} (hcallee : e.callee = some (name, arguments))
    (hknown : r.tables.macros.contains name = true) (h : expandExpr place e r = .error d r') :
    callAt place name arguments r = .error d r' ∨
      ∃ is, callAt place name arguments r = .ok is r' := by
  rw [expandExpr_eq_of_callee hcallee hknown] at h
  obtain h | ⟨is, r₁, hcall, h⟩ := error_of_bind h
  · exact .inl h
  · refine .inr ⟨is, ?_⟩
    split at h
    · cases h
    · cases h
      exact hcall

/-- An expression that stands as an item fails where it would inside another one. -/
theorem error_expandExprItem {e : Expr} (h : expandExprItem place e r = .error d r') :
    expandExpr place e r = .error d r' := by
  have hcall : ∀ name arguments, e.callee = some (name, arguments) →
      r.tables.macros.contains name = true → callAt place name arguments r = .error d r' →
      expandExpr place e r = .error d r' := fun name arguments hcallee hknown hfail => by
    rw [expandExpr_eq_of_callee hcallee hknown]
    exact bind_of_error hfail
  unfold expandExprItem at h
  rw [tables_bind] at h
  cases e with
  | call name arguments range =>
    dsimp only at h
    split at h
    · exact hcall name arguments rfl ‹_› h
    · exact error_of_map h
  | ident name =>
    dsimp only at h
    split at h
    · refine hcall name [] rfl ‹_› ?_
      unfold callAt
      simp only [bindArguments]
      exact h
    · exact error_of_map h
  | literal value => exact error_of_map h
  | unary op operand => exact error_of_map h
  | binary op lhs rhs => exact error_of_map h
  | paren inner => exact error_of_map h

end Arguments

/-! ### Items -/

section Items

variable {place : Place} {r r' : Run} {d : Diagnostic}

/-- Values behind an occupancy are expanded one after the other. -/
theorem silent_modifiers (place : Place) (ms : List OccModifier) :
    silent (expandArguments place (ms.map fun m => .parameter m.value)) =
      silent (ms.mapM fun m => OccModifier.mk m.word <$> expandParameter place m.value) := by
  induction ms with
  | nil => simp [expandArguments]
  | cons m ms ih => simp [expandArguments, expandArgument, List.mapM_cons, ih]

/-- A statement of a site is expanded like the parameters in it. -/
theorem silent_expandSiteStatement (place : Place) (s : SiteStatement) :
    silent (expandSiteStatement place s) = silent (expandArguments place (s.slots.map .parameter)) := by
  cases s with
  | coordinate axis value =>
    simp [expandSiteStatement, SiteStatement.slots, expandArguments, expandArgument]
  | occupancy occ =>
    simp [expandSiteStatement, SiteStatement.slots, expandArguments, expandArgument, silent_modifiers,
      Function.comp_def]
  | scalar word value =>
    simp [expandSiteStatement, SiteStatement.slots, expandArguments, expandArgument]
  | adps values =>
    simp [expandSiteStatement, SiteStatement.slots, Adps.mapM, Adps.toList, expandArguments,
      expandArgument]

/-- What is not cancelled fails behind the test for cancellation. -/
theorem error_of_checkCancelled {α : Type} {config : Config} {range : Extent} {e : Expansion α}
    (h : (checkCancelled config range >>= fun _ => e) r = .error d r') (hd : d.fault ≠ .cancelled) :
    e r = .error d r' := by
  have hcheck : checkCancelled config range r =
      (if config.watch.cancelled r.asked then failAt range .cancelled else pure () : Expansion Unit) r :=
    rfl
  split at hcheck
  · rw [bind_of_error hcheck] at h
    cases h
    exact absurd rfl hd
  · rw [bind_of_ok hcheck] at h
    exact h

theorem error_substitute {s : Substitution} {range : Extent} {i : Item}
    (h : substitute s range i r = .error d r') : r'.tables.Agree r.tables := by
  unfold Expansion.substitute at h
  cases hcopy : i.substitute s r.tables.uniqueCount with
  | ok j n =>
    rw [hcopy] at h
    cases h
  | error fault n =>
    rw [hcopy] at h
    cases h
    exact Tables.agree_withUniqueCount n r.tables

/-- Items of an included file fail alone; only cancellation stops them. -/
theorem fault_of_independently {frame : Frame} {one : Item → Expansion (List Item)} {is : List Item}
    (h : independently frame one is r = .error d r') : d.fault = .cancelled := by
  induction is generalizing r with
  | nil => cases h
  | cons i is ih =>
    rw [independently_cons] at h
    obtain h | ⟨produced, r₁, -, h⟩ := error_of_bind h
    · unfold alone at h
      cases hone : one i r with
      | ok items r₁ =>
        rw [hone] at h
        cases h
      | error d₁ r₁ =>
        rw [hone] at h
        by_cases hd : d₁.fault = .cancelled
        · simp only [if_pos hd] at h
          cases h
          exact hd
        · simp only [if_neg hd] at h
          cases h
    · exact ih (error_of_map h)

/-- **A file that cannot be included** leaves the tables alone. -/
theorem error_includeFile {path : String} (h : includeFile place path r = .error d r')
    (hd : d.fault ≠ .cancelled) : r'.tables = r.tables := by
  unfold includeFile at h
  cases hbelow : place.below with
  | none =>
    simp only [hbelow] at h
    cases h
    rfl
  | some below =>
    simp only [hbelow] at h
    obtain h | ⟨text, r₁, hask, h⟩ := error_of_bind h
    · cases h
    · cases hask
      cases htext : place.config.resolver path with
      | none =>
        simp only [htext] at h
        cases h
        rfl
      | some text =>
        simp only [htext] at h
        obtain h | ⟨_, r₂, -, h⟩ := error_of_bind h
        · cases h
        · obtain ⟨d', hitems, hfault⟩ := error_of_relocating h
          exact absurd (hfault.trans (fault_of_independently hitems)) hd

/-- The item fails before it changes anything, in its parts once its name is declared, or behind them. -/
def FailsAlone (place : Place) (k : ItemKind) (r : Run) (d : Diagnostic) (r' : Run) : Prop :=
  k.declares = none ∧ r'.tables = r.tables ∨
    (∀ a, k = .existing a → r.tables.isDeclared a.name = true) ∧
      (expandArguments place k.parts { r with tables := declaring r.tables k.declares } =
          .error d r' ∨
        ∃ e b, k.parts = [.expr e] ∧ k.declares = none ∧ expandArgument place (.expr e) r = .ok b r')

/-- The expansion of an item whose parts are all that is expanded in it. -/
theorem FailsAlone.of_silent {k : ItemKind} {e : Expansion (List Item)}
    (hexisting : ∀ a, k ≠ .existing a) (hdeclares : k.declares = none)
    (h : e r = .error d r') (hsilent : silent e = silent (expandArguments place k.parts)) :
    FailsAlone place k r d r' := by
  refine .inr ⟨fun a ha => absurd ha (hexisting a), .inl ?_⟩
  rw [hdeclares, ← error_silent_iff]
  exact (congrFun hsilent r).symm.trans (error_silent_iff.2 h)

theorem FailsAlone.of_evaluate {k : ItemKind} {e : Expr} (hexisting : ∀ a, k ≠ .existing a)
    (hdeclares : k.declares = none) (hparts : k.parts = [.expr e])
    (h : evaluate place e r = .error d r') : FailsAlone place k r d r' := by
  refine .inr ⟨fun a ha => absurd ha (hexisting a), ?_⟩
  rw [hdeclares, hparts]
  obtain h | ⟨b, h⟩ := error_evaluate h
  · exact .inl h
  · exact .inr ⟨e, b, rfl, rfl, h⟩

theorem error_expandDirective {w : Directive} (h : expandDirective place w r = .error d r')
    (hd : d.fault ≠ .cancelled) : FailsAlone place (.directive w) r d r' := by
  cases w <;> rw [expandDirective] at h
  case includeFile path => exact .inl ⟨rfl, error_includeFile h hd⟩
  case out e => exact .of_evaluate (by simp) rfl rfl (error_of_map h)
  case prm name e =>
    obtain h | ⟨value, r₁, -, h⟩ := error_of_bind h
    · exact .of_evaluate (by simp) rfl rfl h
    · cases h
  all_goals cases h

/-- **How an item fails that has no items in it.** -/
theorem error_expandKind {k : ItemKind} (hk : k.IsLeaf) (h : expandKind place k r = .error d r')
    (hd : d.fault ≠ .cancelled) : FailsAlone place k r d r' := by
  cases k with
  | keyword word e =>
    cases e with
    | none =>
      rw [expandKind] at h
      cases h
    | some e =>
      rw [expandKind] at h
      refine .of_silent (by simp) rfl h ?_
      simp [ItemKind.parts, expandArguments, expandArgument]
  | expr e =>
    rw [expandKind] at h
    refine .inr ⟨by simp, .inl ?_⟩
    change expandArguments place [.expr e] r = _
    rw [expandArguments, expandArgument]
    exact bind_of_error (bind_of_error (error_expandExprItem h))
  | parameter p =>
    rw [expandKind] at h
    refine .of_silent (by simp) rfl h ?_
    simp [ItemKind.parts, expandArguments, expandArgument]
  | equation e =>
    rw [expandKind] at h
    refine .of_silent (by simp) rfl h ?_
    simp [ItemKind.parts, expandArguments, expandArgument]
  | assignment name e =>
    rw [expandKind] at h
    refine .of_silent (by simp) rfl h ?_
    simp [ItemKind.parts, expandArguments, expandArgument]
  | siteStatement s =>
    rw [expandKind] at h
    refine .of_silent (by simp) rfl h ?_
    simp [ItemKind.parts, ← silent_expandSiteStatement]
  | declaration scope p =>
    rw [expandKind] at h
    refine .inr ⟨by simp, .inl ?_⟩
    rw [← error_silent_iff] at h ⊢
    refine Eq.trans ?_ h
    simp only [ItemKind.parts, ItemKind.declares]
    cases p.name <;> simp [declaring, expandArguments, expandArgument] <;> rfl
  | existing a =>
    rw [expandKind, tables_bind] at h
    split at h
    · rename_i hdeclared
      refine .inr ⟨by rintro _ ⟨⟩; exact hdeclared, .inl ?_⟩
      change expandArguments place [.equation a.equation] r = _
      rw [expandArguments, expandArgument]
      exact bind_of_error (bind_of_error (error_of_map h))
    · cases h
      exact .inl ⟨rfl, rfl⟩
  | directive w =>
    rw [expandKind] at h
    exact error_expandDirective h hd
  | bodyOp op param =>
    rw [expandKind] at h
    cases h
    exact .inl ⟨rfl, rfl⟩
  | site name members => cases hk
  | macroDecl isList signatures body => cases hk
  | conditional family chain => cases hk
  | block items => cases hk

end Items

/-! ### Where an expansion fails -/

section Course

variable {config : Config} {d : Diagnostic} {r : Run}

/-- What is left at the point fails. -/
def Fails (config : Config) (d : Diagnostic) (r : Run) (p : Point) : Prop :=
  match p.part with
  | .arguments as => expandArguments (placeAt config p.levels p.frame p.range) as p.run = .error d r
  | .items is => expandItems config (belowAt config p.levels) p.frame is p.run = .error d r
  | .chain c => expandChain (placeAt config p.levels p.frame p.range) c p.run = .error d r
  | .copies s body =>
    expandBody s p.range (itemAt config p.levels p.frame) body p.run = .error d r

/-- From the point one comes to another one with the tables of `r`. -/
def Reaches (config : Config) (r : Run) (p : Point) : Prop :=
  ∃ q, Course config p q ∧ r.tables.Agree q.run.tables

/-- One comes to such a point, or what fails is a part. -/
def FailsWithin (config : Config) (d : Diagnostic) (r : Run) (p : Point) : Prop :=
  Reaches config r p ∨ ∃ q d', Step config p q ∧ Fails config d' r q ∧ d.fault = d'.fault

theorem FailsWithin.here {p : Point} (h : r.tables = p.run.tables) : FailsWithin config d r p :=
  .inl ⟨p, .refl, h ▸ .refl _⟩

theorem FailsWithin.behind {p q : Point} (hstep : Step config p q) (h : r.tables = q.run.tables) :
    FailsWithin config d r p :=
  .inl ⟨q, .single hstep, h ▸ .refl _⟩

theorem FailsWithin.inside {p q : Point} (hstep : Step config p q) (h : Fails config d r q) :
    FailsWithin config d r p :=
  .inr ⟨q, d, hstep, h, rfl⟩

section Parts

variable {n : Nat} {f : Frame} {x : Extent} {r₀ : Run}

/-- An argument fails where its parts do, or the call that it is. -/
theorem failsWithin_argument {a : Argument} {as : List Argument}
    (h : expandArgument (placeAt config n f x) a r₀ = .error d r) :
    FailsWithin config d r ⟨n, f, x, .arguments (a :: as), r₀⟩ := by
  cases a with
  | hole =>
    rw [expandArgument] at h
    cases h
  | equation e =>
    rw [expandArgument] at h
    exact .inside (.part (by rintro _ ⟨⟩)) (error_expandEquation (error_of_map h))
  | parameter p =>
    obtain ⟨mark, m, w⟩ := p
    rw [expandArgument, expandParameter] at h
    have hvalue := error_of_map (error_of_map h)
    cases w with
    | absent =>
      rw [expandValue] at hvalue
      cases hvalue
    | literal value =>
      rw [expandValue] at hvalue
      cases hvalue
    | equation e =>
      rw [expandValue] at hvalue
      exact .inside (.part (by rintro _ ⟨⟩)) (error_expandEquation (error_of_map hvalue))
  | expr e =>
    rw [expandArgument] at h
    have he := error_of_map h
    by_cases hknown : ∃ name arguments, e.callee = some (name, arguments) ∧
        r₀.tables.macros.contains name = true
    · obtain ⟨name, arguments, hcallee, hknown⟩ := hknown
      obtain hcall | ⟨is, hcall⟩ := error_inline hcallee hknown he
      · obtain rfl | ⟨m, entry, rfl, hentry, harity, hfail⟩ := error_callAt hcall
        · exact .here rfl
        · obtain hfail | ⟨bound, r₁, d', hbound, hbody, hfault⟩ := hfail
          · exact .inside (.byValue hcallee hentry harity) hfail
          · exact .inr ⟨_, d', .body hcallee hentry harity hbound, hbody, hfault⟩
      · exact .behind (.pastCall hcallee hcall) rfl
    · have hcallee : ∀ c ∈ e.callee, r₀.tables.macros.contains c.1 = false := fun c hc =>
        Bool.eq_false_iff.2 fun hc' => hknown ⟨c.1, c.2, hc, hc'⟩
      obtain rfl | hparts := error_parts hcallee he
      · exact .here rfl
      · exact .inside (.part hcallee) hparts

theorem failsWithin_arguments {as : List Argument}
    (h : expandArguments (placeAt config n f x) as r₀ = .error d r) :
    FailsWithin config d r ⟨n, f, x, .arguments as, r₀⟩ := by
  cases as with
  | nil =>
    rw [expandArguments] at h
    cases h
  | cons a as =>
    rw [expandArguments] at h
    obtain h | ⟨b, r₁, ha, h⟩ := error_of_bind h
    · exact failsWithin_argument h
    · exact .inside (.pastArgument ha) (error_of_map h)

/-- An item that has no items in it fails before it changes anything, or in its parts. -/
theorem FailsAlone.failsWithin {k : ItemKind} {range : Extent} {is : List Item}
    (h : FailsAlone (placeAt config n f range) k r₀ d r) :
    FailsWithin config d r ⟨n, f, x, .items (⟨k, range⟩ :: is), r₀⟩ := by
  obtain ⟨-, h⟩ | ⟨hexisting, h⟩ := h
  · exact .here h
  · have hparts : Step config ⟨n, f, x, .items (⟨k, range⟩ :: is), r₀⟩
        ⟨n, f, range, .arguments k.parts,
          { r₀ with tables := declaring r₀.tables k.declares }⟩ := .parts hexisting
    obtain h | ⟨e, b, hk, hdeclares, he⟩ := h
    · exact .inside hparts h
    · -- The expression has been expanded, and has no value.
      rw [hk, hdeclares] at hparts
      exact .inl ⟨⟨n, f, range, .arguments [], r⟩, .tail (.single hparts) (.pastArgument he), .refl _⟩

theorem failsWithin_item {i : Item} {is : List Item} (hd : d.fault ≠ .cancelled)
    (h : itemAt config n f i r₀ = .error d r) :
    FailsWithin config d r ⟨n, f, x, .items (i :: is), r₀⟩ := by
  obtain ⟨kind, range⟩ := i
  rw [itemAt_eq, expandItem] at h
  have h := error_of_checkCancelled h hd
  cases kind with
  | site name members =>
    rw [expandKind] at h
    exact .inside .site (error_of_map h)
  | block items =>
    rw [expandKind] at h
    exact .inside .block h
  | conditional family c =>
    rw [expandKind] at h
    exact .inside .conditional h
  | macroDecl isList signatures body =>
    rw [expandKind] at h
    cases h
  | _ => exact (error_expandKind (by trivial) h hd).failsWithin

theorem failsWithin_items {is : List Item} (hd : d.fault ≠ .cancelled)
    (h : expandItems config (belowAt config n) f is r₀ = .error d r) :
    FailsWithin config d r ⟨n, f, x, .items is, r₀⟩ := by
  cases is with
  | nil =>
    rw [expandItems] at h
    cases h
  | cons i is =>
    rw [expandItems, ← itemAt_eq] at h
    obtain h | ⟨js, r₁, hi, h⟩ := error_of_bind h
    · exact failsWithin_item hd h
    · exact .inside (.pastItem hi) (error_of_map h)

theorem failsWithin_chain {c : Chain} (h : expandChain (placeAt config n f x) c r₀ = .error d r) :
    FailsWithin config d r ⟨n, f, x, .chain c, r₀⟩ := by
  cases c with
  | done =>
    rw [expandChain] at h
    cases h
  | otherwise is =>
    rw [expandChain] at h
    exact .inside .otherwise h
  | branch condition is rest =>
    rw [expandChain] at h
    obtain h | ⟨b, r₁, hholds, h⟩ := error_of_bind h
    · cases condition with
      | defined symbol negated => cases h
      | argument param test =>
        cases h
        exact .here rfl
      | expr e =>
        obtain h | ⟨b, h⟩ := error_evaluate (error_of_map h)
        · exact .inside .condition h
        · exact .inl ⟨⟨n, f, x, .arguments [], r⟩, .tail (.single .condition) (.pastArgument h), .refl _⟩
    · cases b with
      | true => exact .inside (.taken hholds) h
      | false => exact .inside (.skipped hholds) h

theorem failsWithin_copies {s : Substitution} {body : List Item}
    (h : expandBody s x (itemAt config n f) body r₀ = .error d r) :
    FailsWithin config d r ⟨n, f, x, .copies s body, r₀⟩ := by
  cases body with
  | nil => cases h
  | cons i is =>
    rw [expandBody] at h
    obtain h | ⟨o, r₁, hcopy, h⟩ := error_of_bind h
    · exact .inl ⟨_, .refl, error_substitute h⟩
    · cases o with
      | none => exact .inside (.dropped hcopy) (error_of_map h)
      | some j =>
        obtain h | ⟨js, r₂, hj, h⟩ := error_of_bind h
        · refine .inside (.copied hcopy) ?_
          change expandItems _ _ _ [j] r₁ = _
          rw [expandItems, ← itemAt_eq]
          exact bind_of_error h
        · exact .inside (.pastCopy hcopy hj) (error_of_map h)

end Parts

/-! ### All the way -/

theorem failsWithin {p : Point} (h : Fails config d r p) (hd : d.fault ≠ .cancelled) :
    FailsWithin config d r p := by
  obtain ⟨n, f, x, part, r₀⟩ := p
  cases part with
  | arguments as => exact failsWithin_arguments h
  | items is => exact failsWithin_items hd h
  | chain c => exact failsWithin_chain h
  | copies s body => exact failsWithin_copies h

/-- **Where an expansion fails.** The tables that are left are those at one point of its course. -/
theorem reaches_of_fails (p : Point) (d : Diagnostic) (h : Fails config d r p)
    (hd : d.fault ≠ .cancelled) : Reaches config r p := by
  obtain hreaches | ⟨q, d', hstep, hq, hfault⟩ := failsWithin h hd
  · exact hreaches
  · obtain ⟨q', hcourse, hagree⟩ := reaches_of_fails q d' hq (hfault ▸ hd)
    exact ⟨q', .head hstep hcourse, hagree⟩
termination_by (p.levels, p.part.rank, p.part.size)
decreasing_by exact hstep.closer

end Course

end ControlFile.Expansion
