import ControlFile.Item.Parser
import ControlFile.Proofs.Expr.Lookahead

/-!
# Reading without a report

`ItemParser.Runs p c a c'`: where reading stands at `c`, and nothing has been reported, `p` gives `a`, stops
at `c'` and reports nothing.

What has been reported stays reported (`Retains`).  So if a sequence of steps reports nothing, each of
its steps reports nothing (`Runs.of_bind`).
-/

namespace ControlFile

theorem Reading.eq_of_reported {r : Reading} (h : r.reported = []) : r = ⟨r.cursor, []⟩ := by
  cases r
  cases h
  rfl

namespace ItemParser

variable {α β : Type}

/-! ### What has been reported stays reported -/

/-- If there is no report behind the step, there was none before it. -/
def Retains (p : ItemParser α) : Prop :=
  ∀ r a r', p r = .ok a r' → r'.reported = [] → r.reported = []

/-- The same for what cannot fail. -/
def RetainsAll (p : StateM Reading α) : Prop := ∀ r, (p r).2.reported = [] → r.reported = []

namespace Retains

variable {p : ItemParser α} {f : α → ItemParser β}

theorem pure (a : α) : Retains (Pure.pure a) := by
  rintro _ _ _ ⟨⟩ h
  exact h

theorem throw (d : Diagnostic) : Retains (throw d : ItemParser α) := by
  rintro _ _ _ ⟨⟩

theorem report (d : Diagnostic) : Retains (report d) := by
  rintro r _ _ ⟨⟩ h
  simp [Reading.report] at h

theorem advance : Retains advance := by
  rintro _ _ _ ⟨⟩ h
  exact h

theorem cursor : Retains cursor := by
  rintro _ _ _ ⟨⟩ h
  exact h

theorem bind (h : Retains p) (hf : ∀ a, Retains (f a)) : Retains (p >>= f) := by
  intro r b r' hrun hquiet
  obtain ⟨a, r₁, ha, hb⟩ : ∃ a r₁, p r = .ok a r₁ ∧ f a r₁ = .ok b r' := by
    cases hp : p r with
    | ok a r₁ => exact ⟨a, r₁, rfl, by simpa only [Bind.bind, EStateM.bind, hp] using hrun⟩
    | error d r₁ => simp [Bind.bind, EStateM.bind, hp] at hrun
  exact h r a r₁ ha (hf a r₁ b r' hb hquiet)

theorem ite {c : Prop} [Decidable c] {q : ItemParser α} (h : Retains p) (h' : Retains q) :
    Retains (if c then p else q) := by
  split
  · exact h
  · exact h'

/-- A parser of tokens reports nothing. -/
theorem lift (p : Parser α) : Retains (liftM p) := by
  intro r a r' hrun hquiet
  cases hp : p r.cursor with
  | ok b c =>
    simp only [liftM, monadLift, MonadLift.monadLift, hp] at hrun
    cases hrun
    exact hquiet
  | error d c =>
    simp only [liftM, monadLift, MonadLift.monadLift, hp] at hrun
    cases hrun

theorem of_all {p : StateM Reading α} (h : RetainsAll p) : Retains (liftM p) := by
  rintro r _ _ ⟨⟩ hquiet
  exact h r hquiet

end Retains

namespace RetainsAll

variable {p : StateM Reading α} {f : α → StateM Reading β}

theorem pure (a : α) : RetainsAll (Pure.pure a) := fun _ h => h

theorem get_bind {f : Reading → StateM Reading β} (h : ∀ r, RetainsAll (f r)) :
    RetainsAll (get >>= f) := fun r => h r r

theorem bind (h : RetainsAll p) (hf : ∀ a, RetainsAll (f a)) : RetainsAll (p >>= f) :=
  fun r hquiet => h r (hf _ _ hquiet)

theorem ite {c : Prop} [Decidable c] {q : StateM Reading α} (h : RetainsAll p) (h' : RetainsAll q) :
    RetainsAll (if c then p else q) := by
  split
  · exact h
  · exact h'

end RetainsAll

section Sequences

variable {one : ItemParser (Option Item)} (hone : Retains one)
include hone

theorem retains_attempt : RetainsAll (attempt one) := by
  intro r hquiet
  unfold attempt at hquiet
  cases hrun : one r with
  | ok o r' =>
    rw [hrun] at hquiet
    exact hone r o r' hrun hquiet
  | error d r' =>
    rw [hrun] at hquiet
    simp [Reading.report] at hquiet

theorem retains_items (stop : TokenKind → Bool) (limit : Nat) : RetainsAll (items one stop limit) := by
  induction limit with
  | zero => exact .pure _
  | succ limit ih =>
    refine .get_bind fun before => ?_
    split
    · exact .pure _
    · refine .ite (.pure _) (.bind (retains_attempt hone) fun o => ?_)
      refine .get_bind fun r => ?_
      have hrest : RetainsAll (do return o.toList ++ (← items one stop limit)) :=
        ih.bind fun _ => .pure _
      exact .ite (.bind (fun _ h => h) fun _ => hrest) hrest

theorem retains_allItems (stop : TokenKind → Bool) : RetainsAll (allItems one stop) :=
  .get_bind fun _ => retains_items hone stop _

theorem retains_members (limit : Nat) : RetainsAll (members one limit) := by
  induction limit with
  | zero => exact .pure _
  | succ limit ih =>
    refine .get_bind fun before => ?_
    refine .ite ?_ ?_
    · refine .bind (retains_attempt hone) fun o => ?_
      refine .get_bind fun r => ?_
      exact .ite (.pure _) (ih.bind fun _ => .pure _)
    · exact .pure _

theorem retains_site : Retains (site one) := by
  refine .bind .cursor fun c => ?_
  refine .bind .advance fun _ => ?_
  refine .bind (.lift _) fun n => ?_
  cases n with
  | none => exact .throw _
  | some n => exact .bind .cursor fun c => .bind (.of_all (retains_members hone _)) fun _ => .pure _

end Sequences

theorem retains_located {kind : ItemParser (Option ItemKind)} (h : Retains kind) :
    Retains (located kind) := by
  refine .bind .cursor fun c => h.bind fun o => ?_
  cases o with
  | none => exact .pure _
  | some k => exact .bind .cursor fun _ => .pure _

section Bodies

variable {body : StateM Reading (List Item)} (hbody : RetainsAll body)

theorem retains_closeChain (opening : Opening) : Retains (closeChain opening) := by
  refine .bind .cursor fun c => ?_
  split
  · exact .ite .advance (.bind (.report _) fun _ => .advance)
  · exact .ite (.pure _) (.report _)
  · exact .report _

include hbody

theorem retains_laterBranches (opening : Opening) (expr : Parser Expr) (limit : Nat) :
    Retains (laterBranches opening expr body limit) := by
  have hclose : Retains (do closeChain opening; return .done : ItemParser Chain) :=
    (retains_closeChain opening).bind fun _ => .pure _
  induction limit with
  | zero => exact .pure _
  | succ limit ih =>
    refine .bind .cursor fun c => ?_
    split
    · refine .ite ?_ ?_
      · refine .bind .advance fun _ => ?_
        refine .bind (.lift _) fun _ => ?_
        refine .bind (.of_all hbody) fun _ => ?_
        exact ih.bind fun _ => .pure _
      · exact hclose
    · refine .ite ?_ ?_
      · refine .bind .advance fun _ => ?_
        refine .bind (.of_all hbody) fun _ => ?_
        exact (retains_closeChain opening).bind fun _ => .pure _
      · exact hclose
    · exact hclose

theorem retains_conditional (family : Family) (word : DirectiveWord) (expr : Parser Expr) :
    Retains (conditional family word expr body) := by
  refine .bind .cursor fun _ => ?_
  refine .bind (.lift _) fun _ => ?_
  refine .bind (.of_all hbody) fun _ => ?_
  refine .bind .cursor fun _ => ?_
  exact (retains_laterBranches hbody _ expr _).bind fun _ => .pure _

theorem retains_block : Retains (block body) := by
  refine .bind .cursor fun _ => ?_
  refine .bind .advance fun _ => ?_
  refine .bind (.of_all hbody) fun _ => ?_
  refine .bind (.lift _) fun _ => ?_
  exact .ite (.pure _) (.throw _)

theorem retains_macroDecl (isList : Bool) : Retains (macroDecl isList body) := by
  have hrest : ∀ signatures, Retains (do
      let opening := (← cursor).here
      Parser.expect (.mark .openBrace) .bodyStart
      let items ← body
      if !(← takeIf (.mark .closeBrace)) then report ⟨.unclosedMacro, opening⟩
      return .macroDecl isList signatures items : ItemParser ItemKind) := by
    intro signatures
    refine .bind .cursor fun opening => .bind (.lift _) fun _ => ?_
    refine .bind (.of_all hbody) fun items => .bind (.lift _) fun closed => ?_
    exact .ite (.bind (.report _) fun _ => .pure _) (.pure _)
  refine .bind .advance fun _ => ?_
  split
  · exact .bind .cursor fun _ => .bind (.lift _) hrest
  · exact .bind (.lift _) fun _ => .bind (.pure _) hrest

end Bodies

theorem retains_some {p : ItemParser α} (f : α → ItemKind) (h : Retains p) :
    Retains (do return some (f (← p)) : ItemParser (Option ItemKind)) := h.bind fun _ => .pure _

theorem retains_nested {deeper : Deeper} {parse : (Scope → ItemParser (Option Item)) → ItemParser α}
    (h : ∀ next ∈ deeper, Retains (parse next)) : Retains (nested deeper parse) := by
  cases deeper with
  | none => exact .lift _
  | some next => exact h next rfl

theorem retains_unexpected (scope : Scope) : Retains (unexpected scope) := by
  refine .bind .cursor fun _ => ?_
  refine .bind (.report _) fun _ => ?_
  exact .bind .advance fun _ => .pure _

section Level

variable (v : Vocabulary) (levels : Nat) {deeper : Deeper} (scope : Scope)
variable (hdeeper : ∀ next ∈ deeper, ∀ scope, Retains (next scope))
include hdeeper

theorem retains_directiveAnywhere (word : DirectiveWord) :
    Retains (directiveAnywhere v levels deeper scope word) := by
  have hconditional : ∀ family, Retains (nested deeper fun next => do
      return some (← conditional family word (Parser.expression v (levels - 1) true)
        (allItems (next scope) endsBranch))) := fun family =>
    retains_nested fun next hnext => retains_some id
      (retains_conditional (retains_allItems (hdeeper next hnext scope) _) family word _)
  unfold directiveAnywhere
  split
  · exact retains_some _ (.lift _)
  · split
    · exact hconditional _
    · exact hconditional _
    · exact hconditional _
    · exact hconditional _
    · exact hconditional _
    · exact .bind .advance fun _ => retains_some _ (.lift _)
    · exact retains_some _ (.lift _)
    · refine .bind .cursor fun _ => ?_
      refine .bind (.report _) fun _ => ?_
      exact .bind .advance fun _ => .pure _
    · exact retains_unexpected scope

theorem retains_directive (word : DirectiveWord) : Retains (directive v levels deeper scope word) := by
  refine .bind .cursor fun _ => ?_
  refine (retains_directiveAnywhere v levels scope hdeeper word).bind fun _ => ?_
  exact .ite (.bind (.report _) fun _ => .pure _) (.pure _)

theorem retains_macroItem (isList : Bool) : Retains (macroItem deeper scope isList) := by
  refine .bind .cursor fun _ => ?_
  refine (retains_nested fun next hnext => retains_macroDecl (retains_allItems (hdeeper next hnext _) _)
    isList).bind fun _ => ?_
  exact .ite (.bind (.report _) fun _ => .pure _) (.pure _)

theorem retains_leaf (t : Token) : Retains (leaf v levels deeper scope t) := by
  unfold leaf
  dsimp only
  split
  · exact retains_some id (.lift _)
  · exact retains_some id (.lift _)
  · exact retains_some id (.lift _)
  · exact retains_macroItem scope hdeeper false
  · exact retains_macroItem scope hdeeper true
  · exact retains_directive v levels scope hdeeper _
  · exact retains_some _ (.lift _)
  · exact retains_some _ (.lift _)
  · exact retains_some _ (.lift _)
  · exact retains_some id (.lift _)
  · exact .bind (.report _) fun _ => .bind .advance fun _ => .pure _
  · exact .ite (retains_nested fun next hnext => retains_some id
      (retains_block (retains_allItems (hdeeper next hnext _) _)))
      (.ite (retains_some _ (.lift _)) (retains_unexpected scope))

/-- A member of a site, at the current token. -/
theorem retains_member : Retains (located do
    match (← cursor).peek? 0 with
    | none => return none
    | some t => leaf v levels deeper { scope with body := .siteBody } t) := by
  refine retains_located (.bind .cursor fun c => ?_)
  split
  · exact .pure _
  · exact retains_leaf v levels _ hdeeper _

theorem retains_itemKind : Retains (itemKind v levels deeper scope) := by
  refine .bind .cursor fun c => ?_
  split
  · exact retains_unexpected scope
  · exact .ite (retains_some id (retains_site (retains_member v levels scope hdeeper)))
      (retains_leaf v levels scope hdeeper _)

end Level

/-- **What has been reported before an item stays reported.** -/
theorem retains_item (v : Vocabulary) (levels : Nat) (scope : Scope) :
    Retains (item v levels scope) := by
  induction levels generalizing scope with
  | zero => exact retains_located (retains_itemKind v 0 scope (by rintro _ ⟨⟩))
  | succ levels ih =>
    refine retains_located (retains_itemKind v (levels + 1) scope ?_)
    rintro next ⟨⟩
    exact ih

/-! ### Runs without a report -/

/-- From `c` on `p` gives `a`, stops at `c'` and reports nothing. -/
def Runs (p : ItemParser α) (c : Cursor) (a : α) (c' : Cursor) : Prop :=
  p ⟨c, []⟩ = .ok a ⟨c', []⟩

/-- The same for what cannot fail. -/
def RunsAll (p : StateM Reading α) (c : Cursor) (a : α) (c' : Cursor) : Prop :=
  p ⟨c, []⟩ = (a, ⟨c', []⟩)

variable {c c' c'' : Cursor} {a : α} {b : β}

theorem Runs.bind {p : ItemParser α} {f : α → ItemParser β} (h : Runs p c a c')
    (h' : Runs (f a) c' b c'') : Runs (p >>= f) c b c'' := by
  unfold Runs at h h' ⊢
  rw [← h']
  simp only [Bind.bind, EStateM.bind, h]

theorem Runs.of_bind {p : ItemParser α} {f : α → ItemParser β} (h : Runs (p >>= f) c b c'')
    (hf : ∀ a, Retains (f a)) : ∃ a c', Runs p c a c' ∧ Runs (f a) c' b c'' := by
  unfold Runs at h
  cases hp : p ⟨c, []⟩ with
  | ok a r =>
    simp only [Bind.bind, EStateM.bind, hp] at h
    have hquiet : r.reported = [] := hf a r b _ h rfl
    rw [Reading.eq_of_reported hquiet] at hp h
    exact ⟨a, r.cursor, hp, h⟩
  | error d r => simp [Bind.bind, EStateM.bind, hp] at h

theorem RunsAll.of_bind {p : StateM Reading α} {f : α → StateM Reading β}
    (h : RunsAll (p >>= f) c b c'') (hf : ∀ a, RetainsAll (f a)) :
    ∃ a c', RunsAll p c a c' ∧ RunsAll (f a) c' b c'' := by
  have hrun : f (p ⟨c, []⟩).1 (p ⟨c, []⟩).2 = (b, ⟨c'', []⟩) := h
  have hquiet : (p ⟨c, []⟩).2.reported = [] := hf _ _ (by rw [hrun])
  have hr := Reading.eq_of_reported hquiet
  rw [hr] at hrun
  exact ⟨_, _, Prod.ext rfl hr, hrun⟩

theorem runs_lift {p : Parser α} : Runs (liftM p) c a c' ↔ p c = .ok a c' := by
  unfold Runs
  cases hp : p c with
  | ok b d => simp [liftM, monadLift, MonadLift.monadLift, hp]
  | error d e => simp [liftM, monadLift, MonadLift.monadLift, hp]

theorem runs_liftAll {p : StateM Reading α} : Runs (liftM p) c a c' ↔ RunsAll p c a c' := by
  unfold Runs RunsAll
  change EStateM.Result.ok (p ⟨c, []⟩).1 (p ⟨c, []⟩).2 = _ ↔ _
  rw [EStateM.Result.ok.injEq, Prod.ext_iff]

theorem runs_cursor_bind {f : Cursor → ItemParser β} : Runs (cursor >>= f) c b c' ↔ Runs (f c) c b c' :=
  Iff.rfl

theorem runs_advance_bind {f : Unit → ItemParser β} :
    Runs (advance >>= f) c b c' ↔ Runs (f ()) c.advance b c' := Iff.rfl

/-- A step that reports does not run without a report. -/
theorem not_runs_report {d : Diagnostic} {f : Unit → ItemParser β} (hf : Retains (f ())) :
    ¬Runs (report d >>= f) c b c' := by
  intro h
  obtain ⟨⟨⟩, c₁, h₁, -⟩ := h.of_bind fun _ => hf
  cases h₁

theorem runs_attempt {one : ItemParser (Option Item)} {o : Option Item} :
    RunsAll (attempt one) c o c' ↔ Runs one c o c' := by
  unfold RunsAll Runs attempt
  cases hrun : one ⟨c, []⟩ with
  | ok o' r' =>
    exact ⟨fun h => by cases h; rfl, fun h => by cases h; rfl⟩
  | error d r' =>
    refine ⟨fun h => ?_, fun h => by cases h⟩
    have hreported : r'.reported ++ [d] = [] :=
      congrArg (fun x : Option Item × Reading => x.2.reported) h
    simp at hreported

end ItemParser

end ControlFile
