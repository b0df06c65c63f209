import ControlFile.Proofs.Expansion.Repetition

/-!
# Every expansion repeats

One lemma for each function of the expansion: it repeats, with at least as many levels below it.
What it makes of an expression is inert (`same_expandExpr`), and the items that it gives are settled
(`repeats_itemAt`).
-/

namespace ControlFile.Expansion

open Expander (belowAt itemAt_eq)

/-- The expression that stands as an item. -/
def exprOf? (i : Item) : Option Expr :=
  match i.kind with
  | .expr e => some e
  | _ => none

/-- Settled items, the same expressions among them both times, and unmarked macros. -/
structure Emits (config : Config) (t : Tables) (items items' : List Item) (t' : Tables) : Prop where
  settle : AllSettle config items t t'
  exprs : items'.map exprOf? = items.map exprOf?
  macros : t'.macros.Unmarked

namespace Emits

variable {config : Config} {t t' t'' : Tables} {items items' others others' : List Item}

theorem nil (h : t.macros.Unmarked) : Emits config t [] [] t := ⟨.nil, rfl, h⟩

theorem append (h : Emits config t items items' t') (h' : Emits config t' others others' t'') :
    Emits config t (items ++ others) (items' ++ others') t'' :=
  ⟨h.settle.append h'.settle, by rw [List.map_append, List.map_append, h.exprs, h'.exprs],
    h'.macros⟩

theorem moveTo (h : Emits config t items items' t') (range range' : Extent) :
    Emits config t (items.map fun i => { i with range })
      (items'.map fun i => { i with range := range' }) t' := by
  refine ⟨h.settle.moveTo range, ?_, h.macros⟩
  rw [List.map_map, List.map_map]
  exact h.exprs

theorem single {k : ItemKind} {range range' : Extent} (h : Settles config k t t')
    (hmacros : t'.macros.Unmarked) : Emits config t [⟨k, range⟩] [⟨k, range'⟩] t' :=
  ⟨.single h, rfl, hmacros⟩

end Emits

/-- An item is repeated by its twins, if macros and files may be nested `levels` deep or deeper. -/
def RepeatsAt (config : Config) (levels : Nat) : Prop :=
  ∀ more, levels ≤ more → ∀ frame frame' (i i' : Item) (t : Tables), i.kind.Twin i'.kind →
    t.macros.Unmarked →
    Repeats config t (itemAt config levels frame i) (itemAt config more frame' i') (Emits config t)

/-- Items are repeated one level deeper, if there is such a level. -/
def RepeatsBelow (config : Config) : Nat → Prop
  | 0 => True
  | levels + 1 => RepeatsAt config levels

/-! ### Growth -/

theorem yieldsBelow_belowAt (config : Config) (levels : Nat) :
    YieldsBelow (fun _ => True) (fun _ => True) (belowAt config levels) := by
  cases levels with
  | zero => rintro one ⟨⟩
  | succ levels =>
    rintro one ⟨⟩ P frame i hframe hi
    exact yields_itemAt (fun _ _ _ _ _ _ _ => trivial) levels hframe i hi

theorem sited_placeAt (config : Config) (levels : Nat) (frame : Frame) (range : Extent) :
    Sited (fun _ => True) (fun _ => True) (fun _ => True) (placeAt config levels frame range) :=
  ⟨fun _ _ _ _ _ _ _ => trivial, yieldsBelow_belowAt config levels, fun _ _ => trivial, trivial⟩

theorem grows_itemAt (config : Config) (levels : Nat) (frame : Frame) (i : Item) :
    Grows (itemAt config levels frame i) :=
  have hframe : Anchored (fun _ => True) (fun _ => True) frame := fun _ _ => trivial
  yields_itemAt (fun _ _ _ _ _ _ _ => trivial) levels hframe i
    (Item.everywhere_of_forall (fun _ => trivial) i)

/-! ### Calls -/

section Bodies

variable {config : Config} {one one' : Item → Expansion (List Item)}

theorem repeats_substitute {i : Item} (hi : i.Everywhere Item.Unmarked) (bound : Bindings)
    (u u' : String) (range range' : Extent) (t : Tables) :
    Repeats config t (substitute ⟨bound, u⟩ range i) (substitute ⟨bound, u'⟩ range' i)
      fun j j' t' => t' = t ∧ Item.Twin? j j' := by
  intro r r' j r₁ hr hr' hrun _
  unfold substitute at hrun
  cases hcopy : i.substitute ⟨bound, u⟩ r.tables.uniqueCount with
  | error fault n =>
    rw [hcopy] at hrun
    cases hrun
  | ok k n =>
    rw [hcopy] at hrun
    cases hrun
    obtain ⟨j', n', hcopy', htwin⟩ := Item.exists_twin_copy hi hcopy u' r'.tables.uniqueCount
    have hrun' : substitute ⟨bound, u'⟩ range' i r' =
        .ok j' { r' with tables := { r'.tables with uniqueCount := n' } } := by
      unfold substitute
      rw [hcopy']
    exact ⟨j', t, hr, ⟨_, hrun', hr', rfl⟩, rfl, htwin⟩

theorem repeats_expandBody (hgrows : ∀ i, Grows (one i))
    (hone : ∀ (i i' : Item) (t : Tables), i.kind.Twin i'.kind → t.macros.Unmarked →
      Repeats config t (one i) (one' i') (Emits config t))
    (bound : Bindings) (u u' : String) (range range' : Extent) {body : List Item}
    (hbody : ∀ i ∈ body, i.Everywhere Item.Unmarked) {t : Tables} (ht : t.macros.Unmarked) :
    Repeats config t (expandBody ⟨bound, u⟩ range one body) (expandBody ⟨bound, u'⟩ range' one' body)
      (Emits config t) := by
  induction body generalizing t with
  | nil => exact .pure (.nil ht)
  | cons i is ih =>
    have hyields : Grows (expandBody ⟨bound, u⟩ range one is) :=
      yields_expandBody ⟨bound, u⟩ range hgrows is
    have hrest : ∀ produced produced' (t' : Tables), Emits config t produced produced' t' →
        Repeats config t' (do
            let rest ← expandBody ⟨bound, u⟩ range one is
            return produced ++ rest)
          (do
            let rest ← expandBody ⟨bound, u'⟩ range' one' is
            return produced' ++ rest) (Emits config t) := fun produced produced' t' h =>
      .map (ih (fun j hj => hbody j (List.mem_cons_of_mem _ hj)) h.macros) fun _ _ _ h' => h.append h'
    have hgrowsRest : ∀ produced, Grows (do
        let rest ← expandBody ⟨bound, u⟩ range one is
        return produced ++ rest) := fun _ => .bind hyields fun _ => .pure _
    rw [expandBody, expandBody]
    refine .bind (repeats_substitute (hbody i (by simp)) bound u u' range range' t) (fun j => ?_) ?_
    · cases j with
      | none => exact .bind (.pure []) hgrowsRest
      | some j => exact .bind (hgrows j) hgrowsRest
    · rintro j j' _ ⟨rfl, hj⟩
      cases hj with
      | none => exact .bind (.pure (Q := Emits config _) (.nil ht)) hgrowsRest hrest
      | some hj => exact .bind (hone _ _ _ hj ht) hgrowsRest hrest

end Bodies

section Places

variable {config : Config} {t : Tables} {levels more : Nat} {frame frame' : Frame}
  {range range' : Extent}

theorem repeats_callWith (hbelow : RepeatsBelow config levels) (hmore : levels ≤ more)
    (ht : t.macros.Unmarked) (name : String) (count : Nat)
    {bind bind' : Signature → Expansion Bindings}
    (hbind : ∀ s, Same config t (bind s) (bind' s) fun _ => True) :
    Repeats config t (callWith (placeAt config levels frame range) name count bind)
      (callWith (placeAt config more frame' range') name count bind') (Emits config t) := by
  refine .tables_bind fun u u' hu hu' => ?_
  rw [hu.1, hu'.1]
  cases hentry : t.macros.get? name with
  | none => exact .failAt
  | some entry =>
    refine .ite (fun _ => .failAt) fun _ => ?_
    cases levels with
    | zero => exact .failAt
    | succ levels =>
      obtain ⟨more, rfl⟩ : ∃ n, more = n + 1 := ⟨more - 1, by omega⟩
      have hgrows := grows_itemAt config levels (frame.inCall range)
      have hbody := repeats_expandBody hgrows
        (hbelow more (by omega) (frame.inCall range) (frame'.inCall range'))
      have hyields := fun s => yields_expandBody s range hgrows entry.body
      refine .same_bind (hbind entry.signature) (fun bound => .bind .nextUnique fun u => .bind
        (.relocating (hyields _) trivial) fun _ => .pure _) fun bound _ => ?_
      refine .nextUnique_bind fun v v' => ?_
      exact .map (.relocating (hbody bound v v' range range' (ht name entry hentry) ht))
        fun _ _ _ h => h.moveTo range range'

theorem same_inlineWith (hbelow : RepeatsBelow config levels) (hmore : levels ≤ more)
    (ht : t.macros.Unmarked) (name : String) (count : Nat)
    {bind bind' : Signature → Expansion Bindings}
    (hbind : ∀ s, Same config t (bind s) (bind' s) fun _ => True) :
    Same config t (inlineWith (placeAt config levels frame range) name count bind)
      (inlineWith (placeAt config more frame' range') name count bind')
      (Inert t.macros expandExpr) := by
  refine .bind (repeats_callWith hbelow hmore ht name count hbind) (fun items => ?_) ?_
  · split
    · exact .pure _
    · exact .failAt trivial _
  · intro items items' t' h
    split
    · rename_i e place
      obtain ⟨rfl, he⟩ := h.settle.eq_of_expr
      obtain ⟨⟨kind, place'⟩, rfl⟩ : ∃ i, items' = [i] := by
        have hlength := congrArg List.length h.exprs
        exact List.length_eq_one_iff.1 (by simpa using hlength)
      have hexpr : exprOf? ⟨kind, place'⟩ = some e := by simpa [exprOf?] using h.exprs
      cases kind <;> cases hexpr
      exact .pure ⟨rfl, rfl, he.parenthesized⟩
    · exact .failAt

/-! ### Expressions -/

mutual

theorem same_expandExpr (hbelow : RepeatsBelow config levels) (hmore : levels ≤ more)
    (ht : t.macros.Unmarked) : ∀ e : Expr,
    Same config t (expandExpr (placeAt config levels frame range) e)
      (expandExpr (placeAt config more frame' range') e) (Inert t.macros expandExpr)
  | .literal value => by
    rw [expandExpr, expandExpr]
    exact .pure ⟨rfl, rfl, .literal value⟩
  | .ident name => by
    rw [expandExpr, expandExpr]
    refine .tables_bind fun u u' hu hu' => ?_
    rw [hu.contains_eq, hu'.contains_eq]
    refine .ite (fun _ => same_inlineWith hbelow hmore ht name 0
      fun _ => .pure ⟨rfl, rfl, trivial⟩) fun hname => .pure ⟨rfl, rfl, .ident (by simpa using hname)⟩
  | .call name arguments place => by
    rw [expandExpr, expandExpr]
    refine .tables_bind fun u u' hu hu' => ?_
    simp only [hu.1, hu'.1]
    refine .ite (fun _ => ?_) fun hname => ?_
    · exact same_inlineWith hbelow hmore ht name arguments.length fun s => same_bindArguments hbelow
        hmore ht s.byReference s.params [] arguments
    · refine .ite (fun _ => .failAt) fun hdeleted => ?_
      refine .same_map (same_expandArguments hbelow hmore ht arguments) fun as has => ?_
      exact .call (by simpa using hname) (by simpa using hdeleted) has place
  | .unary op operand => by
    rw [expandExpr, expandExpr]
    exact .same_map (same_expandExpr hbelow hmore ht operand) fun _ h => h.unary op
  | .binary op lhs rhs => by
    rw [expandExpr, expandExpr]
    refine .same_bind (same_expandExpr hbelow hmore ht lhs) (fun _ => .bind (yields_expandExpr
      (sited_placeAt ..) rhs) fun _ => .pure _) fun l hl => ?_
    exact .same_map (same_expandExpr hbelow hmore ht rhs) fun _ h => hl.binary h op
  | .paren inner => by
    rw [expandExpr, expandExpr]
    exact .same_map (same_expandExpr hbelow hmore ht inner) fun _ h => h.paren

theorem same_expandArguments (hbelow : RepeatsBelow config levels) (hmore : levels ≤ more)
    (ht : t.macros.Unmarked) : ∀ as : List Argument,
    Same config t (expandArguments (placeAt config levels frame range) as)
      (expandArguments (placeAt config more frame' range') as) (Inert t.macros expandArguments)
  | [] => by
    rw [expandArguments, expandArguments]
    exact .pure ⟨rfl, rfl, .nil⟩
  | a :: as => by
    rw [expandArguments, expandArguments]
    refine .same_bind (same_expandArgument hbelow hmore ht a) (fun _ => .bind (yields_expandArguments
      (sited_placeAt ..) as) fun _ => .pure _) fun b hb => ?_
    exact .same_map (same_expandArguments hbelow hmore ht as) fun _ h => hb.cons h

theorem same_bindArguments (hbelow : RepeatsBelow config levels) (hmore : levels ≤ more)
    (ht : t.macros.Unmarked) (byReference : Bool) (params : List MacroParam) (bound : Bindings) :
    ∀ as : List Argument,
    Same config t (bindArguments (placeAt config levels frame range) byReference params bound as)
      (bindArguments (placeAt config more frame' range') byReference params bound as) fun _ => True
  | [] => by
    rw [bindArguments, bindArguments]
    exact .pure ⟨rfl, rfl, trivial⟩
  | a :: as => by
    cases params with
    | nil =>
      rw [bindArguments, bindArguments]
      exact .pure ⟨rfl, rfl, trivial⟩
    | cons p ps =>
      rw [bindArguments, bindArguments]
      have hyields := fun b => yields_bindArguments (sited_placeAt config levels frame range)
        byReference ps (bindParam p b bound) as
      have hrest := fun b =>
        same_bindArguments hbelow hmore ht byReference ps (bindParam p b bound) as
      refine .ite (fun _ => ?_) fun _ => ?_
      · exact .same_bind (N := fun _ => True) (.pure ⟨rfl, rfl, trivial⟩) hyields fun b _ => hrest b
      · exact .same_bind (same_expandArgument hbelow hmore ht a) hyields fun b _ => hrest b

theorem same_expandArgument (hbelow : RepeatsBelow config levels) (hmore : levels ≤ more)
    (ht : t.macros.Unmarked) : ∀ a : Argument,
    Same config t (expandArgument (placeAt config levels frame range) a)
      (expandArgument (placeAt config more frame' range') a) (Inert t.macros expandArgument)
  | .hole => by
    rw [expandArgument, expandArgument]
    exact .pure ⟨rfl, rfl, .hole⟩
  | .expr e => by
    rw [expandArgument, expandArgument]
    exact .same_map (same_expandExpr hbelow hmore ht e) fun _ h => h.exprArgument
  | .parameter p => by
    rw [expandArgument, expandArgument]
    exact .same_map (same_expandParameter hbelow hmore ht p) fun _ h => h.parameterArgument
  | .equation e => by
    rw [expandArgument, expandArgument]
    exact .same_map (same_expandEquation hbelow hmore ht e) fun _ h => h.equationArgument

theorem same_expandParameter (hbelow : RepeatsBelow config levels) (hmore : levels ≤ more)
    (ht : t.macros.Unmarked) : ∀ p : Parameter,
    Same config t (expandParameter (placeAt config levels frame range) p)
      (expandParameter (placeAt config more frame' range') p) (Inert t.macros expandParameter)
  | ⟨mark, name, value⟩ => by
    rw [expandParameter, expandParameter]
    exact .same_map (same_expandValue hbelow hmore ht value) fun _ h => h.parameter mark name

theorem same_expandValue (hbelow : RepeatsBelow config levels) (hmore : levels ≤ more)
    (ht : t.macros.Unmarked) : ∀ w : Value,
    Same config t (expandValue (placeAt config levels frame range) w)
      (expandValue (placeAt config more frame' range') w) (Inert t.macros expandValue)
  | .absent => by
    rw [expandValue, expandValue]
    exact .pure ⟨rfl, rfl, .absent⟩
  | .literal value => by
    rw [expandValue, expandValue]
    exact .pure ⟨rfl, rfl, .literalValue value⟩
  | .equation e => by
    rw [expandValue, expandValue]
    exact .same_map (same_expandEquation hbelow hmore ht e) fun _ h => h.equationValue

theorem same_expandEquation (hbelow : RepeatsBelow config levels) (hmore : levels ≤ more)
    (ht : t.macros.Unmarked) : ∀ e : Equation,
    Same config t (expandEquation (placeAt config levels frame range) e)
      (expandEquation (placeAt config more frame' range') e) (Inert t.macros expandEquation)
  | ⟨op, body, u⟩ => by
    rw [expandEquation, expandEquation]
    exact .same_map (same_expandExpr hbelow hmore ht body) fun _ h => h.equation op u

end

/-- The value of a parameter is expanded, whatever its mark and its name are. -/
theorem repeats_expandParameter (hbelow : RepeatsBelow config levels) (hmore : levels ≤ more)
    (ht : t.macros.Unmarked) (mark mark' : Refinement) (n n' : Option String) (w : Value) :
    Repeats config t (expandParameter (placeAt config levels frame range) ⟨mark, n, w⟩)
      (expandParameter (placeAt config more frame' range') ⟨mark', n', w⟩) fun p p' t' =>
        t' = t ∧ Inert t.macros expandParameter p ∧ p = ⟨mark, n, p.value⟩ ∧
          p' = ⟨mark', n', p.value⟩ := by
  rw [expandParameter, expandParameter]
  refine .map (same_expandValue hbelow hmore ht w) ?_
  rintro x _ _ ⟨rfl, rfl, h⟩
  exact ⟨rfl, h.parameter mark n, rfl, rfl⟩

/-! ### Values and conditions -/

/-- An expression has the same value again. -/
theorem same_evaluate (hbelow : RepeatsBelow config levels) (hmore : levels ≤ more)
    (ht : t.macros.Unmarked) (e : Expr) :
    Same config t (evaluate (placeAt config levels frame range) e)
      (evaluate (placeAt config more frame' range') e) fun _ => True := by
  refine .same_bind (same_expandExpr hbelow hmore ht e) (fun _ => .bind .tables fun _ => .liftFault
    trivial _) fun expanded _ => ?_
  refine .tables_bind fun u u' hu hu' => ?_
  rw [hu.valueOf?_eq, hu'.valueOf?_eq]
  cases expanded.evaluate t.valueOf? with
  | error fault => exact .failAt
  | ok value => exact .pure ⟨rfl, rfl, trivial⟩

/-- **What has been evaluated can be evaluated again**, at the highest level. -/
theorem evaluates_evaluate (hbelow : RepeatsBelow config levels)
    (hlevels : levels ≤ config.options.maxDepth) (hmore : levels ≤ more) (ht : t.macros.Unmarked)
    (e : Expr) :
    Same config t (evaluate (placeAt config levels frame range) e)
      (evaluate (placeAt config more frame' range') e) (Evaluates config t e) := by
  intro r r' value r₁ hr hr' hrun hquiet
  -- The first run can be followed by any second one at any level that is high enough.
  have hagain : ∀ more, levels ≤ more → ∀ frame' range' r', r'.tables.Agree t →
      r₁.tables.Agree t ∧ Gives (evaluate (placeAt config more frame' range') e) r' value t := by
    intro more hmore frame' range' r' hr'
    have hsame : Same config t (evaluate (placeAt config levels frame range) e)
        (evaluate (placeAt config more frame' range') e) fun _ => True :=
      same_evaluate hbelow hmore ht e
    obtain ⟨_, _, hagree, hgives, rfl, rfl, -⟩ := hsame r r' value r₁ hr hr' hrun hquiet
    exact ⟨hagree, hgives⟩
  obtain ⟨hagree, hgives⟩ := hagain more hmore frame' range' r' hr'
  exact ⟨value, t, hagree, hgives, rfl, rfl, fun frame'' range'' r'' hr'' =>
    (hagain config.options.maxDepth hlevels frame'' range'' r'' hr'').2⟩

theorem same_holds (hbelow : RepeatsBelow config levels) (hmore : levels ≤ more)
    (ht : t.macros.Unmarked) (c : Condition) :
    Same config t (holds (placeAt config levels frame range) c)
      (holds (placeAt config more frame' range') c) fun _ => True := by
  cases c <;> rw [holds, holds]
  case expr e => exact .same_map (same_evaluate hbelow hmore ht e) fun _ _ => trivial
  case defined symbol negated =>
    refine .tables_bind fun u u' hu hu' => ?_
    rw [hu.isDefined_eq, hu'.isDefined_eq]
    exact .pure ⟨rfl, rfl, trivial⟩
  case argument param test => exact .failAt

/-! ### Statements and directives -/

theorem repeats_expandExprItem (hbelow : RepeatsBelow config levels) (hmore : levels ≤ more)
    (ht : t.macros.Unmarked) (e : Expr) :
    Repeats config t (expandExprItem (placeAt config levels frame range) e)
      (expandExprItem (placeAt config more frame' range') e) (Emits config t) := by
  have hkeep : Repeats config t
      (do return [(⟨.expr (← expandExpr (placeAt config levels frame range) e), range⟩ : Item)])
      (do return [(⟨.expr (← expandExpr (placeAt config more frame' range') e), range'⟩ : Item)])
      (Emits config t) := by
    refine .map (same_expandExpr hbelow hmore ht e) ?_
    rintro _ _ _ ⟨rfl, rfl, h⟩
    exact .single (.expr h) ht
  refine .tables_bind fun u u' hu hu' => ?_
  simp only [hu.1, hu'.1]
  cases e with
  | call name arguments place =>
    exact .ite (fun _ => repeats_callWith hbelow hmore ht name arguments.length fun s =>
      same_bindArguments hbelow hmore ht s.byReference s.params [] arguments) fun _ => hkeep
  | ident name =>
    exact .ite (fun _ => repeats_callWith hbelow hmore ht name 0
      fun _ => .pure ⟨rfl, rfl, trivial⟩) fun _ => hkeep
  | literal value => exact hkeep
  | unary op operand => exact hkeep
  | binary op lhs rhs => exact hkeep
  | paren inner => exact hkeep

theorem same_expandSiteStatement (hbelow : RepeatsBelow config levels) (hmore : levels ≤ more)
    (ht : t.macros.Unmarked) (s : SiteStatement) :
    Same config t (expandSiteStatement (placeAt config levels frame range) s)
      (expandSiteStatement (placeAt config more frame' range') s)
      (Inert t.macros expandSiteStatement) := by
  have hparam : ∀ p, Same config t (expandParameter (placeAt config levels frame range) p)
      (expandParameter (placeAt config more frame' range') p) (Inert t.macros expandParameter) :=
    same_expandParameter hbelow hmore ht
  have hyields := fun p => yields_expandParameter (sited_placeAt config levels frame range) p
  cases s <;> rw [expandSiteStatement, expandSiteStatement]
  case coordinate axis value => exact .same_map (hparam value) fun _ h => h.coordinate axis
  case scalar word value => exact .same_map (hparam value) fun _ h => h.scalar word
  case occupancy occ =>
    obtain ⟨atom, value, modifiers⟩ := occ
    have hmodifier : ∀ w, Same config t (expandModifier (placeAt config levels frame range) w)
        (expandModifier (placeAt config more frame' range') w) (Inert t.macros expandModifier) :=
      fun w => .same_map (hparam w.value) fun _ h => .modifier h
    have hgrows : ∀ w, Grows (expandModifier (placeAt config levels frame range) w) :=
      fun w => .bind (hyields w.value) fun _ => .pure _
    refine .same_bind (hparam value) (fun _ => .bind (.mapM hgrows modifiers) fun _ => .pure _)
      fun w hw => ?_
    exact .same_map (.mapM hgrows fun m _ => hmodifier m) fun ms hms => hw.occupancy hms atom
  case adps values =>
    exact .same_map (.adps hyields hparam values) fun _ h => .adps h

theorem repeats_independently {one one' : Item → Expansion (List Item)} (frame frame' : Frame)
    (hgrows : ∀ i, Grows (one i))
    (hone : ∀ (i i' : Item) (t : Tables), i.kind.Twin i'.kind → t.macros.Unmarked →
      Repeats config t (one i) (one' i') (Emits config t)) {items : List Item}
    (hitems : ∀ i ∈ items, i.Everywhere Item.Unmarked) {t : Tables} (ht : t.macros.Unmarked) :
    Repeats config t (independently frame one items) (independently frame' one' items)
      (Emits config t) := by
  induction items generalizing t with
  | nil => exact .pure (.nil ht)
  | cons i is ih =>
    have hyields : Grows (independently frame one is) :=
      yields_independently (fun _ _ => trivial) fun j _ => hgrows j
    rw [independently, independently]
    refine .bind (Q := Emits config t) ?_ (fun _ => .bind hyields fun _ => .pure _)
      fun produced produced' t' h => .map
        (ih (fun j hj => hitems j (List.mem_cons_of_mem _ hj)) h.macros) fun _ _ _ h' => h.append h'
    intro r r' produced r₁ hr hr' hrun hquiet
    cases hi : one i r with
    | ok kept r₂ =>
      simp only [hi] at hrun
      cases hrun
      have htwin := ItemKind.Twin.refl i.kind (Item.everywhere_iff.1 (hitems i (by simp))).2
      obtain ⟨kept', t', hagree, ⟨r₁', hi', hagree', hproblems⟩, h⟩ :=
        hone i i t htwin ht r r' _ _ hr hr' hi hquiet
      exact ⟨kept', t', hagree, ⟨r₁', by simp only [hi'], hagree', hproblems⟩, h⟩
    | error d r₂ =>
      -- An item that fails is reported, so the run is not quiet any more.
      simp only [hi] at hrun
      split at hrun
      · cases hrun
      · cases hrun
        exact absurd hquiet.problems (by simp)

theorem repeats_includeFile (hbelow : RepeatsBelow config levels) (hmore : levels ≤ more)
    (ht : t.macros.Unmarked) (path : String) :
    Repeats config t (includeFile (placeAt config levels frame range) path)
      (includeFile (placeAt config more frame' range') path) (Emits config t) := by
  unfold includeFile
  cases levels with
  | zero => exact .failAt
  | succ levels =>
    obtain ⟨more, rfl⟩ : ∃ n, more = n + 1 := ⟨more - 1, by omega⟩
    have hyields : ∀ frame range items,
        Grows (relocating range (independently frame (itemAt config levels frame) items)) :=
      fun frame range items => .relocating (yields_independently (fun _ _ => trivial)
        fun j _ => grows_itemAt config levels frame j) trivial
    cases htext : config.resolver path with
    | none =>
      refine .ask_bind ?_ fun _ => ?_
      · rw [htext]
        exact .failAt trivial _
      · rw [htext]
        exact .failAt
    | some text =>
      refine .ask_bind ?_ fun hunmarked => ?_
      · rw [htext]
        exact .bind (.reportParsed fun _ _ => trivial) fun _ => hyields _ _ _
      · rw [htext]
        refine .reportParsed_bind (hyields _ _ _) (.relocating ?_)
        exact repeats_independently _ _ (grows_itemAt config levels _)
          (hbelow more (by omega) _ _) (Parsed.items_unmarked (hunmarked text htext)) ht

theorem repeats_expandDirective (hbelow : RepeatsBelow config levels)
    (hlevels : levels ≤ config.options.maxDepth) (hmore : levels ≤ more) (ht : t.macros.Unmarked)
    (d : Directive) :
    Repeats config t (expandDirective (placeAt config levels frame range) d)
      (expandDirective (placeAt config more frame' range') d) (Emits config t) := by
  cases d <;> rw [expandDirective, expandDirective]
  case includeFile path => exact repeats_includeFile hbelow hmore ht path
  case out e =>
    refine .map (same_evaluate hbelow hmore ht e) ?_
    rintro _ value _ ⟨rfl, rfl, -⟩
    exact .single (.expr (.literal _)) ht
  case define name => exact .modifyTables_bind (.define · name) (.pure (.single .define ht))
  case undef name => exact .modifyTables_bind (.undef · name) (.pure (.single .undef ht))
  case deleteMacros names =>
    exact .modifyTables_bind (.deleteMacros · names)
      (.pure (.single .deleteMacros (ht.deleteAll names)))
  case prm name e =>
    refine .same_bind (evaluates_evaluate hbelow hlevels hmore ht e.body) (fun _ => .bind (.modifyTables
      _) fun _ => .pure _) fun value hvalue => ?_
    exact .modifyTables_bind (.setVariable · name value) (.pure (.single (.prm hvalue) ht))
  case seed => exact .pure (.single .seed ht)

/-! ### Items -/

section Items

theorem grows_expandItems (config : Config) (levels : Nat) (frame : Frame) (is : List Item) :
    Grows (expandItems config (belowAt config levels) frame is) :=
  have hframe : Anchored (fun _ => True) (fun _ => True) frame := fun _ _ => trivial
  yields_expandItems (fun _ _ _ _ _ _ _ => trivial) (yieldsBelow_belowAt config levels) hframe is
    (Item.allEverywhere_of_forall (fun _ => trivial) is)

theorem grows_expandChain (config : Config) (levels : Nat) (frame : Frame) (range : Extent)
    (c : Chain) : Grows (expandChain (placeAt config levels frame range) c) :=
  have hframe : Anchored (fun _ => True) (fun _ => True) frame := fun _ _ => trivial
  yields_expandChain (fun _ _ _ _ _ _ _ => trivial) (yieldsBelow_belowAt config levels) hframe
    trivial c (Chain.everywhere_of_forall (fun _ => trivial) c)

/-- Kinds without items in them. -/
theorem repeats_expandKind_leaf (hbelow : RepeatsBelow config levels)
    (hlevels : levels ≤ config.options.maxDepth) (hmore : levels ≤ more) (ht : t.macros.Unmarked)
    {k : ItemKind} (hk : k.IsLeaf) :
    Repeats config t (expandKind (placeAt config levels frame range) k)
      (expandKind (placeAt config more frame' range') k) (Emits config t) := by
  have hequation : ∀ e, Same config t (expandEquation (placeAt config levels frame range) e)
      (expandEquation (placeAt config more frame' range') e) (Inert t.macros expandEquation) :=
    same_expandEquation hbelow hmore ht
  have hparam : ∀ p, Same config t (expandParameter (placeAt config levels frame range) p)
      (expandParameter (placeAt config more frame' range') p) (Inert t.macros expandParameter) :=
    same_expandParameter hbelow hmore ht
  cases k with
  | site | macroDecl | conditional | block => exact hk.elim
  | bodyOp op param =>
    rw [expandKind]
    exact .failAt
  | directive d =>
    rw [expandKind, expandKind]
    exact repeats_expandDirective hbelow hlevels hmore ht d
  | expr e =>
    rw [expandKind, expandKind]
    exact repeats_expandExprItem hbelow hmore ht e
  | parameter p =>
    rw [expandKind, expandKind]
    exact .same_bind (hparam p) (fun _ => .pure _) fun p hp => .pure (.single (.parameter hp) ht)
  | equation e =>
    rw [expandKind, expandKind]
    exact .same_bind (hequation e) (fun _ => .pure _) fun e he => .pure (.single (.equation he) ht)
  | assignment name e =>
    rw [expandKind, expandKind]
    exact .same_bind (hequation e) (fun _ => .pure _) fun e he => .pure (.single (.assignment he) ht)
  | keyword word e =>
    cases e with
    | none =>
      rw [expandKind, expandKind]
      exact .pure (.single .keyword ht)
    | some e =>
      rw [expandKind, expandKind]
      exact .same_bind (hequation e) (fun _ => .pure _)
        fun e he => .pure (.single (.keywordEquation he) ht)
  | existing a =>
    rw [expandKind, expandKind]
    refine .tables_bind fun u u' hu hu' => ?_
    rw [hu.isDeclared_eq, hu'.isDeclared_eq]
    refine .ite (fun hdeclared => ?_) fun _ => ?_
    · refine .same_bind (hequation a.equation) (fun _ => .pure _) fun e he => ?_
      exact .pure (.single (.existing hdeclared he) ht)
    · exact .failAt
  | siteStatement s =>
    rw [expandKind, expandKind]
    exact .same_bind (same_expandSiteStatement hbelow hmore ht s) (fun _ => .pure _)
      fun s hs => .pure (.single (.siteStatement hs) ht)
  | declaration scope p =>
    obtain ⟨mark, n, w⟩ := p
    rw [expandKind, expandKind]
    have hkeep : ∀ t', t'.macros = t.macros → t' = declaring t n → Repeats config t'
        (do return [(⟨.declaration scope
          (← expandParameter (placeAt config levels frame range) ⟨mark, n, w⟩), range⟩ : Item)])
        (do return [(⟨.declaration scope
          (← expandParameter (placeAt config more frame' range') ⟨mark, n, w⟩), range'⟩ : Item)])
        (Emits config t) := by
      intro t' hmacros hdeclaring
      refine .bind (repeats_expandParameter hbelow hmore (hmacros ▸ ht) mark mark n n w)
        (fun _ => .pure _) ?_
      rintro p _ _ ⟨rfl, hp, hname, rfl⟩
      have hn : p.name = n := by rw [hname]
      have hsettles : Settles config (.declaration scope p) t _ := .declaration (hmacros ▸ hp)
      rw [hn, ← hdeclaring] at hsettles
      exact .pure ⟨.single hsettles, rfl, hmacros ▸ ht⟩
    cases n with
    | none => exact hkeep t rfl rfl
    | some name => exact .modifyTables_bind (.declare · name) (hkeep _ rfl rfl)

mutual

theorem repeats_expandKind (hwatch : config.watch = .never) (hbelow : RepeatsBelow config levels)
    (hlevels : levels ≤ config.options.maxDepth) (hmore : levels ≤ more) {frame frame' : Frame}
    {range range' : Extent} {k k' : ItemKind} {t : Tables} : k.Twin k' → t.macros.Unmarked →
    Repeats config t (expandKind (placeAt config levels frame range) k)
      (expandKind (placeAt config more frame' range') k') (Emits config t)
  | .leaf hk, ht => repeats_expandKind_leaf hbelow hlevels hmore ht hk
  | .parameter, ht => by
    rw [expandKind, expandKind]
    refine .bind (repeats_expandParameter hbelow hmore ht _ _ _ _ _) (fun _ => .pure _) ?_
    rintro p _ _ ⟨rfl, hp, -, rfl⟩
    exact .pure ⟨.single (.parameter hp), rfl, ht⟩
  | .macroDecl hbody, ht => by
    rw [expandKind, expandKind]
    exact .modifyTables_bind (.registerMacros · _ _)
      (.pure (.single .macroDecl (ht.register _ hbody)))
  | .site h, ht => by
    rw [expandKind, expandKind]
    refine .map (repeats_expandItems hwatch hbelow hlevels hmore h ht) fun _ _ _ h => ?_
    exact ⟨.single (.site h.settle), rfl, h.macros⟩
  | .conditional h, ht => by
    rw [expandKind, expandKind]
    exact repeats_expandChain hwatch hbelow hlevels hmore h ht
  | .block h, ht => by
    rw [expandKind, expandKind]
    exact repeats_expandItems hwatch hbelow hlevels hmore h ht

theorem repeats_expandChain (hwatch : config.watch = .never) (hbelow : RepeatsBelow config levels)
    (hlevels : levels ≤ config.options.maxDepth) (hmore : levels ≤ more) {frame frame' : Frame}
    {range range' : Extent} {c c' : Chain} {t : Tables} : c.Twin c' → t.macros.Unmarked →
    Repeats config t (expandChain (placeAt config levels frame range) c)
      (expandChain (placeAt config more frame' range') c') (Emits config t)
  | .done, ht => by
    rw [expandChain, expandChain]
    exact .pure (.nil ht)
  | .otherwise h, ht => by
    rw [expandChain, expandChain]
    exact repeats_expandItems hwatch hbelow hlevels hmore h ht
  | .branch h hrest, ht => by
    rw [expandChain, expandChain]
    refine .same_bind (same_holds hbelow hmore ht _) (fun _ => .ite (grows_expandItems _ _ _ _)
      (grows_expandChain _ _ _ _ _)) fun b _ => ?_
    refine .ite (fun _ => ?_) fun _ => ?_
    · exact repeats_expandItems hwatch hbelow hlevels hmore h ht
    · exact repeats_expandChain hwatch hbelow hlevels hmore hrest ht

theorem repeats_expandItems (hwatch : config.watch = .never) (hbelow : RepeatsBelow config levels)
    (hlevels : levels ≤ config.options.maxDepth) (hmore : levels ≤ more) {frame frame' : Frame}
    {is is' : List Item} {t : Tables} : Item.Twins is is' → t.macros.Unmarked →
    Repeats config t (expandItems config (belowAt config levels) frame is)
      (expandItems config (belowAt config more) frame' is') (Emits config t)
  | .nil, ht => by
    rw [expandItems, expandItems]
    exact .pure (.nil ht)
  | @Item.Twins.cons ⟨kind, range⟩ ⟨kind', range'⟩ is is' h his, ht => by
    rw [expandItems, expandItems, expandItem, expandItem]
    refine .bind (Q := Emits config t) (.checkCancelled_bind hwatch (repeats_expandKind hwatch hbelow
      hlevels hmore h ht)) (fun _ => .bind (grows_expandItems _ _ _ _) fun _ => .pure _)
      fun produced produced' t' h => ?_
    exact .map (repeats_expandItems hwatch hbelow hlevels hmore his h.macros)
      fun _ _ _ h' => h.append h'

end

theorem repeats_expandItem (hwatch : config.watch = .never) (hbelow : RepeatsBelow config levels)
    (hlevels : levels ≤ config.options.maxDepth) (hmore : levels ≤ more) {i i' : Item}
    (hi : i.kind.Twin i'.kind) (ht : t.macros.Unmarked) :
    Repeats config t (expandItem config (belowAt config levels) frame i)
      (expandItem config (belowAt config more) frame' i') (Emits config t) := by
  obtain ⟨kind, range⟩ := i
  obtain ⟨kind', range'⟩ := i'
  rw [expandItem, expandItem]
  exact .checkCancelled_bind hwatch (repeats_expandKind hwatch hbelow hlevels hmore hi ht)

end Items

end Places

/-- **Every item repeats**, however deep macros and files are nested. -/
theorem repeats_itemAt {config : Config} (hwatch : config.watch = .never) (levels : Nat)
    (hlevels : levels ≤ config.options.maxDepth) : RepeatsAt config levels := by
  induction levels with
  | zero =>
    intro more hmore frame frame' i i' t hi ht
    rw [itemAt_eq, itemAt_eq]
    have hbelow : RepeatsBelow config 0 := trivial
    exact repeats_expandItem hwatch hbelow hlevels hmore hi ht
  | succ levels ih =>
    intro more hmore frame frame' i i' t hi ht
    rw [itemAt_eq, itemAt_eq]
    have hbelow : RepeatsBelow config (levels + 1) := ih (by omega)
    exact repeats_expandItem hwatch hbelow hlevels hmore hi ht

end ControlFile.Expansion
