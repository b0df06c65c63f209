import ControlFile.Proofs.Expansion.Failure
import ControlFile.Proofs.Macro.Names

/-!
# Items that leave the tables alone

If no name in an item is that of a macro, all that is expanded in it is written there.  Expressions leave
the tables as they are then, whether they fail or not (`leavesTables_expandArguments`), and so do items
in which nothing is defined, set, declared or included (`leavesTables_expandItem`).
-/

namespace ControlFile

/-- The item changes no tables by itself. -/
def ItemKind.IsPassive : ItemKind → Prop
  | .directive (.define _) | .directive (.undef _) | .directive (.deleteMacros _)
  | .directive (.prm ..) | .directive (.includeFile _) | .macroDecl .. => False
  | .declaration _ p => p.name = none
  | _ => True

theorem ItemKind.IsPassive.declares {k : ItemKind} (h : k.IsPassive) : k.declares = none := by
  cases k with
  | declaration scope p => exact h
  | _ => rfl

namespace Expansion

/-! ### Steps that leave the tables as they are -/

/-- None of the names is that of a macro. -/
abbrev NoMacros (m : MacroTable) (names : List String) : Prop := ∀ n ∈ names, m.contains n = false

/-- Where the macros are `m`, the step leaves the tables as they are, also if it fails. -/
def LeavesTables {α : Type} (m : MacroTable) (e : Expansion α) : Prop :=
  ∀ r, r.tables.macros = m → (Expander.outcome (e r)).2.tables = r.tables

namespace LeavesTables

variable {α β : Type} {m : MacroTable} {e : Expansion α}

theorem pure (a : α) : LeavesTables m (Pure.pure a) := fun _ _ => rfl

theorem failAt (range : Extent) (fault : Fault) : LeavesTables m (failAt range fault : Expansion α) :=
  fun _ _ => rfl

theorem bind {g : α → Expansion β} (he : LeavesTables m e) (hg : ∀ a, LeavesTables m (g a)) :
    LeavesTables m (e >>= g) := by
  intro r hr
  have hstep := he r hr
  cases hrun : e r with
  | ok a r' =>
    rw [hrun] at hstep
    rw [bind_of_ok hrun, ← show r'.tables = r.tables from hstep]
    exact hg a r' ((congrArg Tables.macros hstep).trans hr)
  | error d r' =>
    rw [hrun] at hstep
    rw [bind_of_error hrun]
    exact hstep

theorem map (he : LeavesTables m e) (g : α → β) : LeavesTables m (e >>= fun a => Pure.pure (g a)) :=
  he.bind fun a => .pure (g a)

/-- The macros that are read are `m`. -/
theorem tables_bind {g : Tables → Expansion β} (hg : ∀ t : Tables, t.macros = m → LeavesTables m (g t)) :
    LeavesTables m (tables >>= g) := fun r hr => hg r.tables hr r hr

theorem ite {c : Prop} [Decidable c] {e' : Expansion α} (h : LeavesTables m e)
    (h' : LeavesTables m e') : LeavesTables m (if c then e else e') := by
  split
  · exact h
  · exact h'

theorem liftFault (range : Extent) (result : Except Fault α) :
    LeavesTables m (liftFault range result) := by
  cases result with
  | ok a => exact .pure a
  | error fault => exact .failAt range fault

theorem checkCancelled (config : Config) (range : Extent) :
    LeavesTables m (checkCancelled config range) := fun r _ => by
  rw [Expander.run_checkCancelled]

end LeavesTables

/-! ### Expressions without macros -/

section NoMacros

variable {m : MacroTable} {place : Place}

mutual

theorem leavesTables_expandExpr : ∀ e : Expr, NoMacros m e.names → LeavesTables m (expandExpr place e)
  | .literal value, _ => by
    rw [expandExpr]
    exact .pure _
  | .ident name, h => by
    rw [expandExpr]
    refine .tables_bind fun t ht => ?_
    rw [ht, h name (by simp [Expr.names])]
    exact .pure _
  | .call name arguments range, h => by
    rw [Expr.names] at h
    obtain ⟨hname, harguments⟩ := List.forall_mem_append.1 h
    rw [expandExpr]
    refine .tables_bind fun t ht => ?_
    simp only [ht, hname name List.mem_cons_self, Bool.false_eq_true, if_false]
    exact .ite (.failAt _ _) ((leavesTables_expandArguments arguments harguments).map _)
  | .unary op operand, h => by
    rw [expandExpr]
    exact (leavesTables_expandExpr operand h).map _
  | .binary op lhs rhs, h => by
    rw [Expr.names] at h
    obtain ⟨hlhs, hrhs⟩ := List.forall_mem_append.1 h
    rw [expandExpr]
    exact (leavesTables_expandExpr lhs hlhs).bind fun l => (leavesTables_expandExpr rhs hrhs).map _
  | .paren inner, h => by
    rw [expandExpr]
    exact (leavesTables_expandExpr inner h).map _

theorem leavesTables_expandArguments : ∀ as : List Argument, NoMacros m (Argument.namesAll as) →
    LeavesTables m (expandArguments place as)
  | [], _ => by
    rw [expandArguments]
    exact .pure _
  | a :: as, h => by
    rw [Argument.namesAll] at h
    obtain ⟨ha, has⟩ := List.forall_mem_append.1 h
    rw [expandArguments]
    exact (leavesTables_expandArgument a ha).bind fun b =>
      (leavesTables_expandArguments as has).map _

theorem leavesTables_expandArgument : ∀ a : Argument, NoMacros m a.names →
    LeavesTables m (expandArgument place a)
  | .hole, _ => by
    rw [expandArgument]
    exact .pure _
  | .expr e, h => by
    rw [expandArgument]
    exact (leavesTables_expandExpr e h).map _
  | .parameter p, h => by
    rw [expandArgument]
    exact (leavesTables_expandParameter p h).map _
  | .equation e, h => by
    rw [expandArgument]
    exact (leavesTables_expandEquation e h).map _

theorem leavesTables_expandParameter : ∀ p : Parameter, NoMacros m p.names →
    LeavesTables m (expandParameter place p)
  | ⟨mark, n, w⟩, h => by
    rw [Parameter.names] at h
    rw [expandParameter]
    exact (leavesTables_expandValue w (List.forall_mem_append.1 h).2).map _

theorem leavesTables_expandValue : ∀ w : Value, NoMacros m w.names → LeavesTables m (expandValue place w)
  | .absent, _ => by
    rw [expandValue]
    exact .pure _
  | .literal value, _ => by
    rw [expandValue]
    exact .pure _
  | .equation e, h => by
    rw [expandValue]
    exact (leavesTables_expandEquation e h).map _

theorem leavesTables_expandEquation : ∀ e : Equation, NoMacros m e.names →
    LeavesTables m (expandEquation place e)
  | ⟨op, body, u⟩, h => by
    rw [Equation.names] at h
    rw [expandEquation]
    exact (leavesTables_expandExpr body (List.forall_mem_append.1 h).1).map _

end

theorem leavesTables_evaluate {e : Expr} (h : NoMacros m e.names) :
    LeavesTables m (evaluate place e) :=
  (leavesTables_expandExpr e h).bind fun _ => .tables_bind fun _ _ => .liftFault _ _

theorem leavesTables_holds {c : Condition} (h : NoMacros m c.names) :
    LeavesTables m (holds place c) := by
  cases c with
  | expr e => exact (leavesTables_evaluate h).map _
  | defined symbol negated => exact .tables_bind fun _ _ => .pure _
  | argument param test => exact .failAt _ _

theorem leavesTables_expandExprItem {e : Expr} (h : NoMacros m e.names) :
    LeavesTables m (expandExprItem place e) := by
  have hkeep : LeavesTables m (do return [(⟨.expr (← expandExpr place e), place.range⟩ : Item)]) :=
    (leavesTables_expandExpr e h).map _
  refine .tables_bind fun t ht => ?_
  cases e with
  | call name arguments range =>
    simpa [ht, h name (by simp [Expr.names])] using hkeep
  | ident name => simpa [ht, h name (by simp [Expr.names])] using hkeep
  | literal value => exact hkeep
  | unary op operand => exact hkeep
  | binary op lhs rhs => exact hkeep
  | paren inner => exact hkeep

/-- The names in the parts of an item are names in it. -/
theorem namesAll_slots (s : SiteStatement) : Argument.namesAll (s.slots.map .parameter) ⊆ s.names := by
  have hslots : ∀ ps : List Parameter,
      Argument.namesAll (ps.map .parameter) = ps.flatMap Parameter.names := fun ps => by
    induction ps with
    | nil => rfl
    | cons p ps ih => simp [Argument.namesAll, Argument.names, ih]
  rw [hslots]
  cases s with
  | occupancy occ =>
    simp only [SiteStatement.slots, SiteStatement.names, List.flatMap_cons, List.flatMap_map]
    exact List.subset_append_right _ _
  | _ => simp [SiteStatement.slots, SiteStatement.names]

theorem namesAll_parts {k : ItemKind} : Argument.namesAll k.parts ⊆ k.names := by
  cases k with
  | keyword word e => cases e <;> simp [ItemKind.parts, ItemKind.names, Argument.namesAll, Argument.names]
  | siteStatement s =>
    rw [ItemKind.parts, ItemKind.names]
    exact namesAll_slots s
  | directive w =>
    cases w with
    | prm name e =>
      obtain ⟨op, body, u⟩ := e
      simp only [ItemKind.parts, ItemKind.names, Directive.names, Argument.namesAll, Argument.names,
        Equation.names, List.append_nil]
      exact fun n hn => List.mem_append_right _ (List.mem_append_left _ hn)
    | _ => simp [ItemKind.parts, ItemKind.names, Directive.names, Argument.namesAll, Argument.names]
  | _ => simp [ItemKind.parts, ItemKind.names, Argument.namesAll, Argument.names]

theorem leavesTables_expandSiteStatement {s : SiteStatement} (h : NoMacros m s.names) :
    LeavesTables m (expandSiteStatement place s) := by
  have hparts : LeavesTables m (expandArguments place (s.slots.map .parameter)) :=
    leavesTables_expandArguments _ fun n hn => h n (namesAll_slots s hn)
  intro r hr
  have hsame := congrFun (silent_expandSiteStatement place s) r
  have hstep := hparts r hr
  have hrun : ∀ {α : Type} (e : Expansion α),
      (Expander.outcome (silent e r)).2 = (Expander.outcome (e r)).2 := fun e =>
    congrArg Prod.snd (Expander.outcome_bind_pure e _ r)
  rw [← hrun] at hstep ⊢
  rw [hsame]
  exact hstep

end NoMacros

/-! ### Items -/

section Passive

variable {m : MacroTable} {config : Config} {below : Below} {frame : Frame}

/-- Nothing in the item changes the tables. -/
abbrev Passive (i : Item) : Prop := i.kind.IsPassive

mutual

theorem leavesTables_expandItem : ∀ i : Item, i.Everywhere Passive → NoMacros m i.names →
    LeavesTables m (expandItem config below frame i)
  | ⟨kind, range⟩, hpassive, h => by
    rw [Item.names] at h
    rw [expandItem]
    exact (LeavesTables.checkCancelled config range).bind fun _ =>
      leavesTables_expandKind kind (Item.everywhere_iff.1 hpassive).1
        (Item.everywhere_iff.1 hpassive).2 h

theorem leavesTables_expandKind {range : Extent} : ∀ k : ItemKind, k.IsPassive → k.Everywhere Passive →
    NoMacros m k.names → LeavesTables m (expandKind ⟨config, below, frame, range⟩ k)
  | .directive (.out e), _, _, h => by
    rw [expandKind, expandDirective]
    exact (leavesTables_evaluate h).map _
  | .directive .seed, _, _, _ => by
    rw [expandKind, expandDirective]
    exact .pure _
  | .conditional _ chain, _, hpassive, h => by
    rw [expandKind]
    exact leavesTables_expandChain chain hpassive h
  | .block items, _, hpassive, h => by
    rw [expandKind]
    exact leavesTables_expandItems items hpassive h
  | .expr e, _, _, h => by
    rw [expandKind]
    exact leavesTables_expandExprItem h
  | .bodyOp _ param, _, _, _ => by
    rw [expandKind]
    exact .failAt _ _
  | .declaration scope p, hname, _, h => by
    rw [ItemKind.IsPassive] at hname
    rw [expandKind, hname]
    exact (leavesTables_expandParameter p h).map _
  | .existing a, _, _, h => by
    rw [ItemKind.names] at h
    rw [expandKind]
    refine .tables_bind fun t _ => ?_
    refine .ite ?_ ?_
    · exact (leavesTables_expandEquation a.equation (List.forall_mem_append.1 h).2).map _
    · exact .failAt _ _
  | .site name members, _, hpassive, h => by
    rw [ItemKind.names] at h
    rw [expandKind]
    exact (leavesTables_expandItems members hpassive (List.forall_mem_append.1 h).2).map _
  | .siteStatement s, _, _, h => by
    rw [expandKind]
    exact (leavesTables_expandSiteStatement h).map _
  | .keyword word none, _, _, _ => by
    rw [expandKind]
    exact .pure _
  | .keyword word (some e), _, _, h => by
    rw [expandKind]
    exact (leavesTables_expandEquation e h).map _
  | .parameter p, _, _, h => by
    rw [expandKind]
    exact (leavesTables_expandParameter p h).map _
  | .equation e, _, _, h => by
    rw [expandKind]
    exact (leavesTables_expandEquation e h).map _
  | .assignment name e, _, _, h => by
    rw [ItemKind.names] at h
    rw [expandKind]
    exact (leavesTables_expandEquation e (List.forall_mem_append.1 h).2).map _

theorem leavesTables_expandChain {range : Extent} : ∀ c : Chain, c.Everywhere Passive →
    NoMacros m c.names → LeavesTables m (expandChain ⟨config, below, frame, range⟩ c)
  | .done, _, _ => by
    rw [expandChain]
    exact .pure _
  | .otherwise items, hpassive, h => by
    rw [expandChain]
    exact leavesTables_expandItems items hpassive h
  | .branch condition items rest, hpassive, h => by
    rw [Chain.names] at h
    obtain ⟨hcondition, h⟩ := List.forall_mem_append.1 h
    obtain ⟨hitems, hrest⟩ := List.forall_mem_append.1 h
    rw [expandChain]
    exact (leavesTables_holds hcondition).bind fun b => .ite
      (leavesTables_expandItems items hpassive.1 hitems)
      (leavesTables_expandChain rest hpassive.2 hrest)

theorem leavesTables_expandItems : ∀ is : List Item, Item.AllEverywhere Passive is →
    NoMacros m (Item.namesAll is) → LeavesTables m (expandItems config below frame is)
  | [], _, _ => by
    rw [expandItems]
    exact .pure _
  | i :: is, hpassive, h => by
    rw [Item.namesAll] at h
    obtain ⟨hi, his⟩ := List.forall_mem_append.1 h
    rw [expandItems]
    exact (leavesTables_expandItem i hpassive.1 hi).bind fun js =>
      (leavesTables_expandItems is hpassive.2 his).map _

end

end Passive

end Expansion

end ControlFile
