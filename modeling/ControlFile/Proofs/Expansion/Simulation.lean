import ControlFile.Proofs.Expansion.Termination
import ControlFile.Proofs.Macro.Faults

/-!
# Two expansions side by side

A statement about two expansions of the same items, under two configurations, is a relation between
the steps of the one and those of the other.  If it holds of the few steps that look at something that
may differ, and is kept when steps are put together, then it holds of the two expansions as wholes,
however deep macros and files are nested (`Simulation.rel_itemAt`).

A `Simulation` is such a relation.  Most steps look at the tables only (`onTables`).  What is left are
the steps that know the configuration, the text that the items come from, or the paths that have been
asked for: the test for cancellation, asking for a path, reporting, the end of the depth.
-/

namespace ControlFile

namespace Expansion

open Expander (belowAt itemAt_eq rootExpansion)

variable {α β : Type}

/-- A step that looks at the tables and at nothing else. -/
def onTables (f : Tables → EStateM.Result Diagnostic Tables α) : Expansion α := fun r =>
  match f r.tables with
  | .ok a t => .ok a { r with tables := t }
  | .error d t => .error d { r with tables := t }

/-- The step does not fail as if the run had been cancelled. -/
def Uncancelled (f : Tables → EStateM.Result Diagnostic Tables α) : Prop :=
  ∀ t d t', f t = .error d t' → d.fault ≠ .cancelled

/-- What the copy of an item makes of the tables. -/
def substituteTables (s : Substitution) (range : Extent) (i : Item) (t : Tables) :
    EStateM.Result Diagnostic Tables (Option Item) :=
  match i.substitute s t.uniqueCount with
  | .ok j n => .ok j (t.withUniqueCount n)
  | .error fault n => .error ⟨fault, range⟩ (t.withUniqueCount n)

theorem substitute_eq_onTables (s : Substitution) (range : Extent) (i : Item) :
    substitute s range i = onTables (substituteTables s range i) := by
  funext r
  unfold substitute onTables substituteTables
  cases i.substitute s r.tables.uniqueCount <;> rfl

/-- A step whose failure is reported and gives nothing; only cancellation goes on. -/
def alone (frame : Frame) (e : Expansion (List Item)) : Expansion (List Item) := fun r =>
  match e r with
  | .ok items r' => .ok items r'
  | .error d r' => if d.fault = .cancelled then .error d r' else (do report frame d; return []) r'

theorem independently_cons (frame : Frame) (one : Item → Expansion (List Item)) (i : Item)
    (is : List Item) :
    independently frame one (i :: is) = (do
      let produced ← alone frame (one i)
      let rest ← independently frame one is
      return produced ++ rest) := rfl

/-- A relation between the steps of two expansions that is kept when steps are put together. -/
structure Simulation (config config' : Config) where
  Rel : {α : Type} → Expansion α → Expansion α → Prop
  /-- Where the items of the two expansions may come from. -/
  Frames : Frame → Frame → Prop
  vocabulary : config'.vocabulary = config.vocabulary
  root : Frames .root .root
  inCall {frame frame' : Frame} (range : Extent) (h : Frames frame frame') :
    Frames (frame.inCall range) (frame'.inCall range)
  inFile {frame frame' : Frame} (path : String) (range : Extent) (h : Frames frame frame') :
    Frames (frame.inFile path range) (frame'.inFile path range)
  onTables {α : Type} (f : Tables → EStateM.Result Diagnostic Tables α) (h : Uncancelled f) :
    Rel (onTables f) (onTables f)
  bind {α β : Type} {e e' : Expansion α} {f f' : α → Expansion β} (h : Rel e e')
    (hf : ∀ a, Rel (f a) (f' a)) : Rel (e >>= f) (e' >>= f')
  checkCancelled (range : Extent) : Rel (checkCancelled config range) (checkCancelled config' range)
  ask (path : String) : Rel (ask config path) (ask config' path)
  reportParsed {frame frame' : Frame} (parsed : Parsed) (h : Frames frame frame') :
    Rel (reportParsed config frame parsed) (reportParsed config' frame' parsed)
  depthExceeded {α : Type} (range : Extent) (name : String) :
    Rel (failAt range (.depthExceeded name config.options.maxDepth) : Expansion α)
      (failAt range (.depthExceeded name config'.options.maxDepth))
  relocating {α : Type} {e e' : Expansion α} (range : Extent) (h : Rel e e') :
    Rel (relocating range e) (relocating range e')
  alone {frame frame' : Frame} {e e' : Expansion (List Item)} (h : Frames frame frame')
    (he : Rel e e') : Rel (alone frame e) (alone frame' e')

namespace Simulation

variable {config config' : Config} (S : Simulation config config')

/-! ### Steps that look at the tables -/

theorem rel_pure (a : α) : S.Rel (Pure.pure a) (Pure.pure a) :=
  S.onTables (fun t => .ok a t) (by rintro _ _ _ ⟨⟩)

theorem rel_map {e e' : Expansion α} (h : S.Rel e e') (f : α → β) :
    S.Rel (e >>= fun a => return f a) (e' >>= fun a => return f a) :=
  S.bind h fun a => S.rel_pure (f a)

theorem rel_failAt (range : Extent) {fault : Fault} (h : fault ≠ .cancelled) :
    S.Rel (failAt range fault : Expansion α) (failAt range fault) :=
  S.onTables (fun t => .error ⟨fault, range⟩ t) (by rintro _ _ _ ⟨⟩; exact h)

theorem rel_liftFault (range : Extent) {result : Except Fault α} (h : FaultsLocally result) :
    S.Rel (liftFault range result) (liftFault range result) := by
  cases result with
  | ok a => exact S.rel_pure a
  | error fault => exact S.rel_failAt range (h fault rfl).ne_cancelled

theorem rel_tables : S.Rel tables tables :=
  S.onTables (fun t => .ok t t) (by rintro _ _ _ ⟨⟩)

theorem rel_modifyTables (f : Tables → Tables) : S.Rel (modifyTables f) (modifyTables f) :=
  S.onTables (fun t => .ok () (f t)) (by rintro _ _ _ ⟨⟩)

theorem rel_nextUnique : S.Rel nextUnique nextUnique :=
  S.onTables (fun t => .ok t.nextUnique.1 t.nextUnique.2) (by rintro _ _ _ ⟨⟩)

theorem rel_substitute (s : Substitution) (range : Extent) (i : Item) :
    S.Rel (substitute s range i) (substitute s range i) := by
  rw [substitute_eq_onTables]
  refine S.onTables _ fun t d t' hd => ?_
  unfold substituteTables at hd
  cases hi : i.substitute s t.uniqueCount with
  | ok j n =>
    rw [hi] at hd
    cases hd
  | error fault n =>
    rw [hi] at hd
    cases hd
    exact (i.faults_substitute s _ _ _ hi).ne_cancelled

theorem rel_ite {c : Prop} [Decidable c] {e e' f f' : Expansion α} (he : S.Rel e e')
    (hf : S.Rel f f') : S.Rel (if c then e else f) (if c then e' else f') := by
  split
  · exact he
  · exact hf

theorem rel_mapM {f f' : α → Expansion β} (h : ∀ a, S.Rel (f a) (f' a)) (as : List α) :
    S.Rel (as.mapM f) (as.mapM f') := by
  induction as with
  | nil => exact S.rel_pure []
  | cons a as ih =>
    rw [List.mapM_cons, List.mapM_cons]
    exact S.bind (h a) fun b => S.rel_map ih (b :: ·)

/-! ### Levels -/

/-- The levels below are related item by item.  Where the first expansion cannot go on and the second
one can, nothing that the second one does may matter. -/
inductive BelowRel : Below → Below → Prop
  | level {one one' : Frame → Item → Expansion (List Item)}
      (h : ∀ frame frame' i, S.Frames frame frame' → S.Rel (one frame i) (one' frame' i)) :
      BelowRel (some one) (some one')
  | limit : BelowRel none none
  | cut {one' : Frame → Item → Expansion (List Item)}
      (h : ∀ {α : Type} (range : Extent) (name : String) (e : Expansion α),
        S.Rel (failAt range (.depthExceeded name config.options.maxDepth)) e) :
      BelowRel none (some one')

section Places

variable {below below' : Below} {frame frame' : Frame} (range : Extent)

/-! ### Calls and expressions -/

theorem rel_expandBody (s : Substitution) {one one' : Item → Expansion (List Item)}
    (h : ∀ i, S.Rel (one i) (one' i)) (body : List Item) :
    S.Rel (expandBody s range one body) (expandBody s range one' body) := by
  induction body with
  | nil => exact S.rel_pure []
  | cons i is ih =>
    rw [expandBody, expandBody]
    refine S.bind (S.rel_substitute s range i) fun j => ?_
    cases j with
    | some item => exact S.bind (h item) fun produced => S.rel_map ih (produced ++ ·)
    | none => exact S.bind (S.rel_pure []) fun produced => S.rel_map ih (produced ++ ·)

theorem rel_callWith (hbelow : S.BelowRel below below') (hframe : S.Frames frame frame')
    (name : String) (count : Nat) {bind bind' : Signature → Expansion Bindings}
    (hbind : ∀ signature, S.Rel (bind signature) (bind' signature)) :
    S.Rel (callWith ⟨config, below, frame, range⟩ name count bind)
      (callWith ⟨config', below', frame', range⟩ name count bind') := by
  refine S.bind S.rel_tables fun t => ?_
  cases t.macros.get? name with
  | none => exact S.rel_failAt range (by simp)
  | some entry =>
    refine S.rel_ite (S.rel_failAt range (by simp)) ?_
    cases hbelow with
    | limit => exact S.depthExceeded range name
    | cut h => exact h range name _
    | level h =>
      refine S.bind (hbind entry.signature) fun bound => ?_
      refine S.bind S.rel_nextUnique fun unique => ?_
      exact S.rel_map (S.relocating range (S.rel_expandBody range _ (fun i => h _ _ i (S.inCall range
        hframe)) entry.body)) _

theorem rel_inlineWith (hbelow : S.BelowRel below below') (hframe : S.Frames frame frame')
    (name : String) (count : Nat) {bind bind' : Signature → Expansion Bindings}
    (hbind : ∀ signature, S.Rel (bind signature) (bind' signature)) :
    S.Rel (inlineWith ⟨config, below, frame, range⟩ name count bind)
      (inlineWith ⟨config', below', frame', range⟩ name count bind') := by
  refine S.bind (S.rel_callWith range hbelow hframe name count hbind) fun items => ?_
  split
  · exact S.rel_pure _
  · exact S.rel_failAt range (by simp)

mutual

theorem rel_expandExpr (hbelow : S.BelowRel below below') (hframe : S.Frames frame frame') :
    ∀ e : Expr, S.Rel (expandExpr ⟨config, below, frame, range⟩ e)
      (expandExpr ⟨config', below', frame', range⟩ e)
  | .literal value => by
    rw [expandExpr, expandExpr]
    exact S.rel_pure _
  | .ident name => by
    rw [expandExpr, expandExpr]
    refine S.bind S.rel_tables fun t => ?_
    exact S.rel_ite (S.rel_inlineWith range hbelow hframe name 0 fun _ => S.rel_pure _) (S.rel_pure _)
  | .call name arguments place => by
    rw [expandExpr, expandExpr]
    refine S.bind S.rel_tables fun t => ?_
    exact S.rel_ite (S.rel_inlineWith range hbelow hframe name arguments.length fun signature =>
      rel_bindArguments hbelow hframe signature.byReference signature.params [] arguments) (S.rel_ite
      (S.rel_failAt range (by simp)) (S.rel_map (rel_expandArguments hbelow hframe arguments) _))
  | .unary op operand => by
    rw [expandExpr, expandExpr]
    exact S.rel_map (rel_expandExpr hbelow hframe operand) _
  | .binary op lhs rhs => by
    rw [expandExpr, expandExpr]
    exact S.bind (rel_expandExpr hbelow hframe lhs) fun _ =>
      S.rel_map (rel_expandExpr hbelow hframe rhs) _
  | .paren inner => by
    rw [expandExpr, expandExpr]
    exact S.rel_map (rel_expandExpr hbelow hframe inner) _

theorem rel_expandArguments (hbelow : S.BelowRel below below') (hframe : S.Frames frame frame') :
    ∀ as : List Argument, S.Rel (expandArguments ⟨config, below, frame, range⟩ as)
      (expandArguments ⟨config', below', frame', range⟩ as)
  | [] => by
    rw [expandArguments, expandArguments]
    exact S.rel_pure _
  | a :: as => by
    rw [expandArguments, expandArguments]
    exact S.bind (rel_expandArgument hbelow hframe a) fun b =>
      S.rel_map (rel_expandArguments hbelow hframe as) (b :: ·)

theorem rel_bindArguments (hbelow : S.BelowRel below below') (hframe : S.Frames frame frame')
    (byReference : Bool) (params : List MacroParam) (bound : Bindings) :
    ∀ as : List Argument,
      S.Rel (bindArguments ⟨config, below, frame, range⟩ byReference params bound as)
        (bindArguments ⟨config', below', frame', range⟩ byReference params bound as)
  | [] => by
    rw [bindArguments, bindArguments]
    exact S.rel_pure _
  | a :: as => by
    cases params with
    | nil =>
      rw [bindArguments, bindArguments]
      exact S.rel_pure _
    | cons p ps =>
      rw [bindArguments, bindArguments]
      have hrest := fun b =>
        rel_bindArguments hbelow hframe byReference ps (bindParam p b bound) as
      exact S.rel_ite (S.bind (S.rel_pure a) hrest) (S.bind (rel_expandArgument hbelow hframe a) hrest)

theorem rel_expandArgument (hbelow : S.BelowRel below below') (hframe : S.Frames frame frame') :
    ∀ a : Argument, S.Rel (expandArgument ⟨config, below, frame, range⟩ a)
      (expandArgument ⟨config', below', frame', range⟩ a)
  | .hole => by
    rw [expandArgument, expandArgument]
    exact S.rel_pure _
  | .expr e => by
    rw [expandArgument, expandArgument]
    exact S.rel_map (rel_expandExpr hbelow hframe e) _
  | .parameter p => by
    rw [expandArgument, expandArgument]
    exact S.rel_map (rel_expandParameter hbelow hframe p) _
  | .equation e => by
    rw [expandArgument, expandArgument]
    exact S.rel_map (rel_expandEquation hbelow hframe e) _

theorem rel_expandParameter (hbelow : S.BelowRel below below') (hframe : S.Frames frame frame') :
    ∀ p : Parameter, S.Rel (expandParameter ⟨config, below, frame, range⟩ p)
      (expandParameter ⟨config', below', frame', range⟩ p)
  | ⟨refinement, name, value⟩ => by
    rw [expandParameter, expandParameter]
    exact S.rel_map (rel_expandValue hbelow hframe value) _

theorem rel_expandValue (hbelow : S.BelowRel below below') (hframe : S.Frames frame frame') :
    ∀ w : Value, S.Rel (expandValue ⟨config, below, frame, range⟩ w)
      (expandValue ⟨config', below', frame', range⟩ w)
  | .absent => by
    rw [expandValue, expandValue]
    exact S.rel_pure _
  | .literal value => by
    rw [expandValue, expandValue]
    exact S.rel_pure _
  | .equation e => by
    rw [expandValue, expandValue]
    exact S.rel_map (rel_expandEquation hbelow hframe e) _

theorem rel_expandEquation (hbelow : S.BelowRel below below') (hframe : S.Frames frame frame') :
    ∀ e : Equation, S.Rel (expandEquation ⟨config, below, frame, range⟩ e)
      (expandEquation ⟨config', below', frame', range⟩ e)
  | ⟨op, body, uncertainty⟩ => by
    rw [expandEquation, expandEquation]
    exact S.rel_map (rel_expandExpr hbelow hframe body) _

end

theorem rel_evaluate (hbelow : S.BelowRel below below') (hframe : S.Frames frame frame') (e : Expr) :
    S.Rel (evaluate ⟨config, below, frame, range⟩ e) (evaluate ⟨config', below', frame', range⟩ e) := by
  refine S.bind (S.rel_expandExpr range hbelow hframe e) fun expanded => ?_
  refine S.bind S.rel_tables fun t => ?_
  exact S.rel_liftFault range (expanded.faults_evaluate t.valueOf?)

theorem rel_holds (hbelow : S.BelowRel below below') (hframe : S.Frames frame frame')
    (c : Condition) :
    S.Rel (holds ⟨config, below, frame, range⟩ c) (holds ⟨config', below', frame', range⟩ c) := by
  cases c <;> rw [holds, holds]
  case expr e => exact S.rel_map (S.rel_evaluate range hbelow hframe e) _
  case defined symbol negated => exact S.rel_map S.rel_tables _
  case argument param test => exact S.rel_failAt range (by simp)

theorem rel_expandExprItem (hbelow : S.BelowRel below below') (hframe : S.Frames frame frame')
    (e : Expr) :
    S.Rel (expandExprItem ⟨config, below, frame, range⟩ e)
      (expandExprItem ⟨config', below', frame', range⟩ e) := by
  have hkeep := S.rel_map (S.rel_expandExpr range hbelow hframe e)
    fun e => [(⟨.expr e, range⟩ : Item)]
  refine S.bind S.rel_tables fun t => ?_
  cases e with
  | call name arguments place =>
    exact S.rel_ite (S.rel_callWith range hbelow hframe name arguments.length fun signature =>
      S.rel_bindArguments range hbelow hframe signature.byReference signature.params [] arguments)
      hkeep
  | ident name =>
    exact S.rel_ite (S.rel_callWith range hbelow hframe name 0 fun _ => S.rel_pure _) hkeep
  | literal value => exact hkeep
  | unary op operand => exact hkeep
  | binary op lhs rhs => exact hkeep
  | paren inner => exact hkeep

theorem rel_expandSiteStatement (hbelow : S.BelowRel below below') (hframe : S.Frames frame frame')
    (s : SiteStatement) :
    S.Rel (expandSiteStatement ⟨config, below, frame, range⟩ s)
      (expandSiteStatement ⟨config', below', frame', range⟩ s) := by
  have hparam := S.rel_expandParameter range hbelow hframe
  cases s <;> rw [expandSiteStatement, expandSiteStatement]
  case coordinate axis value => exact S.rel_map (hparam value) _
  case occupancy occ =>
    refine S.bind (hparam occ.value) fun _ => ?_
    exact S.rel_map (S.rel_mapM (fun m => S.rel_map (hparam m.value) _) occ.modifiers) _
  case scalar word value => exact S.rel_map (hparam value) _
  case adps values =>
    refine S.rel_map ?_ _
    refine S.bind (hparam _) fun _ => ?_
    refine S.bind (hparam _) fun _ => ?_
    refine S.bind (hparam _) fun _ => ?_
    refine S.bind (hparam _) fun _ => ?_
    exact S.bind (hparam _) fun _ => S.rel_map (hparam _) _

/-! ### Items -/

theorem rel_independently (hframe : S.Frames frame frame') {one one' : Item → Expansion (List Item)}
    (h : ∀ i, S.Rel (one i) (one' i)) (is : List Item) :
    S.Rel (independently frame one is) (independently frame' one' is) := by
  induction is with
  | nil => exact S.rel_pure []
  | cons i is ih =>
    rw [independently_cons, independently_cons]
    exact S.bind (S.alone hframe (h i)) fun produced => S.rel_map ih (produced ++ ·)

theorem rel_includeFile (hbelow : S.BelowRel below below') (hframe : S.Frames frame frame')
    (path : String) :
    S.Rel (includeFile ⟨config, below, frame, range⟩ path)
      (includeFile ⟨config', below', frame', range⟩ path) := by
  unfold includeFile
  cases hbelow with
  | limit => exact S.depthExceeded range path
  | cut h => exact h range path _
  | level h =>
    refine S.bind (S.ask path) fun text => ?_
    cases text with
    | none => exact S.rel_failAt range (by simp)
    | some text =>
      have hfile := S.inFile path range hframe
      dsimp only
      rw [S.vocabulary]
      exact S.bind (S.reportParsed _ hfile) fun _ => S.relocating range
        (S.rel_independently hfile (fun i => h _ _ i hfile) _)

theorem rel_expandDirective (hbelow : S.BelowRel below below') (hframe : S.Frames frame frame')
    (d : Directive) :
    S.Rel (expandDirective ⟨config, below, frame, range⟩ d)
      (expandDirective ⟨config', below', frame', range⟩ d) := by
  cases d <;> rw [expandDirective, expandDirective]
  case includeFile path => exact S.rel_includeFile range hbelow hframe path
  case out e => exact S.rel_map (S.rel_evaluate range hbelow hframe e) _
  case define name => exact S.rel_map (S.rel_modifyTables _) _
  case undef name => exact S.rel_map (S.rel_modifyTables _) _
  case deleteMacros names => exact S.rel_map (S.rel_modifyTables _) _
  case prm name e =>
    exact S.bind (S.rel_evaluate range hbelow hframe e.body) fun _ =>
      S.rel_map (S.rel_modifyTables _) _
  case seed => exact S.rel_pure _

mutual

theorem rel_expandItem (hbelow : S.BelowRel below below') (hframe : S.Frames frame frame') :
    ∀ i : Item, S.Rel (expandItem config below frame i) (expandItem config' below' frame' i)
  | ⟨kind, range⟩ => by
    rw [expandItem, expandItem]
    exact S.bind (S.checkCancelled range) fun _ => rel_expandKind hbelow hframe range kind

theorem rel_expandKind (hbelow : S.BelowRel below below') (hframe : S.Frames frame frame')
    (range : Extent) : ∀ k : ItemKind, S.Rel (expandKind ⟨config, below, frame, range⟩ k)
      (expandKind ⟨config', below', frame', range⟩ k)
  | .directive d => by
    rw [expandKind, expandKind]
    exact S.rel_expandDirective range hbelow hframe d
  | .conditional _ chain => by
    rw [expandKind, expandKind]
    exact rel_expandChain hbelow hframe range chain
  | .block items => by
    rw [expandKind, expandKind]
    exact rel_expandItems hbelow hframe items
  | .expr e => by
    rw [expandKind, expandKind]
    exact S.rel_expandExprItem range hbelow hframe e
  | .bodyOp _ param => by
    rw [expandKind, expandKind]
    exact S.rel_failAt range (by simp)
  | .macroDecl isList signatures body => by
    rw [expandKind, expandKind]
    exact S.rel_map (S.rel_modifyTables _) _
  | .declaration scope p => by
    rw [expandKind, expandKind]
    have hparam := S.rel_map (S.rel_expandParameter range hbelow hframe p)
      fun p => [(⟨.declaration scope p, range⟩ : Item)]
    cases p.name with
    | none => exact hparam
    | some name => exact S.bind (S.rel_modifyTables _) fun _ => hparam
  | .existing a => by
    rw [expandKind, expandKind]
    refine S.bind S.rel_tables fun t => ?_
    exact S.rel_ite (S.rel_map (S.rel_expandEquation range hbelow hframe a.equation) _) (S.rel_failAt
      range (by simp))
  | .site name members => by
    rw [expandKind, expandKind]
    exact S.rel_map (rel_expandItems hbelow hframe members) _
  | .siteStatement s => by
    rw [expandKind, expandKind]
    exact S.rel_map (S.rel_expandSiteStatement range hbelow hframe s) _
  | .keyword word none => by
    rw [expandKind, expandKind]
    exact S.rel_pure _
  | .keyword word (some e) => by
    rw [expandKind, expandKind]
    exact S.rel_map (S.rel_expandEquation range hbelow hframe e) _
  | .parameter p => by
    rw [expandKind, expandKind]
    exact S.rel_map (S.rel_expandParameter range hbelow hframe p) _
  | .equation e => by
    rw [expandKind, expandKind]
    exact S.rel_map (S.rel_expandEquation range hbelow hframe e) _
  | .assignment name e => by
    rw [expandKind, expandKind]
    exact S.rel_map (S.rel_expandEquation range hbelow hframe e) _

theorem rel_expandChain (hbelow : S.BelowRel below below') (hframe : S.Frames frame frame')
    (range : Extent) : ∀ c : Chain, S.Rel (expandChain ⟨config, below, frame, range⟩ c)
      (expandChain ⟨config', below', frame', range⟩ c)
  | .done => by
    rw [expandChain, expandChain]
    exact S.rel_pure _
  | .otherwise items => by
    rw [expandChain, expandChain]
    exact rel_expandItems hbelow hframe items
  | .branch condition items rest => by
    rw [expandChain, expandChain]
    exact S.bind (S.rel_holds range hbelow hframe condition) fun _ =>
      S.rel_ite (rel_expandItems hbelow hframe items) (rel_expandChain hbelow hframe range rest)

theorem rel_expandItems (hbelow : S.BelowRel below below') (hframe : S.Frames frame frame') :
    ∀ is : List Item, S.Rel (expandItems config below frame is) (expandItems config' below' frame' is)
  | [] => by
    rw [expandItems, expandItems]
    exact S.rel_pure _
  | i :: is => by
    rw [expandItems, expandItems]
    exact S.bind (rel_expandItem hbelow hframe i) fun produced =>
      S.rel_map (rel_expandItems hbelow hframe is) (produced ++ ·)

end

end Places

/-- Two expansions with as many levels are related. -/
theorem rel_itemAt (levels : Nat) {frame frame' : Frame} (hframe : S.Frames frame frame')
    (i : Item) : S.Rel (itemAt config levels frame i) (itemAt config' levels frame' i) := by
  induction levels generalizing frame frame' i with
  | zero => exact S.rel_expandItem .limit hframe i
  | succ levels ih => exact S.rel_expandItem (.level fun _ _ i hframe => ih hframe i) hframe i

/-- If nothing matters once the first expansion cannot go on, then the second one may go deeper. -/
theorem rel_itemAt_of_le
    (hcut : ∀ {α : Type} (range : Extent) (name : String) (e : Expansion α),
      S.Rel (failAt range (.depthExceeded name config.options.maxDepth)) e)
    {levels levels' : Nat} (hle : levels ≤ levels') {frame frame' : Frame}
    (hframe : S.Frames frame frame') (i : Item) :
    S.Rel (itemAt config levels frame i) (itemAt config' levels' frame' i) := by
  induction levels generalizing levels' frame frame' i with
  | zero =>
    cases levels' with
    | zero => exact S.rel_expandItem .limit hframe i
    | succ levels' => exact S.rel_expandItem (.cut hcut) hframe i
  | succ levels ih =>
    obtain ⟨levels', rfl⟩ : ∃ n, levels' = n + 1 := ⟨levels' - 1, by omega⟩
    exact S.rel_expandItem (.level fun _ _ i hframe => ih (by omega) hframe i) hframe i

/-- A text is expanded the same way if its items are. -/
theorem rel_rootExpansion (parsed : Parsed)
    (h : ∀ i, S.Rel (itemAt config config.options.maxDepth .root i)
      (itemAt config' config'.options.maxDepth .root i)) :
    S.Rel (rootExpansion config parsed) (rootExpansion config' parsed) :=
  S.bind (S.reportParsed parsed S.root) fun _ => S.rel_independently S.root h parsed.items

end Simulation

end Expansion

end ControlFile
