import ControlFile.Proofs.Expansion.Tracking
import ControlFile.Proofs.Item.Text

/-!
# What an expansion adds to a run

A step of an expansion asks for further paths and adds problems; it takes none of them back
(`Run.Extends`).  `Yields` says so of a step, says that each problem that it adds is good, and that
a failure is at one of the places `P`.

Places move in two ways.  All that happens in a call is placed at the call, so nothing is assumed of
the places in the body of a macro.  What happens in an included file stays there; but the file keeps
the place in the root text that led to it, so that has to be one of the `anchor`s.  `Anchored P frame`
is what carries both: from each place in `P`, the frame leads to an anchor.
-/

namespace ControlFile

/-- From `r` to `r'`, further paths have been asked for, and good problems added. -/
structure Run.Extends (good : Problem → Prop) (r r' : Run) : Prop where
  asked : r.asked <:+ r'.asked
  problems : ∃ ps, r'.problems = r.problems ++ ps ∧ ∀ p ∈ ps, good p

namespace Run.Extends

variable {good : Problem → Prop} {r r' r'' : Run}

theorem of_eq (hasked : r'.asked = r.asked) (hproblems : r'.problems = r.problems) :
    r.Extends good r' :=
  ⟨hasked ▸ List.suffix_refl _, [], by rw [hproblems, List.append_nil], by simp⟩

theorem refl (r : Run) : r.Extends good r := of_eq rfl rfl

theorem trans (h : r.Extends good r') (h' : r'.Extends good r'') : r.Extends good r'' := by
  obtain ⟨ps, hps, hgood⟩ := h.problems
  obtain ⟨qs, hqs, hgood'⟩ := h'.problems
  refine ⟨h.asked.trans h'.asked, ps ++ qs, by rw [hqs, hps, List.append_assoc], fun p hp => ?_⟩
  exact (List.mem_append.1 hp).elim (hgood p) (hgood' p)

end Run.Extends

namespace Expansion

variable {good : Problem → Prop} {P : Extent → Prop} {α β : Type}

/-- The step adds good problems only, and if it fails then at a place in `P`. -/
def Yields (good : Problem → Prop) (P : Extent → Prop) (e : Expansion α) : Prop :=
  ∀ r, match e r with
    | .ok _ r' => r.Extends good r'
    | .error d r' => P d.range ∧ r.Extends good r'

namespace Yields

theorem of_ok {e : Expansion α} (h : ∀ r, ∃ a r', e r = .ok a r' ∧ r.Extends good r') :
    Yields good P e := by
  intro r
  obtain ⟨a, r', hok, hextends⟩ := h r
  rw [hok]
  exact hextends

theorem pure (a : α) : Yields good P (Pure.pure a) := .of_ok fun r => ⟨a, r, rfl, .refl r⟩

theorem failAt {range : Extent} (h : P range) (fault : Fault) :
    Yields good P (Expansion.failAt range fault : Expansion α) := fun r => ⟨h, .refl r⟩

theorem liftFault {range : Extent} (h : P range) (result : Except Fault α) :
    Yields good P (Expansion.liftFault range result) := by
  cases result with
  | ok a => exact .pure a
  | error fault => exact .failAt h fault

theorem tables : Yields good P tables := .of_ok fun r => ⟨_, r, rfl, .refl r⟩

theorem modifyTables (f : Tables → Tables) : Yields good P (modifyTables f) :=
  .of_ok fun _ => ⟨_, _, rfl, .of_eq rfl rfl⟩

theorem nextUnique : Yields good P nextUnique := .of_ok fun _ => ⟨_, _, rfl, .of_eq rfl rfl⟩

theorem reportParsed {config : Config} {frame : Frame} {parsed : Parsed}
    (h : ∀ d ∈ parsed.diagnostics, good ⟨d, frame.source⟩) :
    Yields good P (reportParsed config frame parsed) := by
  refine .of_ok fun r => ⟨_, _, rfl, List.suffix_refl _, _, rfl, fun p hp => ?_⟩
  obtain ⟨d, hd, rfl⟩ := List.mem_map.1 hp
  exact h d hd

theorem bind {e : Expansion α} {f : α → Expansion β} (h : Yields good P e)
    (hf : ∀ a, Yields good P (f a)) : Yields good P (e >>= f) := by
  intro r
  have he := h r
  cases hrun : e r with
  | error d r' =>
    rw [hrun] at he
    rw [bind_of_error hrun]
    exact he
  | ok a r' =>
    rw [hrun] at he
    rw [bind_of_ok hrun]
    have hnext := hf a r'
    cases hrun' : f a r' with
    | error d r'' =>
      rw [hrun'] at hnext
      exact ⟨hnext.1, he.trans hnext.2⟩
    | ok b r'' =>
      rw [hrun'] at hnext
      exact he.trans hnext

/-- What a path is asked for is its text. -/
theorem ask_bind {config : Config} {path : String} {f : Option String → Expansion β}
    (h : Yields good P (f (config.resolver path))) : Yields good P (ask config path >>= f) := by
  intro r
  have hask : r.Extends good { r with asked := path :: r.asked } :=
    ⟨List.suffix_cons path r.asked, [], (List.append_nil _).symm, by simp⟩
  have hnext := h { r with asked := path :: r.asked }
  rw [show (ask config path >>= f) r = f (config.resolver path) { r with asked := path :: r.asked }
    from rfl]
  cases hrun : f (config.resolver path) { r with asked := path :: r.asked } with
  | ok b r' =>
    rw [hrun] at hnext
    exact hask.trans hnext
  | error d r' =>
    rw [hrun] at hnext
    exact ⟨hnext.1, hask.trans hnext.2⟩

theorem anywhere {e : Expansion α} (h : Yields good P e) : Yields good (fun _ => True) e := by
  intro r
  have he := h r
  cases hrun : e r with
  | ok a r' =>
    rw [hrun] at he
    exact he
  | error d r' =>
    rw [hrun] at he
    exact ⟨trivial, he.2⟩

theorem ite {c : Prop} [Decidable c] {e e' : Expansion α} (h : Yields good P e)
    (h' : Yields good P e') : Yields good P (if c then e else e') := by
  split
  · exact h
  · exact h'

theorem mapM {f : α → Expansion β} (h : ∀ a, Yields good P (f a)) (as : List α) :
    Yields good P (as.mapM f) := by
  induction as with
  | nil => exact .pure []
  | cons a as ih =>
    rw [List.mapM_cons]
    exact .bind (h a) fun b => .bind ih fun bs => .pure _

theorem checkCancelled (config : Config) {range : Extent} (h : P range) :
    Yields good P (checkCancelled config range) :=
  .bind (.of_ok fun r => ⟨_, r, rfl, .refl r⟩) fun _ => .ite (.failAt h _) (.pure _)

theorem substitute (s : Substitution) {range : Extent} (h : P range) (item : Item) :
    Yields good P (substitute s range item) := by
  intro r
  unfold Expansion.substitute
  cases item.substitute s r.tables.uniqueCount with
  | ok i n => exact .of_eq rfl rfl
  | error fault n => exact ⟨h, .of_eq rfl rfl⟩

/-- What fails anywhere fails at `range`. -/
theorem relocating {range : Extent} {e : Expansion α} (h : Yields good (fun _ => True) e)
    (hrange : P range) : Yields good P (relocating range e) := by
  intro r
  have he := h r
  unfold Expansion.relocating
  cases hrun : e r with
  | ok a r' =>
    rw [hrun] at he
    exact he
  | error d r' =>
    rw [hrun] at he
    exact ⟨hrange, he.2⟩

end Yields

/-! ### Places that lead to anchors -/

/-- Whatever is at a place in `P` leads to an anchor in the root text. -/
def Anchored (anchor P : Extent → Prop) (frame : Frame) : Prop :=
  ∀ range, P range → anchor (frame.directiveAt range)

variable {anchor : Extent → Prop}

/-- The outermost call leads to the root text, from wherever the body of a macro comes. -/
theorem Anchored.inCall {frame : Frame} {range : Extent} (h : Anchored anchor P frame)
    (hrange : P range) : Anchored anchor (fun _ => True) (frame.inCall range) := by
  intro place _
  have hanchor := h range hrange
  obtain ⟨source, callSite⟩ := frame
  cases source with
  | root => cases callSite <;> exact hanchor
  | included path directive => exact hanchor

theorem Anchored.inFile {frame : Frame} {range : Extent} (h : Anchored anchor P frame)
    (hrange : P range) (path : String) (Q : Extent → Prop) :
    Anchored anchor Q (frame.inFile path range) := fun _ _ => h range hrange

/-- Whatever stands in the text of a file that an anchor leads to is good. -/
def GoodFiles (config : Config) (anchor : Extent → Prop) (good : Problem → Prop) : Prop :=
  ∀ path text directive d, config.resolver path = some text → anchor directive →
    d.range.Inside (byteLength text.toList) → good ⟨d, .included path directive⟩

/-- The items of the level below add good problems. -/
def YieldsBelow (anchor : Extent → Prop) (good : Problem → Prop) (below : Below) : Prop :=
  ∀ one ∈ below, ∀ P frame i, Anchored anchor P frame → i.Everywhere (fun j => P j.range) →
    Yields good P (one frame i)

/-- Where an item is expanded: what is below it adds good problems, and its place leads to an
anchor. -/
structure Sited (anchor : Extent → Prop) (good : Problem → Prop) (P : Extent → Prop)
    (place : Place) : Prop where
  files : GoodFiles place.config anchor good
  below : YieldsBelow anchor good place.below
  frame : Anchored anchor P place.frame
  range : P place.range

/-! ### Calls and expressions -/

theorem yields_expandBody {one : Item → Expansion (List Item)} (s : Substitution) (range : Extent)
    (hone : ∀ i, Yields good (fun _ => True) (one i)) (body : List Item) :
    Yields good (fun _ => True) (expandBody s range one body) := by
  induction body with
  | nil => exact .pure []
  | cons i is ih =>
    rw [expandBody]
    refine .bind (.substitute s trivial i) fun j => ?_
    cases j with
    | some item => exact .bind (hone item) fun _ => .bind ih fun _ => .pure _
    | none => exact .bind (.pure []) fun _ => .bind ih fun _ => .pure _

section Places

variable {place : Place}

theorem yields_callWith (h : Sited anchor good P place) (name : String) (count : Nat)
    {bind : Signature → Expansion Bindings} (hbind : ∀ signature, Yields good P (bind signature)) :
    Yields good P (callWith place name count bind) := by
  refine .bind .tables fun t => ?_
  cases t.macros.get? name with
  | none => exact .failAt h.range _
  | some entry =>
    refine .ite (.failAt h.range _) ?_
    cases hlevel : place.below with
    | none => exact .failAt h.range _
    | some below =>
      refine .bind (hbind entry.signature) fun bound => ?_
      refine .bind .nextUnique fun unique => ?_
      refine .bind (.relocating ?_ h.range) fun is => .pure _
      refine yields_expandBody _ _ (fun i => ?_) entry.body
      exact h.below below hlevel _ _ i (h.frame.inCall h.range)
        (Item.everywhere_of_forall (fun _ => trivial) i)

theorem yields_inlineWith (h : Sited anchor good P place) (name : String) (count : Nat)
    {bind : Signature → Expansion Bindings} (hbind : ∀ signature, Yields good P (bind signature)) :
    Yields good P (inlineWith place name count bind) := by
  refine .bind (yields_callWith h name count hbind) fun items => ?_
  split
  · exact .pure _
  · exact .failAt h.range _

mutual

theorem yields_expandExpr (h : Sited anchor good P place) : ∀ e : Expr, Yields good P (expandExpr place e)
  | .literal value => by
    rw [expandExpr]
    exact .pure _
  | .ident name => by
    rw [expandExpr]
    refine .bind .tables fun t => ?_
    exact .ite (yields_inlineWith h name 0 fun _ => .pure _) (.pure _)
  | .call name arguments range => by
    rw [expandExpr]
    refine .bind .tables fun t => ?_
    refine .ite ?_ ?_
    · exact yields_inlineWith h name arguments.length fun signature => yields_bindArguments h
        signature.byReference signature.params [] arguments
    · exact .ite (.failAt h.range _) (.bind (yields_expandArguments h arguments) fun _ => .pure _)
  | .unary op operand => by
    rw [expandExpr]
    exact .bind (yields_expandExpr h operand) fun _ => .pure _
  | .binary op lhs rhs => by
    rw [expandExpr]
    exact .bind (yields_expandExpr h lhs) fun _ => .bind (yields_expandExpr h rhs) fun _ => .pure _
  | .paren inner => by
    rw [expandExpr]
    exact .bind (yields_expandExpr h inner) fun _ => .pure _

theorem yields_bindArguments (h : Sited anchor good P place) (byReference : Bool)
    (params : List MacroParam) (bound : Bindings) :
    ∀ as : List Argument, Yields good P (bindArguments place byReference params bound as)
  | [] => by
    rw [bindArguments]
    exact .pure _
  | a :: as => by
    cases params with
    | nil =>
      rw [bindArguments]
      exact .pure _
    | cons p ps =>
      rw [bindArguments]
      have hrest := fun b => yields_bindArguments h byReference ps (bindParam p b bound) as
      exact .ite (.bind (.pure a) hrest) (.bind (yields_expandArgument h a) hrest)

theorem yields_expandArguments (h : Sited anchor good P place) :
    ∀ as : List Argument, Yields good P (expandArguments place as)
  | [] => by
    rw [expandArguments]
    exact .pure _
  | a :: as => by
    rw [expandArguments]
    exact .bind (yields_expandArgument h a) fun _ => .bind (yields_expandArguments h as) fun _ => .pure _

theorem yields_expandArgument (h : Sited anchor good P place) :
    ∀ a : Argument, Yields good P (expandArgument place a)
  | .hole => by
    rw [expandArgument]
    exact .pure _
  | .expr e => by
    rw [expandArgument]
    exact .bind (yields_expandExpr h e) fun _ => .pure _
  | .parameter p => by
    rw [expandArgument]
    exact .bind (yields_expandParameter h p) fun _ => .pure _
  | .equation e => by
    rw [expandArgument]
    exact .bind (yields_expandEquation h e) fun _ => .pure _

theorem yields_expandParameter (h : Sited anchor good P place) :
    ∀ p : Parameter, Yields good P (expandParameter place p)
  | ⟨refinement, name, value⟩ => by
    rw [expandParameter]
    exact .bind (yields_expandValue h value) fun _ => .pure _

theorem yields_expandValue (h : Sited anchor good P place) :
    ∀ w : Value, Yields good P (expandValue place w)
  | .absent => by
    rw [expandValue]
    exact .pure _
  | .literal value => by
    rw [expandValue]
    exact .pure _
  | .equation e => by
    rw [expandValue]
    exact .bind (yields_expandEquation h e) fun _ => .pure _

theorem yields_expandEquation (h : Sited anchor good P place) : ∀ e : Equation, Yields good P (expandEquation place e)
  | ⟨op, body, uncertainty⟩ => by
    rw [expandEquation]
    exact .bind (yields_expandExpr h body) fun _ => .pure _

end

theorem yields_evaluate (h : Sited anchor good P place) (e : Expr) :
    Yields good P (evaluate place e) :=
  .bind (yields_expandExpr h e) fun _ => .bind .tables fun _ => .liftFault h.range _

theorem yields_holds (h : Sited anchor good P place) (c : Condition) :
    Yields good P (holds place c) := by
  cases c <;> rw [holds]
  case expr e => exact .bind (yields_evaluate h e) fun _ => .pure _
  case defined symbol negated => exact .bind .tables fun _ => .pure _
  case argument param test => exact .failAt h.range _

theorem yields_expandExprItem (h : Sited anchor good P place) (e : Expr) :
    Yields good P (expandExprItem place e) := by
  have hkeep : Yields good P (do return [(⟨.expr (← expandExpr place e), place.range⟩ : Item)]) :=
    .bind (yields_expandExpr h e) fun _ => .pure _
  refine .bind .tables fun t => ?_
  cases e with
  | call name arguments range =>
    exact .ite (yields_callWith h name arguments.length fun signature =>
      yields_bindArguments h signature.byReference signature.params [] arguments) hkeep
  | ident name => exact .ite (yields_callWith h name 0 fun _ => .pure _) hkeep
  | literal value => exact hkeep
  | unary op operand => exact hkeep
  | binary op lhs rhs => exact hkeep
  | paren inner => exact hkeep

theorem yields_expandSiteStatement (h : Sited anchor good P place) (s : SiteStatement) :
    Yields good P (expandSiteStatement place s) := by
  have hparam := yields_expandParameter h
  cases s <;> rw [expandSiteStatement]
  case coordinate axis value => exact .bind (hparam value) fun _ => .pure _
  case occupancy occ =>
    refine .bind (hparam occ.value) fun _ => ?_
    refine .bind (.mapM (fun m => ?_) occ.modifiers) fun _ => .pure _
    exact .bind (hparam m.value) fun _ => .pure _
  case scalar word value => exact .bind (hparam value) fun _ => .pure _
  case adps values =>
    refine .bind ?_ fun _ => .pure _
    refine .bind (hparam _) fun _ => ?_
    refine .bind (hparam _) fun _ => ?_
    refine .bind (hparam _) fun _ => ?_
    refine .bind (hparam _) fun _ => ?_
    refine .bind (hparam _) fun _ => ?_
    exact .bind (hparam _) fun _ => .pure _

end Places

/-! ### Items -/

/-- What fails by itself is reported, and was at a place in `P`. -/
theorem yields_independently {frame : Frame} {one : Item → Expansion (List Item)}
    (hreport : ∀ d : Diagnostic, P d.range → good ⟨d, frame.source⟩) {is : List Item}
    (hone : ∀ i ∈ is, Yields good P (one i)) : Yields good P (independently frame one is) := by
  induction is with
  | nil => exact .pure []
  | cons i is ih =>
    refine .bind (fun r => ?_) fun _ =>
      .bind (ih fun j hj => hone j (List.mem_cons_of_mem _ hj)) fun _ => .pure _
    have hi := hone i (by simp) r
    cases hrun : one i r with
    | ok items r' =>
      rw [hrun] at hi
      simpa only using hi
    | error d r' =>
      rw [hrun] at hi
      by_cases hd : d.fault = .cancelled
      · simpa only [if_pos hd] using hi
      · simp only [if_neg hd]
        obtain ⟨hplace, hextends⟩ := hi
        refine hextends.trans ⟨List.suffix_refl _, [⟨d, frame.source⟩], rfl, fun p hp => ?_⟩
        rw [List.mem_singleton.1 hp]
        exact hreport d hplace

theorem yields_includeFile {place : Place} (h : Sited anchor good P place) (path : String) :
    Yields good P (includeFile place path) := by
  unfold includeFile
  cases hlevel : place.below with
  | none => exact .failAt h.range _
  | some below =>
    refine .ask_bind ?_
    cases htext : place.config.resolver path with
    | none => exact .failAt h.range _
    | some text =>
      have hfile : ∀ d : Diagnostic, d.range.Inside (byteLength text.toList) →
          good ⟨d, (place.frame.inFile path place.range).source⟩ := fun d hd =>
        h.files path text _ d htext (h.frame _ h.range) hd
      refine .bind (.reportParsed fun d hd => hfile d (Parsed.diagnostics_inside _ text d hd))
        fun _ => .relocating (yields_independently (P := fun range =>
          range.Inside (byteLength text.toList)) hfile fun i hi => ?_).anywhere h.range
      exact h.below below hlevel _ _ i (h.frame.inFile h.range path _)
        (Parsed.items_inside _ text i hi)

theorem yields_expandDirective {place : Place} (h : Sited anchor good P place) (d : Directive) :
    Yields good P (expandDirective place d) := by
  cases d <;> rw [expandDirective]
  case includeFile path => exact yields_includeFile h path
  case out e => exact .bind (yields_evaluate h e) fun _ => .pure _
  case define name => exact .bind (.modifyTables _) fun _ => .pure _
  case undef name => exact .bind (.modifyTables _) fun _ => .pure _
  case deleteMacros names => exact .bind (.modifyTables _) fun _ => .pure _
  case prm name e =>
    exact .bind (yields_evaluate h e.body) fun _ => .bind (.modifyTables _) fun _ => .pure _
  case seed => exact .pure _

section Items

variable {config : Config} {below : Below} {frame : Frame}

mutual

theorem yields_expandItem (hfiles : GoodFiles config anchor good)
    (hbelow : YieldsBelow anchor good below) (hframe : Anchored anchor P frame) :
    ∀ i : Item, i.Everywhere (fun j => P j.range) → Yields good P (expandItem config below frame i)
  | ⟨kind, range⟩, h => by
    rw [Item.Everywhere] at h
    rw [expandItem]
    exact .bind (.checkCancelled config h.1) fun _ =>
      yields_expandKind hfiles hbelow hframe h.1 kind h.2

theorem yields_expandKind (hfiles : GoodFiles config anchor good)
    (hbelow : YieldsBelow anchor good below) (hframe : Anchored anchor P frame) {range : Extent}
    (hrange : P range) : ∀ k : ItemKind, k.Everywhere (fun j => P j.range) →
      Yields good P (expandKind ⟨config, below, frame, range⟩ k)
  | .directive d, _ => by
    rw [expandKind]
    exact yields_expandDirective ⟨hfiles, hbelow, hframe, hrange⟩ d
  | .conditional _ chain, h => by
    rw [expandKind]
    exact yields_expandChain hfiles hbelow hframe hrange chain h
  | .block items, h => by
    rw [expandKind]
    exact yields_expandItems hfiles hbelow hframe items h
  | .expr e, _ => by
    rw [expandKind]
    exact yields_expandExprItem ⟨hfiles, hbelow, hframe, hrange⟩ e
  | .bodyOp _ param, _ => by
    rw [expandKind]
    exact .failAt hrange _
  | .macroDecl isList signatures body, _ => by
    rw [expandKind]
    exact .bind (.modifyTables _) fun _ => .pure _
  | .declaration scope p, _ => by
    rw [expandKind]
    have hparam : Yields good P (expandParameter ⟨config, below, frame, range⟩ p) :=
      yields_expandParameter ⟨hfiles, hbelow, hframe, hrange⟩ p
    cases p.name with
    | none => exact .bind hparam fun _ => .pure _
    | some name => exact .bind (.modifyTables _) fun _ => .bind hparam fun _ => .pure _
  | .existing a, _ => by
    rw [expandKind]
    refine .bind .tables fun _ => ?_
    refine .ite ?_ ?_
    · exact .bind (yields_expandEquation ⟨hfiles, hbelow, hframe, hrange⟩ a.equation) fun _ => .pure _
    · exact .failAt hrange _
  | .site name members, h => by
    rw [expandKind]
    exact .bind (yields_expandItems hfiles hbelow hframe members h) fun _ => .pure _
  | .siteStatement s, _ => by
    rw [expandKind]
    exact .bind (yields_expandSiteStatement ⟨hfiles, hbelow, hframe, hrange⟩ s) fun _ => .pure _
  | .keyword word none, _ => by
    rw [expandKind]
    exact .pure _
  | .keyword word (some e), _ => by
    rw [expandKind]
    exact .bind (yields_expandEquation ⟨hfiles, hbelow, hframe, hrange⟩ e) fun _ => .pure _
  | .parameter p, _ => by
    rw [expandKind]
    exact .bind (yields_expandParameter ⟨hfiles, hbelow, hframe, hrange⟩ p) fun _ => .pure _
  | .equation e, _ => by
    rw [expandKind]
    exact .bind (yields_expandEquation ⟨hfiles, hbelow, hframe, hrange⟩ e) fun _ => .pure _
  | .assignment name e, _ => by
    rw [expandKind]
    exact .bind (yields_expandEquation ⟨hfiles, hbelow, hframe, hrange⟩ e) fun _ => .pure _

theorem yields_expandChain (hfiles : GoodFiles config anchor good)
    (hbelow : YieldsBelow anchor good below) (hframe : Anchored anchor P frame) {range : Extent}
    (hrange : P range) : ∀ c : Chain, c.Everywhere (fun j => P j.range) →
      Yields good P (expandChain ⟨config, below, frame, range⟩ c)
  | .done, _ => by
    rw [expandChain]
    exact .pure _
  | .otherwise items, h => by
    rw [expandChain]
    exact yields_expandItems hfiles hbelow hframe items h
  | .branch condition items rest, h => by
    rw [expandChain]
    exact .bind (yields_holds ⟨hfiles, hbelow, hframe, hrange⟩ condition) fun _ =>
      .ite (yields_expandItems hfiles hbelow hframe items h.1)
        (yields_expandChain hfiles hbelow hframe hrange rest h.2)

theorem yields_expandItems (hfiles : GoodFiles config anchor good)
    (hbelow : YieldsBelow anchor good below) (hframe : Anchored anchor P frame) :
    ∀ is : List Item, Item.AllEverywhere (fun j => P j.range) is →
      Yields good P (expandItems config below frame is)
  | [], _ => by
    rw [expandItems]
    exact .pure _
  | i :: is, h => by
    rw [expandItems]
    refine .bind (yields_expandItem hfiles hbelow hframe i h.1) fun _ => ?_
    exact .bind (yields_expandItems hfiles hbelow hframe is h.2) fun _ => .pure _

end

end Items

/-- **Every item adds good problems**, and fails at its own place or at that of an item in it,
however deep macros and files are nested. -/
theorem yields_itemAt {config : Config} (hfiles : GoodFiles config anchor good) (levels : Nat)
    {P : Extent → Prop} {frame : Frame} (hframe : Anchored anchor P frame) (i : Item)
    (hi : i.Everywhere (fun j => P j.range)) : Yields good P (itemAt config levels frame i) := by
  induction levels generalizing P frame i with
  | zero => exact yields_expandItem hfiles (by simp [YieldsBelow]) hframe i hi
  | succ levels ih =>
    refine yields_expandItem hfiles ?_ hframe i hi
    rintro one ⟨⟩ Q frame' j hframe' hj
    exact ih hframe' j hj

end Expansion

end ControlFile
