import ControlFile.Proofs.Expansion.Asking
import ControlFile.Proofs.Macro.Bodies
import ControlFile.Proofs.Macro.Filling

/-!
# Expanded statements

Expanding a statement changes what its values are, and neither which of them there are nor how they
are marked (`keeps_expandParameter`).  So statements that come out incomplete have been copied from the
body of a macro.  As long as the bodies of all macros are complete, so is all that is expanded
(`keeps_itemAt`).
-/

namespace ControlFile

namespace Expansion

variable {α β : Type}

/-! ### Steps that keep the bodies of macros complete -/

/-- From complete bodies of macros the step leads to complete ones, also if it fails; and `Q` holds of
what it gives. -/
def Keeps (e : Expansion α) (Q : α → Prop) : Prop :=
  ∀ r, r.tables.macros.Bodies Item.IsComplete → match e r with
    | .ok a r' => r'.tables.macros.Bodies Item.IsComplete ∧ Q a
    | .error _ r' => r'.tables.macros.Bodies Item.IsComplete

namespace Keeps

variable {e : Expansion α} {f : α → Expansion β} {P : α → Prop} {Q : β → Prop}

theorem pure {b : β} (h : Q b) : Keeps (Pure.pure b) Q := fun _ hr => ⟨hr, h⟩

theorem failAt (range : Extent) (fault : Fault) : Keeps (failAt range fault) Q := fun _ hr => hr

theorem bind (he : Keeps e P) (hf : ∀ a, P a → Keeps (f a) Q) : Keeps (e >>= f) Q := by
  intro r hr
  have hstep := he r hr
  cases hrun : e r with
  | ok a r' =>
    rw [hrun] at hstep
    rw [bind_of_ok hrun]
    exact hf a hstep.2 r' hstep.1
  | error d r' =>
    rw [hrun] at hstep
    rw [bind_of_error hrun]
    exact hstep

theorem map {g : α → β} (he : Keeps e P) (hg : ∀ a, P a → Q (g a)) :
    Keeps (e >>= fun a => Pure.pure (g a)) Q := he.bind fun a ha => .pure (hg a ha)

/-- The bodies are complete that the tables are read with. -/
theorem tables_bind {f : Tables → Expansion β}
    (h : ∀ t : Tables, t.macros.Bodies Item.IsComplete → Keeps (f t) Q) : Keeps (tables >>= f) Q :=
  fun r hr => h r.tables hr r hr

theorem modifyTables {f : Tables → Tables}
    (h : ∀ t : Tables, t.macros.Bodies Item.IsComplete → (f t).macros.Bodies Item.IsComplete) :
    Keeps (modifyTables f) fun _ => True := fun r hr => ⟨h r.tables hr, trivial⟩

theorem nextUnique : Keeps nextUnique fun _ => True := fun _ hr => ⟨hr, trivial⟩

theorem liftFault (range : Extent) (result : Except Fault α) :
    Keeps (liftFault range result) fun _ => True := by
  cases result with
  | ok a => exact .pure trivial
  | error fault => exact .failAt range fault

theorem reportParsed (config : Config) (frame : Frame) (parsed : Parsed) :
    Keeps (reportParsed config frame parsed) fun _ => True := fun _ hr => ⟨hr, trivial⟩

theorem ask (config : Config) (path : String) :
    Keeps (ask config path) fun text => text = config.resolver path := fun _ hr => ⟨hr, rfl⟩

theorem ite {c : Prop} [Decidable c] {e e' : Expansion β} (h : Keeps e Q) (h' : Keeps e' Q) :
    Keeps (if c then e else e') Q := by
  split
  · exact h
  · exact h'

theorem checkCancelled (config : Config) (range : Extent) :
    Keeps (checkCancelled config range) fun _ => True :=
  bind (e := get) (P := fun _ => True) (fun _ hr => ⟨hr, trivial⟩) fun _ _ =>
    .ite (.failAt range _) (.pure trivial)

theorem mapM {R : α → β → Prop} (h : ∀ a, Keeps (f a) (R a)) (as : List α) :
    Keeps (as.mapM f) fun bs => ∀ b ∈ bs, ∃ a ∈ as, R a b := by
  induction as with
  | nil => exact .pure (List.forall_mem_nil _)
  | cons a as ih =>
    rw [List.mapM_cons]
    refine (h a).bind fun b hb => ih.map fun bs hbs => ?_
    refine List.forall_mem_cons.2 ⟨⟨a, by simp, hb⟩, fun c hc => ?_⟩
    obtain ⟨a', ha', hc⟩ := hbs c hc
    exact ⟨a', by simp [ha'], hc⟩

theorem adps {R : α → β → Prop} (h : ∀ a, Keeps (f a) (R a)) (as : Adps α) :
    Keeps (as.mapM f) fun bs => ∀ b ∈ bs.toList, ∃ a ∈ as.toList, R a b := by
  refine (h _).bind fun b₁ h₁ => ?_
  refine (h _).bind fun b₂ h₂ => ?_
  refine (h _).bind fun b₃ h₃ => ?_
  refine (h _).bind fun b₄ h₄ => ?_
  refine (h _).bind fun b₅ h₅ => ?_
  refine (h _).bind fun b₆ h₆ => .pure ?_
  simp [Adps.toList, h₁, h₂, h₃, h₄, h₅, h₆]

/-- What is copied from a complete item is complete. -/
theorem substitute (s : Substitution) (range : Extent) {i : Item} (hi : i.Everywhere Item.IsComplete) :
    Keeps (substitute s range i) fun o => ∀ j ∈ o, j.Everywhere Item.IsComplete := by
  intro r hr
  unfold Expansion.substitute
  cases hrun : i.substitute s r.tables.uniqueCount with
  | ok j n => exact ⟨hr, Item.complete_substitute s i hi _ _ _ hrun⟩
  | error fault n => exact hr

theorem relocating {range : Extent} (he : Keeps e P) : Keeps (relocating range e) P := by
  intro r hr
  have hstep := he r hr
  unfold Expansion.relocating
  cases hrun : e r with
  | ok a r' =>
    rw [hrun] at hstep
    exact hstep
  | error d r' =>
    rw [hrun] at hstep
    exact hstep

/-- A failure that is reported gives no items. -/
theorem alone {frame : Frame} {e : Expansion (List Item)} {P : Item → Prop}
    (he : Keeps e fun is => ∀ i ∈ is, P i) : Keeps (alone frame e) fun is => ∀ i ∈ is, P i := by
  intro r hr
  have hstep := he r hr
  unfold Expansion.alone
  cases hrun : e r with
  | ok items r' =>
    rw [hrun] at hstep
    exact hstep
  | error d r' =>
    rw [hrun] at hstep
    by_cases hd : d.fault = .cancelled
    · simp only [if_pos hd]
      exact hstep
    · simp only [if_neg hd]
      exact ⟨hstep, List.forall_mem_nil _⟩

end Keeps

/-! ### Calls and expressions -/

abbrev AllComplete (is : List Item) : Prop := ∀ i ∈ is, i.Everywhere Item.IsComplete

theorem AllComplete.append {is js : List Item} (his : AllComplete is) (hjs : AllComplete js) :
    AllComplete (is ++ js) := fun i hi => (List.mem_append.1 hi).elim (his i) (hjs i)

/-- One item that has no items in it. -/
theorem AllComplete.leaf {k : ItemKind} (hleaf : k.IsLeaf) (h : k.IsComplete) (range : Extent) :
    AllComplete [⟨k, range⟩] :=
  List.forall_mem_singleton.2 (Item.everywhere_iff.2 (hleaf.allComplete h))

/-- The level below expands complete items to complete ones. -/
def KeepsBelow (below : Below) : Prop :=
  ∀ one ∈ below, ∀ frame i, i.Everywhere Item.IsComplete → Keeps (one frame i) AllComplete

theorem keeps_expandBody {one : Item → Expansion (List Item)} (s : Substitution) (range : Extent)
    (hone : ∀ i, i.Everywhere Item.IsComplete → Keeps (one i) AllComplete) {body : List Item}
    (hbody : AllComplete body) : Keeps (expandBody s range one body) AllComplete := by
  induction body with
  | nil => exact .pure (List.forall_mem_nil _)
  | cons i is ih =>
    obtain ⟨hi, his⟩ := List.forall_mem_cons.1 hbody
    rw [expandBody]
    refine (Keeps.substitute s range hi).bind fun o ho => ?_
    have hrest : ∀ produced, AllComplete produced →
        Keeps (do return produced ++ (← expandBody s range one is)) AllComplete :=
      fun produced hproduced => (ih his).map fun rest hrest => hproduced.append hrest
    cases o with
    | some j => exact (hone j (ho j rfl)).bind hrest
    | none => exact (Keeps.pure (List.forall_mem_nil _)).bind hrest

section Places

variable {place : Place}

theorem keeps_callWith (hbelow : KeepsBelow place.below) (name : String) (count : Nat)
    {bind : Signature → Expansion Bindings}
    (hbind : ∀ signature, Keeps (bind signature) fun _ => True) :
    Keeps (callWith place name count bind) AllComplete := by
  refine .tables_bind fun t ht => ?_
  cases hentry : t.macros.get? name with
  | none => exact .failAt _ _
  | some entry =>
    refine .ite (.failAt _ _) ?_
    cases hlevel : place.below with
    | none => exact .failAt _ _
    | some below =>
      refine (hbind entry.signature).bind fun bound _ => ?_
      refine Keeps.nextUnique.bind fun unique _ => ?_
      refine (Keeps.relocating (keeps_expandBody _ _ (fun i hi => ?_) (ht name entry hentry))).map ?_
      · exact hbelow below hlevel _ i hi
      · intro items hitems
        refine List.forall_mem_map.2 fun i hi => ?_
        obtain ⟨hself, hinner⟩ := Item.everywhere_iff.1 (hitems i hi)
        exact Item.everywhere_iff.2 ⟨hself, hinner⟩

theorem keeps_inlineWith (hbelow : KeepsBelow place.below) (name : String) (count : Nat)
    {bind : Signature → Expansion Bindings}
    (hbind : ∀ signature, Keeps (bind signature) fun _ => True) :
    Keeps (inlineWith place name count bind) fun _ => True := by
  refine (keeps_callWith hbelow name count hbind).bind fun items _ => ?_
  split
  · exact .pure trivial
  · exact .failAt _ _

mutual

theorem keeps_expandExpr (hbelow : KeepsBelow place.below) : ∀ e : Expr, Keeps (expandExpr place e) fun _ => True
  | .literal value => by
    rw [expandExpr]
    exact .pure trivial
  | .ident name => by
    rw [expandExpr]
    refine .tables_bind fun t _ => ?_
    exact .ite (keeps_inlineWith hbelow name 0 fun _ => .pure trivial) (.pure trivial)
  | .call name arguments range => by
    rw [expandExpr]
    refine .tables_bind fun t _ => ?_
    refine .ite ?_ ?_
    · exact keeps_inlineWith hbelow name arguments.length fun signature => keeps_bindArguments hbelow
        signature.byReference signature.params [] arguments
    · exact .ite (.failAt _ _) ((keeps_expandArguments hbelow arguments).map fun _ _ => trivial)
  | .unary op operand => by
    rw [expandExpr]
    exact (keeps_expandExpr hbelow operand).map fun _ _ => trivial
  | .binary op lhs rhs => by
    rw [expandExpr]
    exact (keeps_expandExpr hbelow lhs).bind fun _ _ => (keeps_expandExpr hbelow rhs).map fun _ _ => trivial
  | .paren inner => by
    rw [expandExpr]
    exact (keeps_expandExpr hbelow inner).map fun _ _ => trivial

theorem keeps_bindArguments (hbelow : KeepsBelow place.below) (byReference : Bool)
    (params : List MacroParam) (bound : Bindings) :
    ∀ as : List Argument, Keeps (bindArguments place byReference params bound as) fun _ => True
  | [] => by
    rw [bindArguments]
    exact .pure trivial
  | a :: as => by
    cases params with
    | nil =>
      rw [bindArguments]
      exact .pure trivial
    | cons p ps =>
      rw [bindArguments]
      have hrest := fun b (_ : True) => keeps_bindArguments hbelow byReference ps (bindParam p b bound) as
      exact .ite ((Keeps.pure trivial).bind hrest) ((keeps_expandArgument hbelow a).bind hrest)

theorem keeps_expandArguments (hbelow : KeepsBelow place.below) :
    ∀ as : List Argument, Keeps (expandArguments place as) fun _ => True
  | [] => by
    rw [expandArguments]
    exact .pure trivial
  | a :: as => by
    rw [expandArguments]
    exact (keeps_expandArgument hbelow a).bind fun _ _ => (keeps_expandArguments hbelow as).map fun _ _ => trivial

theorem keeps_expandArgument (hbelow : KeepsBelow place.below) :
    ∀ a : Argument, Keeps (expandArgument place a) fun _ => True
  | .hole => by
    rw [expandArgument]
    exact .pure trivial
  | .expr e => by
    rw [expandArgument]
    exact (keeps_expandExpr hbelow e).map fun _ _ => trivial
  | .parameter p => by
    rw [expandArgument]
    exact (keeps_expandParameter hbelow p).map fun _ _ => trivial
  | .equation e => by
    rw [expandArgument]
    exact (keeps_expandEquation hbelow e).map fun _ _ => trivial

/-- **A place for a value keeps its form.** -/
theorem keeps_expandParameter (hbelow : KeepsBelow place.below) :
    ∀ p : Parameter, Keeps (expandParameter place p) p.SameForm
  | ⟨refinement, name, value⟩ => by
    rw [expandParameter]
    exact (keeps_expandValue hbelow value).map fun w hw => ⟨rfl, rfl, hw⟩

theorem keeps_expandValue (hbelow : KeepsBelow place.below) : ∀ w : Value,
    Keeps (expandValue place w) fun w' => w'.isPresent = w.isPresent
  | .absent => by
    rw [expandValue]
    exact .pure rfl
  | .literal value => by
    rw [expandValue]
    exact .pure rfl
  | .equation e => by
    rw [expandValue]
    exact (keeps_expandEquation hbelow e).map fun _ _ => rfl

theorem keeps_expandEquation (hbelow : KeepsBelow place.below) :
    ∀ e : Equation, Keeps (expandEquation place e) fun _ => True
  | ⟨op, body, uncertainty⟩ => by
    rw [expandEquation]
    exact (keeps_expandExpr hbelow body).map fun _ _ => trivial

end

theorem keeps_evaluate (hbelow : KeepsBelow place.below) (e : Expr) : Keeps (evaluate place e) fun _ => True :=
  (keeps_expandExpr hbelow e).bind fun _ _ => .tables_bind fun _ _ => .liftFault _ _

theorem keeps_holds (hbelow : KeepsBelow place.below) (c : Condition) : Keeps (holds place c) fun _ => True := by
  cases c <;> rw [holds]
  case expr e => exact (keeps_evaluate hbelow e).map fun _ _ => trivial
  case defined symbol negated => exact .tables_bind fun _ _ => .pure trivial
  case argument param test => exact .failAt _ _

theorem keeps_expandExprItem (hbelow : KeepsBelow place.below) (e : Expr) : Keeps (expandExprItem place e) AllComplete := by
  have hkeep : Keeps (do return [(⟨.expr (← expandExpr place e), place.range⟩ : Item)]) AllComplete :=
    (keeps_expandExpr hbelow e).map fun e' _ => .leaf (k := .expr e') trivial trivial _
  refine .tables_bind fun t _ => ?_
  cases e with
  | call name arguments range =>
    exact .ite (keeps_callWith hbelow name arguments.length fun signature =>
      keeps_bindArguments hbelow signature.byReference signature.params [] arguments) hkeep
  | ident name => exact .ite (keeps_callWith hbelow name 0 fun _ => .pure trivial) hkeep
  | literal value => exact hkeep
  | unary op operand => exact hkeep
  | binary op lhs rhs => exact hkeep
  | paren inner => exact hkeep

/-- **A complete statement stays complete.** -/
theorem keeps_expandSiteStatement (hbelow : KeepsBelow place.below) {t : SiteStatement} (ht : t.IsComplete) :
    Keeps (expandSiteStatement place t) SiteStatement.IsComplete := by
  have hparam := keeps_expandParameter hbelow
  cases t <;> rw [expandSiteStatement]
  case coordinate axis value =>
    exact (hparam value).map fun q hq => ht.of_sameForm rfl (List.forall_mem_singleton.2
      ⟨value, List.mem_singleton_self _, fun _ => hq⟩)
  case occupancy occ =>
    have hmodifier : ∀ m : OccModifier, Keeps
        (do return { m with value := ← expandParameter place m.value })
        fun m' => m.value.SameForm m'.value := fun m => (hparam m.value).map fun _ hq => hq
    refine (hparam occ.value).bind fun q hq => ?_
    refine (Keeps.mapM hmodifier occ.modifiers).map fun ms hms => ?_
    refine ht.of_sameForm rfl (List.forall_mem_cons.2 ⟨⟨occ.value, List.mem_cons_self, fun _ => hq⟩,
      ?_⟩)
    refine List.forall_mem_map.2 fun m' hm' => ?_
    obtain ⟨m, hm, hform⟩ := hms m' hm'
    exact ⟨m.value, List.mem_cons_of_mem _ (List.mem_map_of_mem hm), fun _ => hform⟩
  case scalar word value =>
    exact (hparam value).map fun q hq => ht.of_sameForm rfl (List.forall_mem_singleton.2
      ⟨value, List.mem_singleton_self _, fun _ => hq⟩)
  case adps values =>
    refine (Keeps.adps hparam values).map fun qs hqs => ht.of_sameForm rfl fun q hq => ?_
    obtain ⟨p, hp, hform⟩ := hqs q hq
    exact ⟨p, hp, fun _ => hform⟩

end Places

/-! ### Items -/

theorem keeps_independently (frame : Frame) {one : Item → Expansion (List Item)} {is : List Item}
    (hone : ∀ i ∈ is, Keeps (one i) AllComplete) : Keeps (independently frame one is) AllComplete := by
  induction is with
  | nil => exact .pure (List.forall_mem_nil _)
  | cons i is ih =>
    obtain ⟨hi, his⟩ := List.forall_mem_cons.1 hone
    rw [independently_cons]
    refine hi.alone.bind fun produced hproduced => ?_
    refine (ih his).map fun rest hrest => ?_
    exact AllComplete.append hproduced hrest

/-- The bodies of all macros are complete in all texts that there are. -/
def FilesComplete (config : Config) : Prop :=
  ∀ path text, config.resolver path = some text →
    AllComplete (Parsed.ofText config.vocabulary text).items

section Places

variable {place : Place}

theorem keeps_includeFile (hfiles : FilesComplete place.config) (hbelow : KeepsBelow place.below)
    (path : String) : Keeps (includeFile place path) AllComplete := by
  unfold includeFile
  cases hlevel : place.below with
  | none => exact .failAt _ _
  | some below =>
    refine (Keeps.ask _ path).bind fun text htext => ?_
    cases text with
    | none => exact .failAt _ _
    | some text =>
      refine (Keeps.reportParsed _ _ _).bind fun _ _ => .relocating ?_
      exact keeps_independently _ fun i hi => hbelow below hlevel _ i (hfiles path text htext.symm i hi)

theorem keeps_expandDirective (hfiles : FilesComplete place.config)
    (hbelow : KeepsBelow place.below) (d : Directive) :
    Keeps (expandDirective place d) AllComplete := by
  have hstay : AllComplete [⟨.directive d, place.range⟩] :=
    .leaf (k := .directive d) trivial trivial _
  cases d <;> rw [expandDirective]
  case includeFile path => exact keeps_includeFile hfiles hbelow path
  case out e =>
    exact (keeps_evaluate hbelow e).map fun _ _ => .leaf (k := .expr _) trivial trivial _
  case define name => exact (Keeps.modifyTables fun _ ht => ht).map fun _ _ => hstay
  case undef name => exact (Keeps.modifyTables fun _ ht => ht).map fun _ _ => hstay
  case deleteMacros names =>
    exact (Keeps.modifyTables fun _ ht => ht.deleteAll names).map fun _ _ => hstay
  case prm name e =>
    refine (keeps_evaluate hbelow e.body).bind fun _ _ => ?_
    exact (Keeps.modifyTables fun _ ht => ht).map fun _ _ => hstay
  case seed => exact .pure hstay

end Places

section Items

variable {config : Config} {below : Below} {frame : Frame}

mutual

theorem keeps_expandItem (hfiles : FilesComplete config) (hbelow : KeepsBelow below) :
    ∀ i : Item, i.Everywhere Item.IsComplete → Keeps (expandItem config below frame i) AllComplete
  | ⟨kind, range⟩, h => by
    rw [expandItem]
    exact (Keeps.checkCancelled config range).bind fun _ _ =>
      keeps_expandKind hfiles hbelow kind (Item.everywhere_iff.1 h)

theorem keeps_expandKind (hfiles : FilesComplete config) (hbelow : KeepsBelow below)
    {range : Extent} : ∀ k : ItemKind, k.AllComplete →
      Keeps (expandKind ⟨config, below, frame, range⟩ k) AllComplete
  | .directive d, _ => by
    rw [expandKind]
    exact keeps_expandDirective hfiles hbelow d
  | .conditional _ chain, h => by
    rw [expandKind]
    exact keeps_expandChain hfiles hbelow chain h.2
  | .block items, h => by
    rw [expandKind]
    exact keeps_expandItems hfiles hbelow items h.2
  | .expr e, _ => by
    rw [expandKind]
    exact keeps_expandExprItem hbelow e
  | .bodyOp _ param, _ => by
    rw [expandKind]
    exact .failAt _ _
  | .macroDecl isList signatures body, h => by
    rw [expandKind]
    exact (Keeps.modifyTables fun _ ht => ht.register signatures
      (Item.allEverywhere_iff.1 h.2)).map fun _ _ =>
        List.forall_mem_singleton.2 (Item.everywhere_iff.2 h)
  | .declaration scope p, h => by
    rw [expandKind]
    have hparam : Keeps (do return [(⟨.declaration scope (← expandParameter
        ⟨config, below, frame, range⟩ p), range⟩ : Item)]) AllComplete :=
      (keeps_expandParameter hbelow p).map fun q hq => .leaf (k := .declaration scope q) trivial
        ⟨hq.name.trans h.1.1, hq.value.trans h.1.2⟩ _
    cases p.name with
    | none => exact hparam
    | some name =>
      exact (Keeps.modifyTables (f := (·.declare name)) fun _ ht => ht).bind fun _ _ => hparam
  | .existing a, _ => by
    rw [expandKind]
    refine .tables_bind fun _ _ => ?_
    refine .ite ?_ ?_
    · refine (keeps_expandEquation hbelow a.equation).map fun _ _ => ?_
      exact .leaf (k := .existing _) trivial trivial _
    · exact .failAt _ _
  | .site name members, h => by
    rw [expandKind]
    exact (keeps_expandItems hfiles hbelow members h.2).map fun ms hms =>
      List.forall_mem_singleton.2 (Item.everywhere_iff.2 ⟨trivial, Item.allEverywhere_iff.2 hms⟩)
  | .siteStatement s, h => by
    rw [expandKind]
    exact (keeps_expandSiteStatement hbelow h.1).map fun t ht =>
      .leaf (k := .siteStatement t) trivial ht _
  | .keyword word none, _ => by
    rw [expandKind]
    exact .pure (.leaf (k := .keyword ..) trivial trivial _)
  | .keyword word (some e), _ => by
    rw [expandKind]
    exact (keeps_expandEquation hbelow e).map fun _ _ => .leaf (k := .keyword ..) trivial trivial _
  | .parameter p, _ => by
    rw [expandKind]
    exact (keeps_expandParameter hbelow p).map fun _ _ => .leaf (k := .parameter _) trivial trivial _
  | .equation e, _ => by
    rw [expandKind]
    exact (keeps_expandEquation hbelow e).map fun _ _ => .leaf (k := .equation _) trivial trivial _
  | .assignment name e, _ => by
    rw [expandKind]
    exact (keeps_expandEquation hbelow e).map fun _ _ => .leaf (k := .assignment ..) trivial trivial _

theorem keeps_expandChain (hfiles : FilesComplete config) (hbelow : KeepsBelow below)
    {range : Extent} : ∀ c : Chain, c.Everywhere Item.IsComplete →
      Keeps (expandChain ⟨config, below, frame, range⟩ c) AllComplete
  | .done, _ => by
    rw [expandChain]
    exact .pure (List.forall_mem_nil _)
  | .otherwise items, h => by
    rw [expandChain]
    exact keeps_expandItems hfiles hbelow items h
  | .branch condition items rest, h => by
    rw [expandChain]
    exact (keeps_holds hbelow condition).bind fun _ _ =>
      .ite (keeps_expandItems hfiles hbelow items h.1) (keeps_expandChain hfiles hbelow rest h.2)

theorem keeps_expandItems (hfiles : FilesComplete config) (hbelow : KeepsBelow below) :
    ∀ is : List Item, Item.AllEverywhere Item.IsComplete is →
      Keeps (expandItems config below frame is) AllComplete
  | [], _ => by
    rw [expandItems]
    exact .pure (List.forall_mem_nil _)
  | i :: is, h => by
    rw [expandItems]
    refine (keeps_expandItem hfiles hbelow i h.1).bind fun _ hproduced => ?_
    exact (keeps_expandItems hfiles hbelow is h.2).map fun _ hrest => hproduced.append hrest

end

end Items

/-- **Complete items are expanded to complete ones**, however deep macros and files are nested. -/
theorem keeps_itemAt {config : Config} (hfiles : FilesComplete config) (levels : Nat) (frame : Frame)
    {i : Item} (hi : i.Everywhere Item.IsComplete) : Keeps (itemAt config levels frame i) AllComplete := by
  induction levels generalizing frame i with
  | zero => exact keeps_expandItem hfiles (by rintro _ ⟨⟩) i hi
  | succ levels ih =>
    refine keeps_expandItem hfiles ?_ i hi
    rintro one ⟨⟩ frame j hj
    exact ih frame hj

/-- The items of a text are complete, and so are the bodies of macros behind it. -/
theorem keeps_rootExpansion {config : Config} (hfiles : FilesComplete config) {parsed : Parsed}
    (hitems : AllComplete parsed.items) :
    Keeps (Expander.rootExpansion config parsed) AllComplete :=
  (Keeps.reportParsed config .root parsed).bind fun _ _ =>
    keeps_independently .root fun i hi => keeps_itemAt hfiles _ .root (hitems i hi)

end Expansion

/-- No statement in the body of a macro leaves a place open, or lacks a part. -/
def HasCompleteBodies (v : Vocabulary) (text : String) : Prop :=
  ∀ i ∈ (Parsed.ofText v text).items, i.Everywhere (Item.InBody Item.IsComplete)

instance (v : Vocabulary) (text : String) : Decidable (HasCompleteBodies v text) :=
  inferInstanceAs (Decidable (∀ i ∈ _, _))

/-- Outside the bodies of macros there is nothing else in a text. -/
theorem HasCompleteBodies.allComplete {v : Vocabulary} {text : String} (h : HasCompleteBodies v text) :
    Expansion.AllComplete (Parsed.ofText v text).items :=
  fun i hi => (Parsed.items_complete v text i hi).everywhere (h i hi)

open Expander (rootExpansion documentOf)

/-- **Expansion keeps statements complete.**  Let no body of a macro have an open place in it, be it in
the text or in one that is included.  Then in all that the text becomes, every declaration outside the
bodies of macros has a name and a value, every place for a value in a statement of a site has one or is
a mark alone, and no fixed value is marked. -/
theorem Session.parse_complete (s : Session) (text : String)
    (htext : HasCompleteBodies s.vocabulary text)
    (hincluded : ∀ path ∈ s.asked text, ∀ included, s.resolver path = some included →
      HasCompleteBodies s.vocabulary included) :
    ∀ i ∈ (s.parse text).items, i.Outside Item.IsComplete := by
  -- Only the texts that are asked for are known to be complete: all others are taken away.
  let asked : Resolver := fun path => if path ∈ s.asked text then s.resolver path else none
  have hsame : (s.withResolver asked).parse text = s.parse text :=
    s.parse_withResolver asked text fun path hpath => if_pos hpath
  rw [← hsame]
  have hfiles : Expansion.FilesComplete (s.withResolver asked).config := by
    intro path included hpath
    by_cases hmem : path ∈ s.asked text
    · have hresolve : s.resolver path = some included := (if_pos hmem).symm.trans hpath
      exact (hincluded path hmem included hresolve).allComplete
    · have hnone : asked path = none := if_neg hmem
      exact absurd (hnone.symm.trans hpath) (by simp)
  have hrun := Expansion.keeps_rootExpansion hfiles htext.allComplete ⟨.empty, [], [], []⟩
    MacroTable.bodies_empty
  cases hroot : rootExpansion (s.withResolver asked).config (Parsed.ofText s.vocabulary text)
      ⟨.empty, [], [], []⟩ with
  | ok items r =>
    rw [hroot] at hrun
    have hdocument : (s.withResolver asked).parse text = ⟨items, r.problems, r.comments, r.tables⟩ :=
      congrArg documentOf hroot
    rw [hdocument]
    exact fun i hi => (hrun.2 i hi).outside
  | error d r =>
    have hdocument : (s.withResolver asked).parse text = ⟨[], [⟨d, .root⟩], [], r.tables⟩ :=
      congrArg documentOf hroot
    rw [hdocument]
    exact List.forall_mem_nil _

/-- Arguments get into the statements of an included macro, and none of them is a whole place. -/
theorem Session.parse_complete_include :
    let file := "macro foo(p, q) \x7b prm q = p; site s x @ q 1 rand_xyz = 2 p; #ifdef A y @ #endif \x7d"
    let s := Session.standard.withResolver (.ofFiles [("f", file)])
    let text := "#include \"f\" #define A foo(3 + 4, width) local z 3"
    HasCompleteBodies s.vocabulary text ∧
      (∀ path ∈ s.asked text, ∀ included, s.resolver path = some included →
        HasCompleteBodies s.vocabulary included) ∧
      s.asked text = ["f"] ∧ (s.parse text).isOk = true ∧ (s.parse text).items.length = 5 ∧
      ∀ i ∈ (s.parse text).items, i.Outside Item.IsComplete := by
  intro file s text
  have htext : HasCompleteBodies s.vocabulary text := by decide +kernel
  have hfile : HasCompleteBodies s.vocabulary file := by decide +kernel
  have hasked : s.asked text = ["f"] := by decide +kernel
  have hincluded : ∀ path ∈ s.asked text, ∀ included, s.resolver path = some included →
      HasCompleteBodies s.vocabulary included := by
    rw [hasked]
    intro path hpath included h
    obtain rfl := List.mem_singleton.1 hpath
    cases h
    exact hfile
  exact ⟨htext, hincluded, hasked, by decide +kernel, by decide +kernel,
    Session.parse_complete s text htext hincluded⟩

/-- A marked argument gets into a place for a fixed value, and nothing is reported. -/
theorem Session.not_complete_of_isOk :
    ¬∀ (s : Session) (text : String), (s.parse text).isOk = true →
      ∀ i ∈ (s.parse text).items, i.Outside Item.IsComplete := by
  intro h
  have hitems := h .standard "macro foo(p) \x7b rand_xyz p \x7d foo(@ 1)" (by decide +kernel)
  have hself : ∀ i ∈ (Session.standard.parse "macro foo(p) \x7b rand_xyz p \x7d foo(@ 1)").items,
      i.IsComplete := fun i hi => (hitems i hi).self
  exact absurd hself (by decide +kernel)

end ControlFile
