import ControlFile.Proofs.Expansion.Expander
import ControlFile.Proofs.Macro.Copies

/-!
# The machine follows the expansion

`Tracks limit levels frame m e` says that the step `m` of the machine ends, with the result and the
run of the step `e` of an expansion, whenever the machine has `levels` levels left below `limit`
and its registers say `frame`.  It also says what the machine has done to itself (`Keeps`): the
registers are as they were, every depth it has set is within the limit, and the record of the unique
names keeps up with their number.

`Tracks` is closed under sequencing (`Tracks.bind`), so each function of the machine needs one
lemma, which follows its text.  The two functions that set registers are `includeFile` and
`callBody`.  `tracks_process` ties the levels together, by induction on their number: one more unit
of fuel than there are levels is enough.
-/

namespace ControlFile

/-- The tables, with another number of unique names given out. -/
def Tables.withUniqueCount (n : Nat) (t : Tables) : Tables := { t with uniqueCount := n }

namespace Expansion

variable {α β : Type} {e : Expansion α} {g : α → Expansion β} {r r' : Run}

theorem bind_of_ok {a : α} (h : e r = .ok a r') : (e >>= g) r = g a r' := by
  change EStateM.bind e g r = _
  rw [EStateM.bind, h]

theorem bind_of_error {d : Diagnostic} (h : e r = .error d r') : (e >>= g) r = .error d r' := by
  change EStateM.bind e g r = _
  rw [EStateM.bind, h]

theorem bind_congr {e' : Expansion α} (h : e r = e' r) : (e >>= g) r = (e' >>= g) r := by
  change EStateM.bind e g r = EStateM.bind e' g r
  rw [EStateM.bind, EStateM.bind, h]

end Expansion

namespace Expander

open Expansion (Below Place itemAt expandItem)

variable {α β : Type}

/-! ### Sequencing -/

theorem bind_of_ok {m : Expanding α} {f : α → Expanding β} {x y : Expander} {a : α}
    (h : m x = some (.ok a, y)) : (m >>= f) x = f a y := by
  change (m x).bind _ = _
  rw [h]
  rfl

theorem bind_of_error {m : Expanding α} {f : α → Expanding β} {x y : Expander} {d : Diagnostic}
    (h : m x = some (.error d, y)) : (m >>= f) x = some (.error d, y) := by
  change (m x).bind _ = _
  rw [h]
  rfl

/-! ### What a step leaves behind -/

/-- The unique names that have been returned are the first ones, as many as there are by the count. -/
def Numbered (x : Expander) : Prop := x.given = uniqueNames x.run.tables.uniqueCount

/-- What is the same, or accounted for, between an expander and a later one. -/
structure Keeps (limit : Nat) (x y : Expander) : Prop where
  depth : y.depth = x.depth
  source : y.source = x.source
  callSite : y.callSite = x.callSite
  depths : ∃ ds, y.depths = ds ++ x.depths ∧ ∀ d ∈ ds, d ≤ limit
  given : x.Numbered → y.Numbered

namespace Keeps

variable {limit : Nat} {x y z : Expander}

theorem frame (h : Keeps limit x y) : y.frame = x.frame := by
  unfold Expander.frame
  rw [h.source, h.callSite]

/-- A step that changes no register. -/
theorem ofGiven {run : Run} {given : List String}
    (h : x.Numbered → given = uniqueNames run.tables.uniqueCount) :
    Keeps limit x { x with run, given } where
  depth := rfl
  source := rfl
  callSite := rfl
  depths := ⟨[], rfl, by simp⟩
  given := h

/-- A step that changes the run and gives out no names. -/
theorem ofRun {run : Run} (h : run.tables.uniqueCount = x.run.tables.uniqueCount) :
    Keeps limit x { x with run } := ofGiven fun hx => h ▸ hx

theorem refl (limit : Nat) (x : Expander) : Keeps limit x x := ofRun rfl

theorem trans (hxy : Keeps limit x y) (hyz : Keeps limit y z) : Keeps limit x z := by
  obtain ⟨ds, hds, hdl⟩ := hxy.depths
  obtain ⟨es, hes, hel⟩ := hyz.depths
  refine ⟨hyz.depth.trans hxy.depth, hyz.source.trans hxy.source,
    hyz.callSite.trans hxy.callSite, ⟨es ++ ds, ?_, ?_⟩, fun hx => hyz.given (hxy.given hx)⟩
  · rw [hes, hds, List.append_assoc]
  · intro d hd
    exact (List.mem_append.1 hd).elim (hel d) (hdl d)

end Keeps

/-! ### Following an expansion -/

/-- The result of a step, and the run after it. -/
def outcome : EStateM.Result Diagnostic Run α → Except Diagnostic α × Run
  | .ok a r => (.ok a, r)
  | .error d r => (.error d, r)

/-- The machine ends with what the expansion comes to. -/
def Tracks (limit levels : Nat) (frame : Frame) (m : Expanding α) (e : Expansion α) : Prop :=
  ∀ x : Expander, limit - x.depth = levels → x.frame = frame →
    ∃ y, m x = some ((outcome (e x.run)).1, y) ∧ y.run = (outcome (e x.run)).2 ∧ Keeps limit x y

namespace Tracks

variable {limit levels : Nat} {frame : Frame}

theorem pure (a : α) : Tracks limit levels frame (Pure.pure a) (Pure.pure a) :=
  fun x _ _ => ⟨x, rfl, rfl, .refl limit x⟩

theorem failAt (range : Extent) (fault : Fault) :
    Tracks limit levels frame (Expander.failAt range fault : Expanding α)
      (Expansion.failAt range fault) :=
  fun x _ _ => ⟨x, rfl, rfl, .refl limit x⟩

theorem tables : Tracks limit levels frame Expander.tables Expansion.tables :=
  fun x _ _ => ⟨x, rfl, rfl, .refl limit x⟩

/-- A change of the tables that gives out no unique name. -/
theorem modifyTables {f : Tables → Tables} (h : ∀ t, (f t).uniqueCount = t.uniqueCount) :
    Tracks limit levels frame (Expander.modifyTables f) (Expansion.modifyTables f) :=
  fun x _ _ => ⟨_, rfl, rfl, .ofRun (h x.run.tables)⟩

/-- A step that gives out no unique name. -/
theorem perform {e : Expansion α}
    (h : ∀ r, (outcome (e r)).2.tables.uniqueCount = r.tables.uniqueCount) :
    Tracks limit levels frame (Expander.perform e) e := by
  intro x _ _
  refine ⟨{ x with run := (outcome (e x.run)).2 }, ?_, rfl, .ofRun (h x.run)⟩
  unfold Expander.perform ExceptT.mk
  cases he : e x.run <;> simp only [he, outcome]

/-- **The name that is returned is the next one**, and is noted. -/
theorem nextUnique : Tracks limit levels frame Expander.nextUnique Expansion.nextUnique := by
  intro x _ _
  refine ⟨_, rfl, rfl, .ofGiven fun hx => ?_⟩
  exact (congrArg (· ++ [uniqueName (x.run.tables.uniqueCount + 1)]) hx).trans
    (uniqueNames_succ x.run.tables.uniqueCount).symm

/-- The names that a copy is given are noted. -/
theorem substitute (s : Substitution) (range : Extent) (i : Item) :
    Tracks limit levels frame (Expander.substitute s range i) (Expansion.substitute s range i) := by
  intro x _ _
  have hnotes := i.notes_note (s := s) x.run.tables.uniqueCount x.given
  unfold Expander.substitute Expansion.substitute ExceptT.mk
  cases hcopy : i.substitute s x.run.tables.uniqueCount with
  | ok j n =>
    rw [hcopy] at hnotes
    obtain ⟨given, hnote, hgiven⟩ := hnotes
    simp only [hnote]
    exact ⟨_, rfl, rfl, .ofGiven hgiven⟩
  | error fault n =>
    rw [hcopy] at hnotes
    obtain ⟨given, hnote, hgiven⟩ := hnotes
    simp only [hnote]
    exact ⟨_, rfl, rfl, .ofGiven hgiven⟩

theorem bind {m : Expanding α} {e : Expansion α} {f : α → Expanding β} {g : α → Expansion β}
    (hm : Tracks limit levels frame m e) (hf : ∀ a, Tracks limit levels frame (f a) (g a)) :
    Tracks limit levels frame (m >>= f) (e >>= g) := by
  intro x hx hframe
  obtain ⟨y, hy, hrun, hkeeps⟩ := hm x hx hframe
  cases he : e x.run with
  | ok a r =>
    rw [he] at hy hrun
    obtain ⟨z, hz, hzrun, hzkeeps⟩ :=
      hf a y (by rw [hkeeps.depth]; exact hx) (by rw [hkeeps.frame]; exact hframe)
    subst hrun
    rw [bind_of_ok hy, Expansion.bind_of_ok he]
    exact ⟨z, hz, hzrun, hkeeps.trans hzkeeps⟩
  | error d r =>
    rw [he] at hy hrun
    rw [bind_of_error hy, Expansion.bind_of_error he]
    exact ⟨y, rfl, hrun, hkeeps⟩

theorem ite {c : Prop} [Decidable c] {m m' : Expanding α} {e e' : Expansion α}
    (hm : Tracks limit levels frame m e) (hm' : Tracks limit levels frame m' e') :
    Tracks limit levels frame (if c then m else m') (if c then e else e') := by
  split
  · exact hm
  · exact hm'

end Tracks

/-! ### Items one behind the other -/

section Sequences

variable {limit levels : Nat} {frame : Frame} {again : Item → Expanding (List Item)}
  {one : Item → Expansion (List Item)}

theorem tracks_processBody (hone : ∀ i, Tracks limit levels frame (again i) (one i))
    (s : Substitution) (range : Extent) (body : List Item) :
    Tracks limit levels frame (processBody again range s body)
      (Expansion.expandBody s range one body) := by
  induction body with
  | nil => exact .pure []
  | cons i is ih =>
    rw [processBody, Expansion.expandBody]
    refine .bind (.substitute s range i) fun j => ?_
    cases j with
    | some item => exact .bind (hone item) fun produced => .bind ih fun rest => .pure _
    | none => exact .bind (.pure []) fun produced => .bind ih fun rest => .pure _

/-- A diagnostic does not touch the tables. -/
theorem Keeps.report (limit : Nat) (x : Expander) (d : Diagnostic) :
    Keeps limit x
      { x with run := { x.run with problems := x.run.problems ++ [⟨d, x.source⟩] } } := .ofRun rfl

theorem tracks_processAlone {i : Item} (h : Tracks limit levels frame (again i) (one i)) :
    Tracks limit levels frame (processAlone again i) fun r =>
      match one i r with
      | .ok items r' => .ok items r'
      | .error d r' =>
        if d.fault = .cancelled then .error d r'
        else (do Expansion.report frame d; return []) r' := by
  intro x hx hframe
  obtain ⟨y, hy, hrun, hkeeps⟩ := h x hx hframe
  change ∃ z, (again i x).bind _ = _ ∧ _
  rw [hy]
  cases he : one i x.run with
  | ok items r =>
    rw [he] at hrun
    simp only [he]
    exact ⟨y, rfl, hrun, hkeeps⟩
  | error d r =>
    rw [he] at hrun
    simp only [he]
    by_cases hd : d.fault = .cancelled
    · simp only [if_pos hd]
      refine ⟨y, ?_, hrun, hkeeps⟩
      change (if d.fault = .cancelled then _ else _ : Machine _) y = _
      rw [if_pos hd]
      rfl
    · simp only [if_neg hd]
      refine ⟨_, ?_, ?_, hkeeps.trans (.report limit y d)⟩
      · change (if d.fault = .cancelled then _ else _ : Machine _) y = _
        rw [if_neg hd]
        rfl
      · rw [hrun, hkeeps.source, ← hframe]
        rfl

theorem tracks_processAll (hone : ∀ i, Tracks limit levels frame (again i) (one i))
    (items : List Item) :
    Tracks limit levels frame (processAll again items)
      (Expansion.independently frame one items) := by
  induction items with
  | nil => exact .pure []
  | cons i is ih =>
    rw [processAll, Expansion.independently]
    exact .bind (tracks_processAlone (hone i)) fun produced => .bind ih fun rest => .pure _

end Sequences

/-! ### Where registers are set -/

section Registers

variable {limit levels : Nat} {frame : Frame} {config : Config}
  {again : Item → Expanding (List Item)}

/-- The expander one level deeper, in the given text and call. -/
def enter (source : Source) (callSite : Option Extent) (x : Expander) : Expander :=
  { x with source, callSite, depth := x.depth + 1, depths := (x.depth + 1) :: x.depths }

/-- The expander one level up again, in the given text and call. -/
def leave (source : Source) (callSite : Option Extent) (y : Expander) : Expander :=
  { y with source, callSite, depth := y.depth - 1, depths := (y.depth - 1) :: y.depths }

/-- **Registers are set back.** What goes one level deeper and comes back keeps them. -/
theorem Keeps.leave {x y : Expander} {source source' : Source} {callSite callSite' : Option Extent}
    (h : Keeps limit (x.enter source callSite) y) (hx : x.depth + 1 ≤ limit)
    (hsource : source' = x.source) (hcall : callSite' = x.callSite) :
    Keeps limit x (y.leave source' callSite') := by
  have hdepth : y.depth = x.depth + 1 := h.depth
  obtain ⟨ds, hds, hlimit⟩ := h.depths
  refine ⟨?_, hsource, hcall, ⟨(y.depth - 1) :: (ds ++ [x.depth + 1]), ?_, ?_⟩, h.given⟩
  · change y.depth - 1 = x.depth
    omega
  · change (y.depth - 1) :: y.depths = _
    rw [hds]
    simp [enter]
  · intro d hd
    simp only [List.mem_cons, List.mem_append, List.not_mem_nil, or_false] at hd
    rcases hd with rfl | hd | rfl
    · omega
    · exact hlimit d hd
    · exact hx

theorem tracks_freshBody {one : Item → Expansion (List Item)}
    (hone : ∀ i, Tracks limit levels frame (again i) (one i))
    (range : Extent) (bound : Bindings) (body : List Item) :
    Tracks limit levels frame (freshBody again range bound body) (do
      let unique ← Expansion.nextUnique
      Expansion.expandBody ⟨bound, unique⟩ range one body) :=
  .bind .nextUnique fun unique => tracks_processBody hone ⟨bound, unique⟩ range body

/-- A fault that is moved is a fault of the same step. -/
theorem outcome_relocating (range : Extent) (e : Expansion α) (r : Run) :
    outcome (Expansion.relocating range e r) =
      ((outcome (e r)).1.mapError (·.moveTo range), (outcome (e r)).2) := by
  unfold Expansion.relocating
  cases e r <;> rfl

theorem outcome_bind_pure (e : Expansion α) (f : α → β) (r : Run) :
    outcome ((e >>= fun a => pure (f a)) r) = ((outcome (e r)).1.map f, (outcome (e r)).2) := by
  cases he : e r with
  | ok a r' =>
    rw [Expansion.bind_of_ok he]
    rfl
  | error d r' =>
    rw [Expansion.bind_of_error he]
    rfl

/-- What the body of a called macro does to the registers. -/
theorem callBody_apply (range : Extent) (bound : Bindings) (body : List Item) (x : Expander) :
    callBody again range bound body x =
      (freshBody again range bound body (x.enter x.source (x.callSite.or (some range)))).map
        fun (result, y) =>
          ((result.mapError (·.moveTo range)).map (·.map fun i => { i with range }),
            y.leave y.source x.callSite) := by
  change (freshBody again range bound body
    (x.enter x.source (x.callSite.or (some range)))).bind _ = _
  cases freshBody again range bound body (x.enter x.source (x.callSite.or (some range))) with
  | none => rfl
  | some p =>
    obtain ⟨result, y⟩ := p
    cases result <;> rfl

theorem nextUnique_bind (g : String → Expansion α) (r : Run) :
    (Expansion.nextUnique >>= g) r =
      g (uniqueName (r.tables.uniqueCount + 1))
        { r with tables := r.tables.withUniqueCount (r.tables.uniqueCount + 1) } := rfl

theorem tracks_callBody
    (hone : ∀ frame i, Tracks limit levels frame (again i) (itemAt config levels frame i))
    (range : Extent) (bound : Bindings) (body : List Item) :
    Tracks limit (levels + 1) frame (callBody again range bound body) (do
      let unique ← Expansion.nextUnique
      let items ← Expansion.relocating range
        (Expansion.expandBody ⟨bound, unique⟩ range (itemAt config levels (frame.inCall range)) body)
      return items.map fun i => { i with range }) := by
  intro x hx hframe
  obtain ⟨y, hy, hrun, hkeeps⟩ := tracks_freshBody (hone (frame.inCall range)) range bound body
    (x.enter x.source (x.callSite.or (some range)))
    (by change limit - (x.depth + 1) = levels; omega)
    (by rw [← hframe]; rfl)
  rw [nextUnique_bind] at hy hrun ⊢
  rw [outcome_bind_pure, outcome_relocating]
  refine ⟨y.leave y.source x.callSite, ?_, hrun, hkeeps.leave (by omega) hkeeps.source rfl⟩
  rw [callBody_apply, hy]
  rfl

/-- The run behind the question for `path` and the report on its text. -/
def askedRun (config : Config) (frame : Frame) (range : Extent) (path text : String) (r : Run) :
    Run :=
  (outcome (Expansion.reportParsed config (frame.inFile path range)
    (Parsed.ofText config.vocabulary text) { r with asked := path :: r.asked })).2

/-- What an included file does to the registers. -/
theorem includeFile_apply {range : Extent} {path text : String} (x : Expander)
    (hx : x.depth < config.options.maxDepth) (htext : config.resolver path = some text) :
    includeFile config again range path x =
      (processAll again (Parsed.ofText config.vocabulary text).items
        ({ x with run := askedRun config x.frame range path text x.run }.enter
          (.included path (x.frame.directiveAt range)) x.callSite)).map
        fun (result, y) => (result.mapError (·.moveTo range), y.leave x.source y.callSite) := by
  change (if config.options.maxDepth ≤ x.depth then _ else _ : Machine _) x = _
  rw [if_neg (by omega)]
  simp only [htext]
  change (processAll again (Parsed.ofText config.vocabulary text).items
    ({ x with run := askedRun config x.frame range path text x.run }.enter
      (.included path (x.frame.directiveAt range)) x.callSite)).bind _ = _
  generalize processAll again _ _ = ended
  cases ended with
  | none => rfl
  | some p =>
    obtain ⟨result, y⟩ := p
    cases result <;> rfl

/-- What an item is expanded with below `levels` levels. -/
def belowAt (config : Config) : Nat → Below
  | 0 => none
  | levels + 1 => some (itemAt config levels)

theorem itemAt_eq (config : Config) (levels : Nat) (frame : Frame) (i : Item) :
    itemAt config levels frame i = expandItem config (belowAt config levels) frame i := by
  cases levels <;> rfl

/-- The items of the level below are followed, if there is such a level. -/
def TracksBelow (config : Config) (again : Item → Expanding (List Item)) : Nat → Prop
  | 0 => True
  | levels + 1 => ∀ frame i, Tracks config.options.maxDepth levels frame (again i)
      (itemAt config levels frame i)

theorem expand_includeFile_of_none {below : Frame → Item → Expansion (List Item)} {range : Extent}
    {path : String} (htext : config.resolver path = none) (r : Run) :
    Expansion.includeFile ⟨config, some below, frame, range⟩ path r =
      .error ⟨.includeNotFound path, range⟩ { r with asked := path :: r.asked } := by
  unfold Expansion.includeFile Expansion.ask
  simp only [htext]
  rfl

theorem expand_includeFile_of_some {below : Frame → Item → Expansion (List Item)} {range : Extent}
    {path text : String} (htext : config.resolver path = some text) (r : Run) :
    Expansion.includeFile ⟨config, some below, frame, range⟩ path r =
      Expansion.relocating range
        (Expansion.independently (frame.inFile path range) (below (frame.inFile path range))
          (Parsed.ofText config.vocabulary text).items)
        (askedRun config frame range path text r) := by
  unfold Expansion.includeFile Expansion.ask
  simp only [htext]
  rfl

theorem tracks_includeFile (hbelow : TracksBelow config again levels) (range : Extent) (path : String) :
    Tracks config.options.maxDepth levels frame (includeFile config again range path)
      (Expansion.includeFile ⟨config, belowAt config levels, frame, range⟩ path) := by
  intro x hx hframe
  cases levels with
  | zero =>
    refine ⟨x, ?_, rfl, .refl _ x⟩
    change (if config.options.maxDepth ≤ x.depth then _ else _ : Machine _) x = _
    rw [if_pos (by omega)]
    rfl
  | succ levels =>
    cases htext : config.resolver path with
    | none =>
      rw [belowAt, expand_includeFile_of_none htext]
      refine ⟨{ x with run := { x.run with asked := path :: x.run.asked } }, ?_, rfl, .ofRun rfl⟩
      change (if config.options.maxDepth ≤ x.depth then _ else _ : Machine _) x = _
      rw [if_neg (by omega)]
      simp only [htext]
      rfl
    | some text =>
      obtain ⟨y, hy, hrun, hkeeps⟩ := tracks_processAll (hbelow (x.frame.inFile path range))
        (Parsed.ofText config.vocabulary text).items
        ({ x with run := askedRun config x.frame range path text x.run }.enter
          (.included path (x.frame.directiveAt range)) x.callSite)
        (by change _ - (x.depth + 1) = levels; omega) rfl
      rw [includeFile_apply x (by omega) htext, hy, belowAt, expand_includeFile_of_some htext,
        outcome_relocating, ← hframe]
      refine ⟨y.leave x.source y.callSite, rfl, hrun, ?_⟩
      have hrest : Keeps config.options.maxDepth
          { x with run := askedRun config x.frame range path text x.run }
          (y.leave x.source y.callSite) :=
        hkeeps.leave (by change x.depth + 1 ≤ _; omega) rfl hkeeps.callSite
      have hasked : (askedRun config x.frame range path text x.run).tables.uniqueCount =
          x.run.tables.uniqueCount := rfl
      exact (Keeps.ofRun hasked).trans hrest

end Registers

/-! ### Calls and expressions -/

section Expressions

variable {levels : Nat} {frame : Frame} {config : Config} {again : Item → Expanding (List Item)}

/-- The test of the depth fails exactly if no level is left. -/
theorem Tracks.atDepth {α : Type} {fail go : Expanding α} {e : Expansion α}
    (hfail : levels = 0 → Tracks config.options.maxDepth levels frame fail e)
    (hgo : levels ≠ 0 → Tracks config.options.maxDepth levels frame go e) :
    Tracks config.options.maxDepth levels frame
      (do if config.options.maxDepth ≤ (← get).depth then fail else go) e := by
  intro x hx hframe
  change ∃ y, (if config.options.maxDepth ≤ x.depth then fail else go : Expanding α) x = _ ∧ _
  by_cases h : levels = 0
  · rw [if_pos (by omega)]
    exact hfail h x hx hframe
  · rw [if_neg (by omega)]
    exact hgo h x hx hframe

/-- A call is followed if the binding of its arguments is. -/
theorem tracks_callWith (hbelow : TracksBelow config again levels) (range : Extent) (name : String)
    (count : Nat) {bind : Signature → Expanding Bindings} {bind' : Signature → Expansion Bindings}
    (hbind : ∀ signature,
      Tracks config.options.maxDepth levels frame (bind signature) (bind' signature)) :
    Tracks config.options.maxDepth levels frame (callWith config again range name count bind)
      (Expansion.callWith ⟨config, belowAt config levels, frame, range⟩ name count bind') := by
  refine .bind .tables fun t => ?_
  cases t.macros.get? name with
  | none => exact .failAt range _
  | some entry =>
    refine .ite (.failAt range _) (.atDepth ?_ ?_)
    · rintro rfl
      exact .failAt range _
    · intro hlevels
      obtain ⟨n, rfl⟩ := Nat.exists_eq_succ_of_ne_zero hlevels
      exact .bind (hbind entry.signature) fun bound =>
        tracks_callBody hbelow range bound entry.body

theorem tracks_inlineWith (hbelow : TracksBelow config again levels) (range : Extent)
    (name : String) (count : Nat) {bind : Signature → Expanding Bindings}
    {bind' : Signature → Expansion Bindings}
    (hbind : ∀ signature,
      Tracks config.options.maxDepth levels frame (bind signature) (bind' signature)) :
    Tracks config.options.maxDepth levels frame (inlineWith config again range name count bind)
      (Expansion.inlineWith ⟨config, belowAt config levels, frame, range⟩ name count bind') := by
  refine .bind (tracks_callWith hbelow range name count hbind) fun items => ?_
  cases items with
  | nil => exact .failAt range _
  | cons i rest =>
    obtain ⟨kind, place⟩ := i
    cases rest with
    | nil =>
      cases kind with
      | expr e => exact .pure _
      | _ => exact .failAt range _
    | cons j js =>
      cases kind with
      | _ => exact .failAt range _

mutual

theorem tracks_expandExpr (hbelow : TracksBelow config again levels) (range : Extent) : ∀ e : Expr,
    Tracks config.options.maxDepth levels frame (expandExpr config again range e)
      (Expansion.expandExpr ⟨config, belowAt config levels, frame, range⟩ e)
  | .literal value => by
    rw [expandExpr, Expansion.expandExpr]
    exact .pure _
  | .ident name => by
    rw [expandExpr, Expansion.expandExpr]
    refine .bind .tables fun t => ?_
    exact .ite (tracks_inlineWith hbelow range name 0 fun signature => .pure _) (.pure _)
  | .call name arguments place => by
    rw [expandExpr, Expansion.expandExpr]
    refine .bind .tables fun t => ?_
    refine .ite ?_ ?_
    · exact tracks_inlineWith hbelow range name arguments.length fun signature => tracks_bindArguments
        hbelow range signature.byReference signature.params [] arguments
    · refine .ite ?_ ?_
      · exact .failAt range _
      · exact .bind (tracks_expandArguments hbelow range arguments) fun as => .pure _
  | .unary op operand => by
    rw [expandExpr, Expansion.expandExpr]
    exact .bind (tracks_expandExpr hbelow range operand) fun f => .pure _
  | .binary op lhs rhs => by
    rw [expandExpr, Expansion.expandExpr]
    refine .bind (tracks_expandExpr hbelow range lhs) fun l => ?_
    exact .bind (tracks_expandExpr hbelow range rhs) fun r => .pure _
  | .paren inner => by
    rw [expandExpr, Expansion.expandExpr]
    exact .bind (tracks_expandExpr hbelow range inner) fun f => .pure _

theorem tracks_bindArguments (hbelow : TracksBelow config again levels) (range : Extent)
    (byReference : Bool) (params : List MacroParam) (bound : Bindings) : ∀ as : List Argument,
    Tracks config.options.maxDepth levels frame
      (bindArguments config again range byReference params bound as)
      (Expansion.bindArguments ⟨config, belowAt config levels, frame, range⟩ byReference params
        bound as)
  | [] => by
    rw [bindArguments, Expansion.bindArguments]
    exact .pure _
  | a :: as => by
    cases params with
    | nil =>
      rw [bindArguments, Expansion.bindArguments]
      exact .pure _
    | cons p ps =>
      rw [bindArguments, Expansion.bindArguments]
      have hrest := fun b =>
        tracks_bindArguments hbelow range byReference ps (Expansion.bindParam p b bound) as
      exact .ite (.bind (.pure a) hrest) (.bind (tracks_expandArgument hbelow range a) hrest)

theorem tracks_expandArguments (hbelow : TracksBelow config again levels) (range : Extent) :
    ∀ as : List Argument,
    Tracks config.options.maxDepth levels frame (expandArguments config again range as)
      (Expansion.expandArguments ⟨config, belowAt config levels, frame, range⟩ as)
  | [] => by
    rw [expandArguments, Expansion.expandArguments]
    exact .pure _
  | a :: as => by
    rw [expandArguments, Expansion.expandArguments]
    refine .bind (tracks_expandArgument hbelow range a) fun b => ?_
    exact .bind (tracks_expandArguments hbelow range as) fun bs => .pure _

theorem tracks_expandArgument (hbelow : TracksBelow config again levels) (range : Extent) :
    ∀ a : Argument,
    Tracks config.options.maxDepth levels frame (expandArgument config again range a)
      (Expansion.expandArgument ⟨config, belowAt config levels, frame, range⟩ a)
  | .hole => by
    rw [expandArgument, Expansion.expandArgument]
    exact .pure _
  | .expr e => by
    rw [expandArgument, Expansion.expandArgument]
    exact .bind (tracks_expandExpr hbelow range e) fun f => .pure _
  | .parameter p => by
    rw [expandArgument, Expansion.expandArgument]
    exact .bind (tracks_expandParameter hbelow range p) fun q => .pure _
  | .equation e => by
    rw [expandArgument, Expansion.expandArgument]
    exact .bind (tracks_expandEquation hbelow range e) fun f => .pure _

theorem tracks_expandParameter (hbelow : TracksBelow config again levels) (range : Extent) :
    ∀ p : Parameter,
    Tracks config.options.maxDepth levels frame (expandParameter config again range p)
      (Expansion.expandParameter ⟨config, belowAt config levels, frame, range⟩ p)
  | ⟨refinement, name, value⟩ => by
    rw [expandParameter, Expansion.expandParameter]
    exact .bind (tracks_expandValue hbelow range value) fun w => .pure _

theorem tracks_expandValue (hbelow : TracksBelow config again levels) (range : Extent) :
    ∀ w : Value,
    Tracks config.options.maxDepth levels frame (expandValue config again range w)
      (Expansion.expandValue ⟨config, belowAt config levels, frame, range⟩ w)
  | .absent => by
    rw [expandValue, Expansion.expandValue]
    exact .pure _
  | .literal value => by
    rw [expandValue, Expansion.expandValue]
    exact .pure _
  | .equation e => by
    rw [expandValue, Expansion.expandValue]
    exact .bind (tracks_expandEquation hbelow range e) fun f => .pure _

theorem tracks_expandEquation (hbelow : TracksBelow config again levels) (range : Extent) :
    ∀ e : Equation,
    Tracks config.options.maxDepth levels frame (expandEquation config again range e)
      (Expansion.expandEquation ⟨config, belowAt config levels, frame, range⟩ e)
  | ⟨op, body, uncertainty⟩ => by
    rw [expandEquation, Expansion.expandEquation]
    exact .bind (tracks_expandExpr hbelow range body) fun f => .pure _

end

theorem tracks_evaluate (hbelow : TracksBelow config again levels) (range : Extent) (e : Expr) :
    Tracks config.options.maxDepth levels frame (evaluate config again range e)
      (Expansion.evaluate ⟨config, belowAt config levels, frame, range⟩ e) := by
  refine .bind (tracks_expandExpr hbelow range e) fun expanded => ?_
  refine .bind .tables fun t => ?_
  refine .perform fun r => ?_
  cases expanded.evaluate t.valueOf? <;> rfl

theorem tracks_holds (hbelow : TracksBelow config again levels) (range : Extent) (c : Condition) :
    Tracks config.options.maxDepth levels frame (holds config again range c)
      (Expansion.holds ⟨config, belowAt config levels, frame, range⟩ c) := by
  cases c <;> rw [holds, Expansion.holds]
  case expr e => exact .bind (tracks_evaluate hbelow range e) fun value => .pure _
  case defined symbol negated => exact .bind .tables fun t => .pure _
  case argument param test => exact .failAt range _

/-- A call with arguments is followed. -/
theorem tracks_call (hbelow : TracksBelow config again levels) (range : Extent) (name : String)
    (arguments : List Argument) :
    Tracks config.options.maxDepth levels frame (call config again range name arguments)
      (Expansion.callWith ⟨config, belowAt config levels, frame, range⟩ name arguments.length
        fun signature => Expansion.bindArguments ⟨config, belowAt config levels, frame, range⟩
          signature.byReference signature.params [] arguments) :=
  tracks_callWith hbelow range name arguments.length fun signature =>
    tracks_bindArguments hbelow range signature.byReference signature.params [] arguments

theorem tracks_exprItem (hbelow : TracksBelow config again levels) (range : Extent) (e : Expr) :
    Tracks config.options.maxDepth levels frame (exprItem config again range e)
      (Expansion.expandExprItem ⟨config, belowAt config levels, frame, range⟩ e) := by
  have hkeep : Tracks config.options.maxDepth levels frame
      (do return [(⟨.expr (← expandExpr config again range e), range⟩ : Item)])
      (do
        let place : Place := ⟨config, belowAt config levels, frame, range⟩
        return [(⟨.expr (← Expansion.expandExpr place e), range⟩ : Item)]) :=
    .bind (tracks_expandExpr hbelow range e) fun expanded => .pure _
  refine .bind .tables fun t => ?_
  cases e with
  | call name arguments place => exact .ite (tracks_call hbelow range name arguments) hkeep
  | ident name =>
    exact .ite (tracks_callWith hbelow range name 0 fun signature => .pure _) hkeep
  | literal value => exact hkeep
  | unary op operand => exact hkeep
  | binary op lhs rhs => exact hkeep
  | paren inner => exact hkeep

theorem tracks_mapM {α β : Type} {f : α → Expanding β} {g : α → Expansion β}
    (h : ∀ a, Tracks config.options.maxDepth levels frame (f a) (g a)) (as : List α) :
    Tracks config.options.maxDepth levels frame (as.mapM f) (as.mapM g) := by
  induction as with
  | nil => exact .pure []
  | cons a as ih =>
    rw [List.mapM_cons, List.mapM_cons]
    exact .bind (h a) fun b => .bind ih fun bs => .pure _

theorem tracks_siteStatement (hbelow : TracksBelow config again levels) (range : Extent)
    (s : SiteStatement) :
    Tracks config.options.maxDepth levels frame (siteStatement config again range s)
      (Expansion.expandSiteStatement ⟨config, belowAt config levels, frame, range⟩ s) := by
  have hparam : ∀ p, Tracks config.options.maxDepth levels frame (expandParameter config again range p)
      (Expansion.expandParameter ⟨config, belowAt config levels, frame, range⟩ p) :=
    tracks_expandParameter hbelow range
  cases s <;> rw [siteStatement, Expansion.expandSiteStatement]
  case coordinate axis value => exact .bind (hparam value) fun w => .pure _
  case occupancy occ =>
    refine .bind (hparam occ.value) fun w => ?_
    exact .bind (tracks_mapM (fun m => .bind (hparam m.value) fun w => .pure _) occ.modifiers) fun ms =>
      .pure _
  case scalar word value => exact .bind (hparam value) fun w => .pure _
  case adps values =>
    unfold Adps.mapM
    simp only [bind_assoc, pure_bind]
    refine .bind (hparam _) fun _ => ?_
    refine .bind (hparam _) fun _ => ?_
    refine .bind (hparam _) fun _ => ?_
    refine .bind (hparam _) fun _ => ?_
    refine .bind (hparam _) fun _ => ?_
    exact .bind (hparam _) fun _ => .pure _

theorem tracks_directive (hbelow : TracksBelow config again levels) (range : Extent) (d : Directive) :
    Tracks config.options.maxDepth levels frame (directive config again range d)
      (Expansion.expandDirective ⟨config, belowAt config levels, frame, range⟩ d) := by
  cases d <;> rw [directive, Expansion.expandDirective]
  case includeFile path => exact tracks_includeFile hbelow range path
  case out e => exact .bind (tracks_evaluate hbelow range e) fun value => .pure _
  case define name => exact .bind (.modifyTables fun _ => rfl) fun _ => .pure _
  case undef name => exact .bind (.modifyTables fun _ => rfl) fun _ => .pure _
  case deleteMacros names => exact .bind (.modifyTables fun _ => rfl) fun _ => .pure _
  case prm name equation =>
    refine .bind (tracks_evaluate hbelow range equation.body) fun value => ?_
    exact .bind (.modifyTables fun _ => rfl) fun _ => .pure _
  case seed => exact .pure _

end Expressions

/-! ### Items -/

section Items

variable {levels : Nat} {frame : Frame} {config : Config} {again : Item → Expanding (List Item)}

theorem run_checkCancelled (config : Config) (range : Extent) (r : Run) :
    (outcome (Expansion.checkCancelled config range r)).2 = r := by
  unfold Expansion.checkCancelled
  change (outcome ((if config.watch.cancelled r.asked then _ else _ : Expansion Unit) r)).2 = _
  split <;> rfl

mutual

theorem tracks_processItem (hbelow : TracksBelow config again levels) : ∀ i : Item,
    Tracks config.options.maxDepth levels frame (processItem config again i)
      (expandItem config (belowAt config levels) frame i)
  | ⟨kind, range⟩ => by
    rw [processItem, expandItem]
    exact .bind (.perform fun r => by rw [run_checkCancelled]) fun _ =>
      tracks_processKind hbelow range kind

theorem tracks_processKind (hbelow : TracksBelow config again levels) (range : Extent) :
    ∀ k : ItemKind,
    Tracks config.options.maxDepth levels frame (processKind config again range k)
      (Expansion.expandKind ⟨config, belowAt config levels, frame, range⟩ k)
  | .directive d => by
    rw [processKind, Expansion.expandKind]
    exact tracks_directive hbelow range d
  | .conditional family chain => by
    rw [processKind, Expansion.expandKind]
    exact tracks_processChain hbelow range chain
  | .block items => by
    rw [processKind, Expansion.expandKind]
    exact tracks_processItems hbelow items
  | .expr e => by
    rw [processKind, Expansion.expandKind]
    exact tracks_exprItem hbelow range e
  | .bodyOp op param => by
    rw [processKind, Expansion.expandKind]
    exact .failAt range _
  | .macroDecl isList signatures body => by
    rw [processKind, Expansion.expandKind]
    exact .bind (.modifyTables fun _ => rfl) fun _ => .pure _
  | .declaration scope p => by
    rw [processKind, Expansion.expandKind]
    have hrest : Tracks config.options.maxDepth levels frame
        (do
          let q ← expandParameter config again range p
          return [(⟨.declaration scope q, range⟩ : Item)])
        (do
          let q ← Expansion.expandParameter ⟨config, belowAt config levels, frame, range⟩ p
          return [(⟨.declaration scope q, range⟩ : Item)]) :=
      .bind (tracks_expandParameter hbelow range p) fun q => .pure _
    cases p.name with
    | some name => exact .bind (.modifyTables fun _ => rfl) fun _ => hrest
    | none => exact hrest
  | .existing a => by
    rw [processKind, Expansion.expandKind]
    refine .bind .tables fun t => ?_
    refine .ite ?_ ?_
    · exact .bind (tracks_expandEquation hbelow range a.equation) fun e => .pure _
    · exact .failAt range _
  | .site name members => by
    rw [processKind, Expansion.expandKind]
    exact .bind (tracks_processItems hbelow members) fun ms => .pure _
  | .siteStatement s => by
    rw [processKind, Expansion.expandKind]
    exact .bind (tracks_siteStatement hbelow range s) fun t => .pure _
  | .keyword word none => by
    rw [processKind, Expansion.expandKind]
    exact .pure _
  | .keyword word (some e) => by
    rw [processKind, Expansion.expandKind]
    exact .bind (tracks_expandEquation hbelow range e) fun f => .pure _
  | .parameter p => by
    rw [processKind, Expansion.expandKind]
    exact .bind (tracks_expandParameter hbelow range p) fun q => .pure _
  | .equation e => by
    rw [processKind, Expansion.expandKind]
    exact .bind (tracks_expandEquation hbelow range e) fun f => .pure _
  | .assignment name e => by
    rw [processKind, Expansion.expandKind]
    exact .bind (tracks_expandEquation hbelow range e) fun f => .pure _

theorem tracks_processChain (hbelow : TracksBelow config again levels) (range : Extent) :
    ∀ c : Chain,
    Tracks config.options.maxDepth levels frame (processChain config again range c)
      (Expansion.expandChain ⟨config, belowAt config levels, frame, range⟩ c)
  | .done => by
    rw [processChain, Expansion.expandChain]
    exact .pure _
  | .otherwise items => by
    rw [processChain, Expansion.expandChain]
    exact tracks_processItems hbelow items
  | .branch condition items rest => by
    rw [processChain, Expansion.expandChain]
    exact .bind (tracks_holds hbelow range condition) fun b =>
      .ite (tracks_processItems hbelow items) (tracks_processChain hbelow range rest)

theorem tracks_processItems (hbelow : TracksBelow config again levels) : ∀ items : List Item,
    Tracks config.options.maxDepth levels frame (processItems config again items)
      (Expansion.expandItems config (belowAt config levels) frame items)
  | [] => by
    rw [processItems, Expansion.expandItems]
    exact .pure _
  | i :: is => by
    rw [processItems, Expansion.expandItems]
    refine .bind (tracks_processItem hbelow i) fun produced => ?_
    exact .bind (tracks_processItems hbelow is) fun rest => .pure _

end

/-- **The machine follows the expansion.** Whatever the item and the state of the machine, with more
fuel than there are levels left it ends with what the expansion comes to. -/
theorem tracks_process (config : Config) (levels : Nat) : ∀ fuel, levels < fuel → ∀ frame i,
    Tracks config.options.maxDepth levels frame (process config fuel i)
      (itemAt config levels frame i) := by
  induction levels with
  | zero =>
    intro fuel hfuel frame i
    obtain ⟨n, rfl⟩ := Nat.exists_eq_succ_of_ne_zero (Nat.ne_of_gt hfuel)
    rw [process, itemAt_eq]
    have hbelow : TracksBelow config (process config n) 0 := trivial
    exact tracks_processItem hbelow i
  | succ levels ih =>
    intro fuel hfuel frame i
    obtain ⟨n, rfl⟩ := Nat.exists_eq_succ_of_ne_zero (Nat.ne_of_gt (Nat.zero_lt_of_lt hfuel))
    rw [process, itemAt_eq]
    have hbelow : TracksBelow config (process config n) (levels + 1) := ih n (by omega)
    exact tracks_processItem hbelow i

theorem tracksBelow_process (config : Config) {levels fuel : Nat} (h : levels ≤ fuel) :
    TracksBelow config (process config fuel) levels := by
  cases levels with
  | zero => trivial
  | succ levels => exact tracks_process config levels fuel h

end Items

end Expander

end ControlFile
