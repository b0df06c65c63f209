import ControlFile.Proofs.Expansion.Settled
import ControlFile.Proofs.Expansion.Simulation

/-!
# Expansions that part at one point

Two expansions often do the same until something happens in the first of them that makes a difference,
and from then on nothing is said of the second one.  That it has happened is seen from the fault that
the first one fails with, or from its run, which does not lose it (`Parting`).  Steps that do the same
until then are put together to steps that do so (`EqUntil`).
-/

namespace ControlFile

/-- The run, with one more problem in the text of `frame`. -/
def Run.reporting (frame : Frame) (d : Diagnostic) (r : Run) : Run :=
  { r with problems := r.problems ++ [⟨d, frame.source⟩] }

namespace Expansion

variable {α β : Type}

/-- What two expansions part at. -/
structure Parting where
  /-- It is the fault that a step fails with. -/
  AtFault : Fault → Prop
  /-- It has happened in the run. -/
  InRun : Run → Prop
  grows {r r' : Run} (hproblems : r.problems ⊆ r'.problems) (hasked : r.asked ⊆ r'.asked)
    (h : InRun r) : InRun r'
  /-- A fault that is reported is seen from the run. -/
  reported {d : Diagnostic} (h : AtFault d.fault) (hd : d.fault ≠ .cancelled) (frame : Frame)
    (r : Run) : InRun (r.reporting frame d)

namespace Parting

/-- The step has come to the point. -/
def Reached (p : Parting) : EStateM.Result Diagnostic Run α → Prop
  | .ok _ r => p.InRun r
  | .error d r => p.AtFault d.fault ∨ p.InRun r

end Parting

/-- The second step does what the first one does, unless that comes to the point where they part; and
behind that point the first one stays there. -/
structure EqUntil (p : Parting) (e e' : Expansion α) : Prop where
  keeps : ∀ r, p.InRun r → p.Reached (e r)
  eq : ∀ r, p.Reached (e r) ∨ e' r = e r

namespace EqUntil

variable {p : Parting}

theorem refl {e : Expansion α} (h : ∀ r, p.InRun r → p.Reached (e r)) : EqUntil p e e :=
  ⟨h, fun _ => .inr rfl⟩

theorem of_ok {e : Expansion α}
    (h : ∀ r, ∃ a r', e r = .ok a r' ∧ r.problems ⊆ r'.problems ∧ r.asked ⊆ r'.asked) :
    EqUntil p e e := .refl fun r hr => by
  obtain ⟨a, r', hrun, hproblems, hasked⟩ := h r
  rw [hrun]
  exact p.grows hproblems hasked hr

theorem failAt (range : Extent) (fault : Fault) :
    EqUntil p (failAt range fault : Expansion α) (failAt range fault) := .refl fun _ hr => .inr hr

/-- Where the first step comes to the point, the second one may do anything. -/
theorem of_reached {e e' : Expansion α} (h : ∀ r, p.Reached (e r)) : EqUntil p e e' :=
  ⟨fun r _ => h r, fun r => .inl (h r)⟩

theorem onTables (f : Tables → EStateM.Result Diagnostic Tables α) :
    EqUntil p (onTables f) (onTables f) := .refl fun r hr => by
  unfold Expansion.onTables
  cases f r.tables with
  | ok a t => exact p.grows (r := r) (fun _ h => h) (fun _ h => h) hr
  | error d t => exact .inr (p.grows (r := r) (fun _ h => h) (fun _ h => h) hr)

theorem bind {e e' : Expansion α} {f f' : α → Expansion β} (h : EqUntil p e e')
    (hf : ∀ a, EqUntil p (f a) (f' a)) : EqUntil p (e >>= f) (e' >>= f') := by
  have hreached : ∀ r, p.Reached (e r) → p.Reached ((e >>= f) r) := by
    intro r hr
    cases he : e r with
    | ok a r' =>
      rw [he] at hr
      rw [bind_of_ok he]
      exact (hf a).keeps r' hr
    | error d r' =>
      rw [he] at hr
      rw [bind_of_error he]
      exact hr
  refine ⟨fun r hr => hreached r (h.keeps r hr), fun r => ?_⟩
  rcases h.eq r with hr | heq
  · exact .inl (hreached r hr)
  · cases he : e r with
    | ok a r' =>
      rw [bind_of_ok he, bind_of_ok (heq.trans he)]
      exact (hf a).eq r'
    | error d r' =>
      rw [bind_of_error he, bind_of_error (heq.trans he)]
      exact .inr rfl

theorem relocating {range : Extent} {e e' : Expansion α} (h : EqUntil p e e') :
    EqUntil p (relocating range e) (relocating range e') := by
  have hreached : ∀ r, p.Reached (e r) → p.Reached (Expansion.relocating range e r) := by
    intro r hr
    unfold Expansion.relocating
    cases he : e r <;> rw [he] at hr <;> exact hr
  refine ⟨fun r hr => hreached r (h.keeps r hr), fun r => (h.eq r).imp (hreached r) fun heq => ?_⟩
  unfold Expansion.relocating
  rw [heq]

theorem alone {frame : Frame} {e e' : Expansion (List Item)} (h : EqUntil p e e') :
    EqUntil p (alone frame e) (alone frame e') := by
  have hreached : ∀ r, p.Reached (e r) → p.Reached (Expansion.alone frame e r) := by
    intro r hr
    unfold Expansion.alone
    cases he : e r with
    | ok items r' =>
      rw [he] at hr
      exact hr
    | error d r' =>
      rw [he] at hr
      by_cases hd : d.fault = .cancelled
      · simp only [if_pos hd]
        exact hr
      · simp only [if_neg hd]
        change p.InRun (r'.reporting frame d)
        rcases hr with hfault | hr'
        · exact p.reported hfault hd frame r'
        · exact p.grows (List.subset_append_left _ _) (List.Subset.refl _) hr'
  refine ⟨fun r hr => hreached r (h.keeps r hr), fun r => (h.eq r).imp (hreached r) fun heq => ?_⟩
  unfold Expansion.alone
  rw [heq]

theorem checkCancelled (config : Config) (range : Extent) :
    EqUntil p (checkCancelled config range) (checkCancelled config range) :=
  .bind (.of_ok fun r => ⟨r, r, rfl, List.Subset.refl _, List.Subset.refl _⟩) fun r => by
    split
    · exact .failAt range _
    · exact .of_ok fun r => ⟨_, r, rfl, List.Subset.refl _, List.Subset.refl _⟩

theorem ask (config : Config) (path : String) : EqUntil p (ask config path) (ask config path) :=
  .of_ok fun _ => ⟨_, _, rfl, List.Subset.refl _, List.subset_cons_self _ _⟩

theorem reportParsed (config : Config) (frame : Frame) (parsed : Parsed) :
    EqUntil p (reportParsed config frame parsed) (reportParsed config frame parsed) :=
  .of_ok fun _ => ⟨_, _, rfl, List.subset_append_left _ _, List.Subset.refl _⟩

end EqUntil

/-- Two expansions that part, if they do so in those steps that know the configuration. -/
def Parting.simulation (p : Parting) {config config' : Config}
    (vocabulary : config'.vocabulary = config.vocabulary)
    (collectComments : config'.options.collectComments = config.options.collectComments)
    (checkCancelled : ∀ range,
      EqUntil p (checkCancelled config range) (checkCancelled config' range))
    (ask : ∀ path, EqUntil p (ask config path) (ask config' path))
    (depthExceeded : ∀ {α : Type} range name,
      EqUntil p (failAt range (.depthExceeded name config.options.maxDepth) : Expansion α)
        (failAt range (.depthExceeded name config'.options.maxDepth))) :
    Simulation config config' where
  Rel := EqUntil p
  Frames := Eq
  vocabulary := vocabulary
  root := rfl
  inCall _ h := h ▸ rfl
  inFile _ _ h := h ▸ rfl
  onTables f _ := .onTables f
  bind h hf := h.bind hf
  checkCancelled := checkCancelled
  ask := ask
  reportParsed parsed h := by
    subst h
    have heq : Expansion.reportParsed config' = Expansion.reportParsed config := by
      funext frame parsed
      unfold Expansion.reportParsed
      rw [collectComments]
    rw [heq]
    exact .reportParsed config _ parsed
  depthExceeded := depthExceeded
  relocating _ h := h.relocating
  alone h he := h ▸ he.alone

end Expansion

end ControlFile
