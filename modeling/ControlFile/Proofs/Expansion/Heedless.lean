import ControlFile.Proofs.Expansion.Accounting

/-!
# Expanding an expression changes no table

No step of an expansion looks at what has been reported before it, so what is known of steps that start with
nothing reported is known of all of them (`heedless_expandExpr`).

The body of a macro that is called in an expression may define symbols, declare names, delete macros and
include files.  But all that changes a table leaves an item, and the macro has to expand to one expression.  So
if the expansion succeeds and nothing is reported on the way, the tables are those before it, whatever had been
reported then (`expandExpr_tables`).  Unique names may have been given out, and comments of included files added.
-/

namespace ControlFile

/-- The run, with problems that had been reported before it. -/
def Run.behind (earlier : List Problem) (r : Run) : Run := { r with problems := earlier ++ r.problems }

/-- The result, with problems that had been reported before. -/
def Expansion.resultBehind {α : Type} (earlier : List Problem) :
    EStateM.Result Diagnostic Run α → EStateM.Result Diagnostic Run α
  | .ok a r => .ok a (r.behind earlier)
  | .error d r => .error d (r.behind earlier)

namespace Expansion

open Expander (belowAt)

variable {α β : Type}

/-- The second step does behind other problems what the first one does. -/
def Heedless (e e' : Expansion α) : Prop :=
  ∀ earlier r, e' (r.behind earlier) = resultBehind earlier (e r)

namespace Heedless

theorem onTables (f : Tables → EStateM.Result Diagnostic Tables α) :
    Heedless (onTables f) (onTables f) := by
  intro earlier r
  unfold Expansion.onTables
  rw [show (r.behind earlier).tables = r.tables from rfl]
  cases f r.tables <;> rfl

theorem bind {e e' : Expansion α} {f f' : α → Expansion β} (he : Heedless e e')
    (hf : ∀ a, Heedless (f a) (f' a)) : Heedless (e >>= f) (e' >>= f') := by
  intro earlier r
  have hstep := he earlier r
  cases hrun : e r with
  | ok a r₁ =>
    rw [hrun] at hstep
    rw [bind_of_ok hrun, bind_of_ok hstep]
    exact hf a earlier r₁
  | error d r₁ =>
    rw [hrun] at hstep
    rw [bind_of_error hrun, bind_of_error hstep]
    rfl

theorem checkCancelled (config : Config) (range : Extent) :
    Heedless (checkCancelled config range) (checkCancelled config range) := by
  intro earlier r
  change (if config.watch.cancelled r.asked then _ else _ : Expansion Unit) (r.behind earlier) =
    resultBehind earlier ((if config.watch.cancelled r.asked then _ else _ : Expansion Unit) r)
  split <;> rfl

theorem reportParsed (config : Config) (frame : Frame) (parsed : Parsed) :
    Heedless (reportParsed config frame parsed) (reportParsed config frame parsed) := by
  intro earlier r
  have happend := List.append_assoc earlier r.problems (parsed.diagnostics.map (⟨·, frame.source⟩))
  exact congrArg (fun problems => EStateM.Result.ok () { r with
    problems
    comments := if config.options.collectComments then r.comments ++ parsed.comments else r.comments })
    happend

theorem relocating {e e' : Expansion α} (range : Extent) (he : Heedless e e') :
    Heedless (relocating range e) (relocating range e') := by
  intro earlier r
  unfold Expansion.relocating
  rw [he earlier r]
  cases e r <;> rfl

theorem alone {e e' : Expansion (List Item)} (frame : Frame) (he : Heedless e e') :
    Heedless (alone frame e) (alone frame e') := by
  intro earlier r
  unfold Expansion.alone
  rw [he earlier r]
  cases e r with
  | ok items r₁ => rfl
  | error d r₁ =>
    by_cases hd : d.fault = .cancelled
    · simp only [resultBehind, if_pos hd]
    · have happend := (List.append_assoc earlier r₁.problems [⟨d, frame.source⟩]).symm
      simp only [resultBehind, if_neg hd]
      exact congrArg (fun problems => EStateM.Result.ok [] { r₁ with problems }) happend.symm

end Heedless

/-- An expansion beside itself, behind other problems. -/
def heedlessSimulation {config config' : Config} (hconfig : config' = config) : Simulation config config' where
  Rel := Heedless
  Frames frame frame' := frame' = frame
  vocabulary := hconfig ▸ rfl
  root := rfl
  inCall _ h := h ▸ rfl
  inFile _ _ h := h ▸ rfl
  onTables f _ := .onTables f
  bind he hf := he.bind hf
  checkCancelled range := hconfig ▸ .checkCancelled config range
  ask _ := hconfig ▸ fun _ _ => rfl
  reportParsed parsed h := by
    subst hconfig h
    exact .reportParsed _ _ parsed
  depthExceeded _ _ := hconfig ▸ fun _ _ => rfl
  relocating range he := he.relocating range
  alone h he := h ▸ he.alone _

/-- **What has been reported has no influence** on how an expression is expanded. -/
theorem heedless_expandExpr (config : Config) (levels : Nat) (frame : Frame) (range : Extent) (e : Expr) :
    Heedless (expandExpr ⟨config, belowAt config levels, frame, range⟩ e)
      (expandExpr ⟨config, belowAt config levels, frame, range⟩ e) := by
  let S := heedlessSimulation (Eq.refl config)
  refine S.rel_expandExpr range ?_ rfl e
  cases levels with
  | zero => exact .limit
  | succ levels => exact .level fun _ _ i hframe => S.rel_itemAt levels hframe i

theorem countedBelow_belowAt (config : Config) (levels : Nat) : CountedBelow (belowAt config levels) := by
  cases levels with
  | zero => rintro _ ⟨⟩
  | succ levels =>
    rintro _ ⟨⟩ frame i
    exact counted_itemAt config levels frame i

/-- **Expanding an expression changes no table.**  If it succeeds and nothing is reported on the way, then
macros, deleted ones too, symbols, values and declared names are those before, at every depth and in every
text. -/
theorem expandExpr_tables (config : Config) (levels : Nat) (frame : Frame) (range : Extent) {e expanded : Expr}
    {r r' : Run} (hrun : expandExpr ⟨config, belowAt config levels, frame, range⟩ e r = .ok expanded r')
    (hquiet : r'.problems = r.problems) :
    r'.tables = { r.tables with uniqueCount := r'.tables.uniqueCount } := by
  let start : Run := { r with problems := [] }
  have hstart : r = start.behind r.problems := by simp [start, Run.behind]
  have hheedless := heedless_expandExpr config levels frame range e r.problems start
  rw [← hstart, hrun] at hheedless
  cases hend : expandExpr ⟨config, belowAt config levels, frame, range⟩ e start with
  | error d r₁ =>
    rw [hend] at hheedless
    cases hheedless
  | ok result r₁ =>
    rw [hend] at hheedless
    cases hheedless
    have hnone : r₁.problems = [] := List.append_right_eq_self.1 hquiet
    obtain ⟨-, hmacros, hsymbols, hvalues, hdeclared⟩ :=
      steady_expandExpr (countedBelow_belowAt config levels) e start _ r₁ hend hnone
    change r₁.tables = { r.tables with uniqueCount := r₁.tables.uniqueCount }
    rw [Tables.mk.injEq]
    exact ⟨hmacros, hsymbols, hvalues, hdeclared, rfl⟩

/-- A macro with `#include "f"` in its body, after another problem. -/
def includingRun : Run :=
  ⟨⟨⟨[("m", ⟨⟨"m", false, [], true, ⟨6, 9⟩⟩, [⟨.directive (.includeFile "f"), ⟨12, 24⟩⟩]⟩)], ["n"]⟩, ["s"],
      [("v", 1.0)], ["d"], 3⟩,
    [], [⟨⟨.unresolved "x", ⟨0, 1⟩⟩, .root⟩], []⟩

/-- The file has an expression and a comment; the name of the expansion is given out, and the comment is added. -/
theorem expandExpr_tables_include :
    let s := Session.standard.withResolver (.ofFiles [("f", "2 ' two")])
    let place : Place := ⟨s.config, belowAt s.config 2, .root, ⟨30, 32⟩⟩
    let e : Expr := .unary .minus (.ident "m")
    ∃ expanded r', expandExpr place e includingRun = .ok expanded r' ∧
      r'.problems = includingRun.problems ∧ r'.tables.uniqueCount = 4 ∧ r'.comments.length = 1 ∧
      r'.tables = { includingRun.tables with uniqueCount := r'.tables.uniqueCount } := by
  intro s place e
  have hend : (match expandExpr place e includingRun with
      | .ok _ r' => decide (r'.problems = includingRun.problems ∧ r'.tables.uniqueCount = 4 ∧
          r'.comments.length = 1)
      | .error _ _ => false) = true := by decide +kernel
  cases hrun : expandExpr place e includingRun with
  | error d r' =>
    rw [hrun] at hend
    cases hend
  | ok expanded r' =>
    rw [hrun] at hend
    obtain ⟨hquiet, hcount, hcomments⟩ := of_decide_eq_true hend
    exact ⟨expanded, r', rfl, hquiet, hcount, hcomments, expandExpr_tables s.config 2 .root _ hrun hquiet⟩

end Expansion

end ControlFile
