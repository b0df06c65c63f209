import ControlFile.Expr.Eval
import ControlFile.Macro.Substitution

/-!
# Faults of copies and of values

A copy fails because of an argument that does not fit or is not there, and an expression has no
number because of a name or a value in it.  Either way the fault lies in the thing itself, and not in
the run that it belongs to: neither depth nor files nor cancellation come in
(`Item.faults_substitute`, `Expr.faults_evaluate`).
-/

namespace ControlFile

/-- The fault lies in what is copied or evaluated. -/
def Fault.IsLocal : Fault → Prop
  | .argument _ | .unresolved _ | .value _ => True
  | _ => False

theorem Fault.IsLocal.ne_cancelled {fault : Fault} (h : fault.IsLocal) : fault ≠ .cancelled := by
  rintro rfl
  exact h

section Results

variable {α β : Type}

/-- The result is there, or its fault is a local one. -/
def FaultsLocally (x : Except Fault α) : Prop := ∀ fault, x = .error fault → fault.IsLocal

namespace FaultsLocally

theorem ok (a : α) : FaultsLocally (.ok a) := by
  rintro _ ⟨⟩

theorem error {fault : Fault} (h : fault.IsLocal) : FaultsLocally (.error fault : Except Fault α) := by
  rintro _ ⟨⟩
  exact h

theorem bind {x : Except Fault α} {f : α → Except Fault β} (hx : FaultsLocally x)
    (hf : ∀ a, FaultsLocally (f a)) : FaultsLocally (x >>= f) := by
  cases x with
  | error fault => exact .error (hx fault rfl)
  | ok a => exact hf a

theorem map {x : Except Fault α} (hx : FaultsLocally x) (f : α → β) :
    FaultsLocally (x >>= fun a => return f a) := hx.bind fun a => .ok (f a)

theorem mapM {f : α → Except Fault β} (hf : ∀ a, FaultsLocally (f a)) (as : List α) :
    FaultsLocally (as.mapM f) := by
  induction as with
  | nil => exact .ok []
  | cons a as ih =>
    rw [List.mapM_cons]
    exact (hf a).bind fun b => ih.map (b :: ·)

theorem ite {c : Prop} [Decidable c] {x y : Except Fault α} (hx : FaultsLocally x)
    (hy : FaultsLocally y) : FaultsLocally (if c then x else y) := by
  split
  · exact hx
  · exact hy

end FaultsLocally

namespace Substituting

/-- The same of a step that gives out unique names. -/
def FailsLocally (e : Substituting α) : Prop := ∀ n fault m, e n = .error fault m → fault.IsLocal

namespace FailsLocally

theorem pure (a : α) : FailsLocally (Pure.pure a) := by
  rintro _ _ _ ⟨⟩

theorem throw {fault : Fault} (h : fault.IsLocal) : FailsLocally (throw fault : Substituting α) := by
  rintro _ _ _ ⟨⟩
  exact h

theorem lift {x : Except Fault α} (h : FaultsLocally x) :
    FailsLocally (liftM x : Substituting α) := by
  cases x with
  | ok a => exact .pure a
  | error fault => exact .throw (h fault rfl)

theorem nextUnique : FailsLocally nextUnique := by
  rintro _ _ _ ⟨⟩

theorem bind {e : Substituting α} {f : α → Substituting β} (he : FailsLocally e)
    (hf : ∀ a, FailsLocally (f a)) : FailsLocally (e >>= f) := by
  intro n fault m hrun
  change EStateM.bind e f n = _ at hrun
  unfold EStateM.bind at hrun
  cases hn : e n with
  | ok a l =>
    rw [hn] at hrun
    exact hf a l fault m hrun
  | error other l =>
    rw [hn] at hrun
    cases hrun
    exact he n fault m hn

theorem map {e : Substituting α} (he : FailsLocally e) (f : α → β) :
    FailsLocally (e >>= fun a => return f a) := he.bind fun a => .pure (f a)

end FailsLocally

end Substituting

end Results

/-! ### Names and expressions -/

namespace Substitution

variable (s : Substitution)

theorem faults_name (n : String) : FaultsLocally (s.name n) := by
  unfold name
  refine .ite (.ok _) ?_
  cases s.lookup n with
  | none => exact .ok n
  | some a =>
    dsimp only
    cases a.toWord? with
    | none => exact .error trivial
    | some word => exact .ok word

theorem faults_ident (n : String) : FaultsLocally (s.ident n) := by
  unfold ident
  refine .ite (.ok _) ?_
  cases s.lookup n with
  | none => exact .ok _
  | some a =>
    dsimp only
    cases a.toExpr? with
    | none => exact .error trivial
    | some e => exact .ok e

theorem faults_uncertainty (u : Option Uncertainty) : FaultsLocally (s.uncertainty u) := by
  unfold uncertainty
  split
  · split
    · exact .ok _
    · exact (s.faults_name _).map _
    · exact .ok _
  · exact .ok _

theorem faults_name? (n : Option String) : FaultsLocally (s.name? n) := by
  cases n with
  | none => exact .ok none
  | some n => exact (s.faults_name n).map some

end Substitution

section Expressions

variable (s : Substitution)

mutual

theorem Expr.faults_substitute : ∀ e : Expr, FaultsLocally (e.substitute s)
  | .literal value => by
    rw [Expr.substitute]
    exact .ok _
  | .ident n => by
    rw [Expr.substitute]
    exact s.faults_ident n
  | .call n arguments range => by
    rw [Expr.substitute]
    exact (Argument.faults_substituteAll arguments).bind fun _ => (s.faults_name n).map _
  | .unary op operand => by
    rw [Expr.substitute]
    exact operand.faults_substitute.map _
  | .binary op lhs rhs => by
    rw [Expr.substitute]
    exact lhs.faults_substitute.bind fun _ => rhs.faults_substitute.map _
  | .paren inner => by
    rw [Expr.substitute]
    exact inner.faults_substitute.map _

theorem Argument.faults_substituteAll : ∀ as : List Argument,
    FaultsLocally (Argument.substituteAll s as)
  | [] => by
    rw [Argument.substituteAll]
    exact .ok []
  | a :: as => by
    rw [Argument.substituteAll]
    exact a.faults_substitute.bind fun _ => (Argument.faults_substituteAll as).map _

theorem Argument.faults_substitute : ∀ a : Argument, FaultsLocally (a.substitute s)
  | .hole => by
    rw [Argument.substitute]
    exact .ok _
  | .expr e => by
    rw [Argument.substitute]
    cases s.passedThrough? e with
    | some a => exact .ok a
    | none => exact e.faults_substitute.map _
  | .parameter p => by
    rw [Argument.substitute]
    exact p.faults_substitute.map _
  | .equation e => by
    rw [Argument.substitute]
    exact e.faults_substitute.map _

theorem Parameter.faults_substitute : ∀ p : Parameter, FaultsLocally (p.substitute s)
  | ⟨refinement, n, value⟩ => by
    rw [Parameter.substitute]
    cases s.wholeParameter? refinement n value with
    | some p => exact .ok p
    | none => exact (s.faults_name? n).bind fun _ => value.faults_substitute.map _

theorem Value.faults_substitute : ∀ w : Value, FaultsLocally (w.substitute s)
  | .absent => by
    rw [Value.substitute]
    exact .ok _
  | .literal value => by
    rw [Value.substitute]
    exact .ok _
  | .equation e => by
    rw [Value.substitute]
    exact e.faults_substitute.map _

theorem Equation.faults_substitute : ∀ e : Equation, FaultsLocally (e.substitute s)
  | ⟨op, body, uncertainty⟩ => by
    rw [Equation.substitute]
    exact (s.faults_uncertainty uncertainty).bind fun _ => body.faults_substitute.map _

end

end Expressions

/-! ### Items -/

section Items

variable (s : Substitution)

theorem SiteStatement.faults_substitute (t : SiteStatement) : FaultsLocally (t.substitute s) := by
  have hparam := Parameter.faults_substitute s
  cases t <;> rw [SiteStatement.substitute]
  case coordinate axis value => exact (hparam value).map _
  case occupancy occ =>
    refine (FaultsLocally.mapM (fun m => (hparam m.value).map _) occ.modifiers).bind fun _ => ?_
    refine (s.faults_name occ.atom).bind fun _ => ?_
    exact (hparam occ.value).map _
  case scalar word value => exact (hparam value).map _
  case adps values =>
    refine .map ?_ _
    refine (hparam _).bind fun _ => ?_
    refine (hparam _).bind fun _ => ?_
    refine (hparam _).bind fun _ => ?_
    refine (hparam _).bind fun _ => ?_
    refine (hparam _).bind fun _ => ?_
    exact (hparam _).map _

theorem Directive.faults_substitute (d : Directive) : FaultsLocally (d.substitute s) := by
  cases d <;> rw [Directive.substitute]
  case define n => exact (s.faults_name n).map _
  case undef n => exact (s.faults_name n).map _
  case seed => exact .ok _
  case includeFile path => exact .ok _
  case deleteMacros names => exact (FaultsLocally.mapM s.faults_name names).map _
  case prm n equation => exact (s.faults_name n).bind fun _ => (equation.faults_substitute s).map _
  case out e => exact (e.faults_substitute s).map _

theorem Condition.faults_substitute (c : Condition) : FaultsLocally (c.substitute s) := by
  cases c <;> rw [Condition.substitute]
  case expr e => exact (e.faults_substitute s).map _
  case defined symbol negated => exact (s.faults_name symbol).map _
  case argument param test =>
    cases s.lookup param with
    | some a => exact .ok _
    | none => exact .error trivial

theorem Expr.faults_substituteItem (e : Expr) : FaultsLocally (e.substituteItem s) := by
  unfold Expr.substituteItem
  cases s.passedThrough? e with
  | some a => exact .ok _
  | none => exact (e.faults_substitute s).map _

open Substituting (FailsLocally)

theorem BodyOp.faults_substitute (op : BodyOp) (param : String) :
    FailsLocally (op.substitute s param) := by
  unfold BodyOp.substitute
  cases s.lookup param with
  | none => exact .pure _
  | some a =>
    cases op with
    | argu => exact .pure _
    | firstWord => exact .pure _
    | uniqueNotRefine =>
      dsimp only
      cases a.toUnrefined.name with
      | some n => exact .pure _
      | none => exact FailsLocally.nextUnique.map _
    | out =>
      dsimp only
      cases a.toExpr? with
      | some e => exact .pure _
      | none => exact .throw trivial

mutual

theorem Item.faults_substitute : ∀ i : Item, FailsLocally (i.substitute s)
  | ⟨kind, range⟩ => by
    rw [Item.substitute]
    refine kind.faults_substitute.bind fun k => ?_
    cases k <;> exact .pure _

theorem ItemKind.faults_substitute : ∀ k : ItemKind, FailsLocally (k.substitute s)
  | .expr e => by
    rw [ItemKind.substitute]
    exact .lift (e.faults_substituteItem s)
  | .keyword word none => by
    rw [ItemKind.substitute]
    exact .pure _
  | .keyword word (some equation) => by
    rw [ItemKind.substitute]
    exact (FailsLocally.lift (equation.faults_substitute s)).map _
  | .parameter p => by
    rw [ItemKind.substitute]
    exact (FailsLocally.lift (p.faults_substitute s)).map _
  | .equation e => by
    rw [ItemKind.substitute]
    exact (FailsLocally.lift (e.faults_substitute s)).map _
  | .assignment n e => by
    rw [ItemKind.substitute]
    exact (FailsLocally.lift (s.faults_name n)).bind fun _ =>
      (FailsLocally.lift (e.faults_substitute s)).map _
  | .declaration scope p => by
    rw [ItemKind.substitute]
    exact (FailsLocally.lift (p.faults_substitute s)).map _
  | .existing a => by
    rw [ItemKind.substitute]
    exact (FailsLocally.lift (s.faults_name a.name)).bind fun _ =>
      (FailsLocally.lift (a.equation.faults_substitute s)).map _
  | .site n members => by
    rw [ItemKind.substitute]
    exact (FailsLocally.lift (s.faults_name n)).bind fun _ =>
      (Item.faults_substituteAll members).map _
  | .siteStatement statement => by
    rw [ItemKind.substitute]
    exact (FailsLocally.lift (statement.faults_substitute s)).map _
  | .directive d => by
    rw [ItemKind.substitute]
    exact (FailsLocally.lift (d.faults_substitute s)).map _
  | .macroDecl isList signatures body => by
    rw [ItemKind.substitute]
    exact .pure _
  | .conditional family chain => by
    rw [ItemKind.substitute]
    exact chain.faults_substitute.map _
  | .bodyOp op param => by
    rw [ItemKind.substitute]
    exact op.faults_substitute s param
  | .block items => by
    rw [ItemKind.substitute]
    exact (Item.faults_substituteAll items).map _

theorem Chain.faults_substitute : ∀ c : Chain, FailsLocally (c.substitute s)
  | .done => by
    rw [Chain.substitute]
    exact .pure _
  | .otherwise items => by
    rw [Chain.substitute]
    exact (Item.faults_substituteAll items).map _
  | .branch condition items rest => by
    rw [Chain.substitute]
    refine (FailsLocally.lift (condition.faults_substitute s)).bind fun _ => ?_
    refine (Item.faults_substituteAll items).bind fun _ => ?_
    exact rest.faults_substitute.map _

theorem Item.faults_substituteAll : ∀ is : List Item, FailsLocally (Item.substituteAll s is)
  | [] => by
    rw [Item.substituteAll]
    exact .pure _
  | i :: is => by
    rw [Item.substituteAll]
    exact i.faults_substitute.bind fun _ => (Item.faults_substituteAll is).map _

end

end Items

/-! ### Values -/

theorem Expr.faults_checkFinite (e : Expr) (value : Float) : FaultsLocally (e.checkFinite value) :=
  .ite (.ok value) (.error trivial)

theorem BinaryOp.faults_apply (op : BinaryOp) (x y : Float) : FaultsLocally (op.apply x y) := by
  cases op <;> unfold BinaryOp.apply
  case div => exact .ite (.error trivial) (.ok _)
  case rem => exact .ite (.error trivial) (.ok _)
  all_goals exact .ok _

section Values

variable (env : String → Option Float)

mutual

theorem Expr.faults_evaluate : ∀ e : Expr, FaultsLocally (e.evaluate env)
  | .literal (.string text) => by
    rw [Expr.evaluate]
    exact .error trivial
  | .literal (.integer n) => by
    rw [Expr.evaluate]
    exact Expr.faults_checkFinite _ _
  | .literal (.decimal x) => by
    rw [Expr.evaluate]
    exact Expr.faults_checkFinite _ _
  | .ident name => by
    rw [Expr.evaluate]
    cases env name with
    | some value => exact Expr.faults_checkFinite _ _
    | none => exact .error trivial
  | .call name arguments range => by
    rw [Expr.evaluate]
    cases Function.ofName? name with
    | none => exact .error trivial
    | some f =>
      refine (Argument.faults_evaluateAll name arguments).bind fun values => ?_
      cases f.onValues? values with
      | some value => exact Expr.faults_checkFinite _ _
      | none => exact .error trivial
  | .paren inner => by
    rw [Expr.evaluate]
    exact inner.faults_evaluate.bind fun _ => Expr.faults_checkFinite _ _
  | .unary op operand => by
    rw [Expr.evaluate]
    exact operand.faults_evaluate.bind fun _ => Expr.faults_checkFinite _ _
  | .binary op lhs rhs => by
    rw [Expr.evaluate]
    refine lhs.faults_evaluate.bind fun _ => ?_
    refine rhs.faults_evaluate.bind fun _ => ?_
    exact (op.faults_apply _ _).bind fun _ => Expr.faults_checkFinite _ _

theorem Argument.faults_evaluateAll (function : String) : ∀ as : List Argument,
    FaultsLocally (Argument.evaluateAll env function as)
  | [] => by
    rw [Argument.evaluateAll]
    exact .ok []
  | a :: as => by
    rw [Argument.evaluateAll]
    exact (a.faults_evaluate function).bind fun _ => (Argument.faults_evaluateAll function as).map _

theorem Argument.faults_evaluate (function : String) : ∀ a : Argument,
    FaultsLocally (a.evaluate env function)
  | .expr e => by
    rw [Argument.evaluate]
    exact e.faults_evaluate
  | .hole => by
    rw [Argument.evaluate]
    exact .error trivial
  | .parameter p => by
    rw [Argument.evaluate]
    exact .error trivial
  | .equation e => by
    rw [Argument.evaluate]
    exact .error trivial

end

end Values

end ControlFile
