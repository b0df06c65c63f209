import ControlFile.Item.Basic
import ControlFile.Proofs.Macro.Evaluation

/-!
# The compound form of an assignment

`n = n op r` and `n op= r` say the same.  What an equation says is one expression, `Equation.stated`: the body,
with the name and the operation before it if the equation is a compound one.  The compound form of an
assignment states an expression with the same value, or one that fails in the same way
(`Assignment.sameOutcome_stated_compoundForm`), and it is another equation exactly where the form is `n = n op r`
(`Assignment.compoundForm_ne_iff`).

Parentheses are in the way of neither: they change no value (`Expr.evaluate_stripParens`).
-/

namespace ControlFile

/-! ### Parentheses -/

namespace Expr

variable {env : String → Option Float}

theorem evaluate_stripParens : (e : Expr) → e.stripParens.evaluate env = e.evaluate env
  | .paren inner => by rw [stripParens_paren, evaluate_stripParens inner, evaluate_paren]
  | .literal _ | .ident _ | .call .. | .unary .. | .binary .. => rfl

/-- An operation on operands with the same values. -/
theorem sameOutcome_binary {op : BinaryOp} {lhs lhs' rhs : Expr} (h : lhs.evaluate env = lhs'.evaluate env) :
    SameOutcome ((Expr.binary op lhs rhs).evaluate env) ((Expr.binary op lhs' rhs).evaluate env) := by
  rw [evaluate, evaluate, h]
  refine (SameOutcome.refl _).bind fun x => (SameOutcome.refl _).bind fun y => ?_
  exact (SameOutcome.refl _).bind fun value => sameOutcome_checkFinite ..

end Expr

/-! ### What an equation states -/

/-- The operation between the name and the body. -/
def AssignOp.operation? : AssignOp → Option BinaryOp
  | .set => none
  | .add => some .add
  | .sub => some .sub
  | .mul => some .mul
  | .div => some .div
  | .pow => some .pow

/-- The operations that have a compound form. -/
theorem AssignOp.ofBinary?_eq_some_iff {op : BinaryOp} {compound : AssignOp} :
    ofBinary? op = some compound ↔ compound.operation? = some op := by
  cases op <;> cases compound <;> decide

/-- The expression that an equation for `name` states: `body` for `= body`, and `name op body` for
`op= body`. -/
def Equation.stated (name : String) (e : Equation) : Expr :=
  match e.op.operation? with
  | some op => .binary op (.ident name) e.body
  | none => e.body

/-! ### Compound forms -/

theorem Expr.ident?_eq_some_iff {e : Expr} {name : String} : e.ident? = some name ↔ e = .ident name := by
  cases e <;> simp [ident?]

namespace Assignment

/-- The form `n = n op r`, with an operation that can stand before an equals sign.  Parentheses around the
body and around the name do not count. -/
def RepeatsName (a : Assignment) : Prop :=
  a.equation.op = .set ∧ ∃ op lhs rhs, a.equation.body.stripParens = .binary op lhs rhs ∧
    op ∈ [BinaryOp.add, .sub, .mul, .div, .pow] ∧ lhs.stripParens = .ident a.name

variable {a : Assignment}

/-- The compound form of `n = n op r` is `n op= r`. -/
theorem compoundForm_of_repeatsName (h : a.RepeatsName) :
    ∃ op compound lhs rhs, a.equation.op = .set ∧ a.equation.body.stripParens = .binary op lhs rhs ∧
      lhs.stripParens = .ident a.name ∧ compound.operation? = some op ∧
      a.compoundForm = { a.equation with op := compound, body := rhs } := by
  obtain ⟨hset, op, lhs, rhs, hbody, hop, hname⟩ := h
  obtain ⟨compound, hcompound⟩ : ∃ compound, AssignOp.ofBinary? op = some compound := by
    cases op <;> first | exact ⟨_, rfl⟩ | exact absurd hop (by decide)
  refine ⟨op, compound, lhs, rhs, hset, hbody, hname, AssignOp.ofBinary?_eq_some_iff.1 hcompound, ?_⟩
  rw [compoundForm, hset, hbody]
  dsimp only
  rw [hcompound, hname]
  exact if_pos rfl

/-- Every other equation stays as it is. -/
theorem compoundForm_of_not_repeatsName (h : ¬a.RepeatsName) : a.compoundForm = a.equation := by
  unfold compoundForm
  split
  · rename_i op lhs rhs hset hbody
    split
    · rename_i compound hcompound
      refine if_neg fun hname => h ⟨hset, op, lhs, rhs, hbody, ?_, Expr.ident?_eq_some_iff.1 hname⟩
      cases op <;> first | decide | cases hcompound
    · rfl
  · rfl

/-- **The compound form keeps what is stated.** -/
theorem sameOutcome_stated_compoundForm (env : String → Option Float) :
    SameOutcome ((a.compoundForm.stated a.name).evaluate env) ((a.equation.stated a.name).evaluate env) := by
  by_cases h : a.RepeatsName
  · obtain ⟨op, compound, lhs, rhs, hset, hbody, hname, hop, hform⟩ := compoundForm_of_repeatsName h
    have hcompound : a.compoundForm.stated a.name = .binary op (.ident a.name) rhs := by
      rw [hform, Equation.stated, hop]
    have hplain : (a.equation.stated a.name).evaluate env = (Expr.binary op lhs rhs).evaluate env := by
      rw [Equation.stated, hset, ← hbody, Expr.evaluate_stripParens]
      rfl
    rw [hcompound, hplain]
    exact Expr.sameOutcome_binary (by rw [← hname, Expr.evaluate_stripParens])
  · rw [compoundForm_of_not_repeatsName h]
    exact .refl _

/-- **The compound form changes what repeats its name, and nothing else.** -/
theorem compoundForm_ne_iff : a.compoundForm ≠ a.equation ↔ a.RepeatsName := by
  refine ⟨fun hne => ?_, fun h heq => ?_⟩
  · exact Classical.byContradiction fun h => hne (compoundForm_of_not_repeatsName h)
  · obtain ⟨op, compound, lhs, rhs, hset, -, -, hop, hform⟩ := compoundForm_of_repeatsName h
    rw [hform] at heq
    have hcompound : compound = .set := (congrArg Equation.op heq).trans hset
    rw [hcompound] at hop
    cases hop

theorem uncertainty_compoundForm : a.compoundForm.uncertainty = a.equation.uncertainty := by
  by_cases h : a.RepeatsName
  · obtain ⟨_, _, _, _, -, -, -, -, hform⟩ := compoundForm_of_repeatsName h
    rw [hform]
  · rw [compoundForm_of_not_repeatsName h]

/-- **The compound form of an assignment means what the assignment does.**  It has the same error estimate,
and what it states has the same value under all variables, or fails in the same way; and it is another equation
exactly if the assignment is `n = n op r`. -/
theorem compoundForm_keeps_meaning (a : Assignment) :
    a.compoundForm.uncertainty = a.equation.uncertainty ∧
      (∀ env : String → Option Float, SameOutcome ((a.compoundForm.stated a.name).evaluate env)
        ((a.equation.stated a.name).evaluate env)) ∧
      (a.compoundForm ≠ a.equation ↔ a.RepeatsName) :=
  ⟨uncertainty_compoundForm, sameOutcome_stated_compoundForm, compoundForm_ne_iff⟩

/-- `n = ((n)) - r` is `n -= r`, and `n = n - r - r` stays. -/
example :
    let n : Expr := .ident "n"
    let r : Expr := .ident "r"
    let difference : Expr := .binary .sub (.paren (.paren n)) r
    (Assignment.mk .plain "n" ⟨.set, .paren difference, none⟩).compoundForm = ⟨.sub, r, none⟩ ∧
      (Assignment.mk .plain "n" ⟨.set, .binary .sub (.binary .sub n r) r, none⟩).compoundForm =
        ⟨.set, .binary .sub (.binary .sub n r) r, none⟩ := ⟨rfl, rfl⟩

end Assignment

end ControlFile
