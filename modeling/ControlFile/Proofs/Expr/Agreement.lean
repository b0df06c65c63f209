import ControlFile.Expr.Eval
import ControlFile.Proofs.Expr.Row
import ControlFile.Proofs.Number.Negation

/-!
# Expressions that agree

Two expressions *agree* if they are written the same and have the same value, whatever the names in them
stand for (`Expr.Agrees`).  A value may be a fault that shows the writing of a part, so the two go
together.  Operations and calls of what agrees agree, and so do a minus before a number and the number
with the other sign (`Expr.Agrees.negated`); only the whole number zero has no other sign.
-/

namespace ControlFile

/-- The expressions are written the same and have the same value. -/
structure Expr.Agrees (e e' : Expr) : Prop where
  render : e'.render = e.render
  evaluate : ∀ env, e'.evaluate env = e.evaluate env

/-- The arguments are written the same and have the same value, or are the same fault. -/
structure Argument.Agrees (a a' : Argument) : Prop where
  isHole : a'.isHole = a.isHole
  render : a'.render = a.render
  evaluate : ∀ env function, a'.evaluate env function = a.evaluate env function

/-- The lists of arguments are written the same and have the same values. -/
structure Argument.AllAgree (as as' : List Argument) : Prop where
  renderFirst : Argument.renderFirst as' = Argument.renderFirst as
  renderRest : Argument.renderRest as' = Argument.renderRest as
  evaluate : ∀ env function, Argument.evaluateAll env function as' = Argument.evaluateAll env function as

/-! ### Arguments -/

namespace Argument

theorem AllAgree.nil : AllAgree [] [] := ⟨rfl, rfl, fun _ _ => rfl⟩

theorem AllAgree.cons {a a' : Argument} {as as' : List Argument} (h : a.Agrees a')
    (hs : AllAgree as as') : AllAgree (a :: as) (a' :: as') where
  renderFirst := by rw [Argument.renderFirst, h.render, hs.renderRest, Argument.renderFirst]
  renderRest := by
    rw [Argument.renderRest, separator, h.isHole, h.render, hs.renderRest, Argument.renderRest, separator]
  evaluate env function := by
    rw [evaluateAll, h.evaluate, hs.evaluate, evaluateAll]

theorem Agrees.refl (a : Argument) : a.Agrees a := ⟨rfl, rfl, fun _ _ => rfl⟩

/-- A place for a value has none: its writing is in the fault. -/
theorem Agrees.parameter {p p' : Parameter} (h : p'.render = p.render) :
    (Argument.parameter p).Agrees (.parameter p') where
  isHole := rfl
  render := h
  evaluate env function := by rw [Argument.evaluate, h, Argument.evaluate]

theorem Agrees.expr {e e' : Expr} (h : e.Agrees e') : (Argument.expr e).Agrees (.expr e') where
  isHole := rfl
  render := h.render
  evaluate env _ := h.evaluate env

/-- An equation has no value: its writing is in the fault. -/
theorem Agrees.equation {e e' : Equation} (h : e'.render = e.render) :
    (Argument.equation e).Agrees (.equation e') where
  isHole := rfl
  render := h
  evaluate env function := by rw [Argument.evaluate, h, Argument.evaluate]

end Argument

/-! ### Operations and calls -/

namespace Expr

theorem checkFinite_congr {e e' : Expr} (h : e'.render = e.render) (value : Float) :
    e'.checkFinite value = e.checkFinite value := by
  rw [checkFinite, h, checkFinite]

namespace Agrees

variable {e e' e'' l l' r r' : Expr}

theorem refl (e : Expr) : e.Agrees e := ⟨rfl, fun _ => rfl⟩

theorem symm (h : e.Agrees e') : e'.Agrees e := ⟨h.render.symm, fun env => (h.evaluate env).symm⟩

theorem unary (op : UnaryOp) (h : e.Agrees e') : (Expr.unary op e).Agrees (.unary op e') := by
  have hrender : (Expr.unary op e').render = (Expr.unary op e).render := by
    rw [Expr.render, h.render, Expr.render]
  refine ⟨hrender, fun env => ?_⟩
  rw [Expr.evaluate, h.evaluate, Expr.evaluate]
  exact congrArg _ (funext fun value => checkFinite_congr hrender _)

theorem binary (op : BinaryOp) (hl : l.Agrees l') (hr : r.Agrees r') :
    (Expr.binary op l r).Agrees (.binary op l' r') := by
  have hrender : (Expr.binary op l' r').render = (Expr.binary op l r).render := by
    rw [Expr.render, hl.render, hr.render, Expr.render]
  refine ⟨hrender, fun env => ?_⟩
  rw [Expr.evaluate, hl.evaluate, hr.evaluate, Expr.evaluate]
  simp only [checkFinite_congr hrender]

theorem paren (h : e.Agrees e') : (Expr.paren e).Agrees (.paren e') := by
  have hrender : (Expr.paren e').render = (Expr.paren e).render := by
    rw [Expr.render, h.render, Expr.render]
  refine ⟨hrender, fun env => ?_⟩
  rw [Expr.evaluate, h.evaluate, Expr.evaluate]
  exact congrArg _ (funext fun value => checkFinite_congr hrender _)

/-- Where a call stands makes no difference. -/
theorem call {as as' : List Argument} (name : String) (h : Argument.AllAgree as as')
    (range range' : Extent) : (Expr.call name as range).Agrees (.call name as' range') := by
  have hrender : (Expr.call name as' range').render = (Expr.call name as range).render := by
    rw [Expr.render, h.renderFirst, Expr.render]
  refine ⟨hrender, fun env => ?_⟩
  rw [Expr.evaluate, Expr.evaluate, h.evaluate]
  simp only [checkFinite_congr hrender]

/-- What is no function has no value, whatever its arguments are. -/
theorem call_unresolved {as as' : List Argument} {name : String} (hname : Function.ofName? name = none)
    (h : Argument.renderFirst as' = Argument.renderFirst as) (range range' : Extent) :
    (Expr.call name as range).Agrees (.call name as' range') := by
  refine ⟨by rw [Expr.render, h, Expr.render], fun env => ?_⟩
  rw [Expr.evaluate, Expr.evaluate, hname]

end Agrees

end Expr

/-! ### Places -/

theorem Equation.render_congr {op : AssignOp} {body body' : Expr} (h : body'.render = body.render)
    (uncertainty : Option Uncertainty) :
    Equation.render ⟨op, body', uncertainty⟩ = Equation.render ⟨op, body, uncertainty⟩ := by
  simp only [Equation.render, h]

theorem Value.separator_bare (value : Value) (before : Bool) :
    value.bare.separator before = value.separator before := by
  cases value <;> rfl

theorem Parameter.render_congr {refinement : Refinement} {name : Option String} {value value' : Value}
    (hseparator : ∀ before, value'.separator before = value.separator before)
    (hrender : value'.render = value.render) :
    Parameter.render ⟨refinement, name, value'⟩ = Parameter.render ⟨refinement, name, value⟩ := by
  simp only [Parameter.render, hseparator, hrender]

mutual

/-- **The places of its calls** make no difference to an expression. -/
theorem Expr.agrees_bare : ∀ e : Expr, e.Agrees e.bare
  | .literal _ | .ident _ => .refl _
  | .call name as range => .call name (Argument.allAgree_bare as) range _
  | .unary op operand => .unary op operand.agrees_bare
  | .binary op lhs rhs => .binary op lhs.agrees_bare rhs.agrees_bare
  | .paren inner => .paren inner.agrees_bare

theorem Argument.allAgree_bare : ∀ as : List Argument, Argument.AllAgree as (Argument.bareAll as)
  | [] => .nil
  | a :: as => .cons a.agrees_bare (Argument.allAgree_bare as)

theorem Argument.agrees_bare : ∀ a : Argument, a.Agrees a.bare
  | .hole => .refl _
  | .parameter p => .parameter p.render_bare
  | .expr e => .expr e.agrees_bare
  | .equation e => .equation e.render_bare

theorem Parameter.render_bare : ∀ p : Parameter, p.bare.render = p.render
  | ⟨_, _, value⟩ => Parameter.render_congr value.separator_bare value.render_bare

theorem Value.render_bare : ∀ value : Value, value.bare.render = value.render
  | .absent | .literal _ => rfl
  | .equation e => e.render_bare

theorem Equation.render_bare : ∀ e : Equation, e.bare.render = e.render
  | ⟨_, body, uncertainty⟩ => Equation.render_congr body.agrees_bare.render uncertainty

end

/-! ### Numbers -/

namespace Literal

/-- There is no whole number `-0`. -/
def isIntegerZero : Literal → Bool
  | .integer n => n == 0
  | _ => false

variable {value : Literal}

theorem isUnsigned_iff :
    value.isUnsigned = true ↔ value.isNumber = true ∧ value.isNegative = false ∧ value.Legible := by
  simp [isUnsigned, and_assoc]

theorem magnitude_negated (h : value.Legible) : value.negated.magnitude = value.magnitude := by
  cases value with
  | integer n => simp [negated, magnitude]
  | decimal x =>
    obtain ⟨b, hb⟩ := Binary.exists_ofFloat? h
    simp only [negated, magnitude, hb, Binary.ofFloat?_neg hb, Option.map_some]
    rfl
  | string text => rfl

theorem isNegative_negated (h : value.Legible) (hnum : value.isNumber = true)
    (hzero : value.isIntegerZero = false) : value.negated.isNegative = !value.isNegative := by
  cases value with
  | integer n =>
    have hne : n ≠ 0 := by simpa [isIntegerZero] using hzero
    simp only [negated, isNegative]
    by_cases hneg : n < 0
    · simp only [hneg, decide_true, Bool.not_true, decide_eq_false_iff_not]
      omega
    · simp only [hneg, decide_false, Bool.not_false, decide_eq_true_eq]
      omega
  | decimal x =>
    obtain ⟨b, hb⟩ := Binary.exists_ofFloat? h
    simp [negated, isNegative, hb, Binary.ofFloat?_neg hb]
  | string text => cases hnum

theorem negated_negated (h : value.Legible) : value.negated.negated = value := by
  cases value with
  | integer n => exact congrArg Literal.integer (Int.neg_neg n)
  | decimal x => exact congrArg Literal.decimal (Binary.neg_neg_of_isFinite h)
  | string text => rfl

theorem isIntegerZero_negated (value : Literal) : value.negated.isIntegerZero = value.isIntegerZero := by
  cases value with
  | integer n => simp [negated, isIntegerZero]
  | _ => rfl

/-- Of the numbers without a minus, each is within the limits with one, too. -/
theorem legible_negated (h : value.isUnsigned = true) : value.negated.Legible := by
  obtain ⟨hnum, hneg, hlegible⟩ := isUnsigned_iff.1 h
  cases value with
  | integer n =>
    simp only [isNegative, decide_eq_false_iff_not, Int.not_lt] at hneg
    simp only [negated, Legible, fitsInteger, Bool.and_eq_true, decide_eq_true_eq] at hlegible ⊢
    have hmin : Int64.minValue.toInt = -9223372036854775808 := by decide
    have hmax : Int64.maxValue.toInt = 9223372036854775807 := by decide
    omega
  | decimal x => exact isFinite_neg hlegible
  | string text => cases hnum

/-- A number within the limits is a finite double, and the number with the other sign is its negation. -/
theorem exists_toFloat? (h : value.isUnsigned = true) (hzero : value.isIntegerZero = false) :
    ∃ x : Float, value.toFloat? = some x ∧ value.negated.toFloat? = some (-x) ∧ x.isFinite = true := by
  obtain ⟨hnum, hneg, hlegible⟩ := isUnsigned_iff.1 h
  cases value with
  | integer n =>
    have hpos : 0 < n := by
      have hne : n ≠ 0 := by simpa [isIntegerZero] using hzero
      have hle : 0 ≤ n := by simpa [isNegative] using hneg
      omega
    have hfits : n.natAbs < 2 ^ 64 := by
      simp only [Legible, fitsInteger, Bool.and_eq_true, decide_eq_true_eq] at hlegible
      have hmax : Int64.maxValue.toInt = 9223372036854775807 := by decide
      omega
    exact ⟨_, rfl, congrArg some (Binary.ofInt_neg hpos hfits),
      Binary.isFinite_ofBits (Binary.isMagnitude_nearestBits hfits) _⟩
  | decimal x => exact ⟨x, rfl, rfl, hlegible⟩
  | string text => cases hnum

end Literal

theorem Expr.evaluate_literal {value : Literal} {x : Float} (h : value.toFloat? = some x)
    (env : String → Option Float) : (Expr.literal value).evaluate env = (Expr.literal value).checkFinite x := by
  cases value with
  | string text => cases h
  | _ =>
    cases h
    rfl

/-- **A minus before a number** and the number with the other sign agree. -/
theorem Expr.Agrees.negated {value : Literal} (h : value.isUnsigned = true)
    (hzero : value.isIntegerZero = false) :
    (Expr.unary .minus (.literal value)).Agrees (.literal value.negated) := by
  have hlegible := Literal.legible_negated h
  obtain ⟨x, hvalue, hnegated, hfinite⟩ := Literal.exists_toFloat? h hzero
  obtain ⟨hnum, hneg, hunsigned⟩ := Literal.isUnsigned_iff.1 h
  have hrender : (Expr.literal value.negated).render = (Expr.unary .minus (.literal value)).render := by
    rw [Expr.render, Literal.render_eq hlegible, Literal.magnitude_negated hunsigned,
      Literal.isNegative_negated hunsigned hnum hzero, hneg, Expr.render, Expr.render,
      Literal.render_eq hunsigned, hneg]
    simp [UnaryOp.symbol]
  refine ⟨hrender, fun env => ?_⟩
  calc (Expr.literal value.negated).evaluate env
      = (Expr.literal value.negated).checkFinite (-x) := evaluate_literal hnegated env
    _ = (Expr.unary .minus (.literal value)).checkFinite (-x) := checkFinite_congr hrender _
    _ = (Expr.unary .minus (.literal value)).evaluate env := by
      rw [Expr.evaluate, evaluate_literal hvalue, Expr.checkFinite, Expr.checkFinite, if_pos hfinite]
      rfl

end ControlFile
