import ControlFile.Proofs.Expr.Agreement

/-!
# What the full writing shows

In the full writing of an expression every operation has parentheses, and those of the source are
left out.  An equation among the arguments of a call is written as it stands, however: its own
parentheses stay, its operations get none, and a minus before a number and the number with the other
sign look the same.

`Expr.outline` is what is left to see.  It has no parentheses outside equations, and inside them every
number with a minus is an operation (`Expr.splitSigns`).  The full writing depends on the outline only
(`Expr.renderFull_outline`).  Where no argument is an equation, the outline is the expression without
any parentheses and places (`Expr.outline_eq`).

`Expr.full` is the expression that is written in full: `Expr.render_full`.
-/

namespace ControlFile

/-! ### Expressions without parentheses -/

mutual

/-- The expression without its parentheses, at every depth. -/
def Expr.unparen : Expr → Expr
  | .literal value => .literal value
  | .ident name => .ident name
  | .call name arguments range => .call name (Argument.unparenAll arguments) range
  | .unary op operand => .unary op operand.unparen
  | .binary op lhs rhs => .binary op lhs.unparen rhs.unparen
  | .paren inner => inner.unparen

def Argument.unparenAll : List Argument → List Argument
  | [] => []
  | a :: as => a.unparen :: Argument.unparenAll as

def Argument.unparen : Argument → Argument
  | .hole => .hole
  | .parameter param => .parameter param.unparen
  | .expr expr => .expr expr.unparen
  | .equation equation => .equation equation.unparen

def Parameter.unparen : Parameter → Parameter
  | ⟨refinement, name, value⟩ => ⟨refinement, name, value.unparen⟩

def Value.unparen : Value → Value
  | .absent => .absent
  | .literal value => .literal value
  | .equation equation => .equation equation.unparen

def Equation.unparen : Equation → Equation
  | ⟨op, body, uncertainty⟩ => ⟨op, body.unparen, uncertainty⟩

end

mutual

/-- Whether an argument of a call in the expression is an equation. -/
def Expr.hasEquation : Expr → Bool
  | .literal _ | .ident _ => false
  | .call _ arguments _ => Argument.anyEquation arguments
  | .unary _ operand => operand.hasEquation
  | .binary _ lhs rhs => lhs.hasEquation || rhs.hasEquation
  | .paren inner => inner.hasEquation

def Argument.anyEquation : List Argument → Bool
  | [] => false
  | a :: as => a.hasEquation || Argument.anyEquation as

def Argument.hasEquation : Argument → Bool
  | .hole => false
  | .parameter param => param.hasEquation
  | .expr expr => expr.hasEquation
  | .equation _ => true

def Parameter.hasEquation : Parameter → Bool
  | ⟨_, _, .equation _⟩ => true
  | _ => false

end

/-! ### Signs that are operations -/

/-- The number without its minus, and a minus before it. -/
def Literal.splitSign (value : Literal) : Expr :=
  if value.isNegative then .unary .minus (.literal value.negated) else .literal value

mutual

/-- The expression with every minus of a number taken out of it. -/
def Expr.splitSigns : Expr → Expr
  | .literal value => value.splitSign
  | .ident name => .ident name
  | .call name arguments range => .call name (Argument.splitSignsAll arguments) range
  | .unary op operand => .unary op operand.splitSigns
  | .binary op lhs rhs => .binary op lhs.splitSigns rhs.splitSigns
  | .paren inner => .paren inner.splitSigns

def Argument.splitSignsAll : List Argument → List Argument
  | [] => []
  | a :: as => a.splitSigns :: Argument.splitSignsAll as

def Argument.splitSigns : Argument → Argument
  | .hole => .hole
  | .parameter param => .parameter param
  | .expr expr => .expr expr.splitSigns
  | .equation equation => .equation equation.splitSigns

def Equation.splitSigns : Equation → Equation
  | ⟨op, body, uncertainty⟩ => ⟨op, body.splitSigns, uncertainty⟩

end

/-! ### Outlines -/

mutual

/-- The expression without places and without parentheses, except that equations among the arguments
keep theirs; numbers in the equations have no minus of their own. -/
def Expr.outline : Expr → Expr
  | .literal value => .literal value
  | .ident name => .ident name
  | .call name arguments _ => .call name (Argument.outlineAll arguments) (.emptyAt 0)
  | .unary op operand => .unary op operand.outline
  | .binary op lhs rhs => .binary op lhs.outline rhs.outline
  | .paren inner => inner.outline

def Argument.outlineAll : List Argument → List Argument
  | [] => []
  | a :: as => a.outline :: Argument.outlineAll as

def Argument.outline : Argument → Argument
  | .hole => .hole
  | .parameter param => .parameter param.bare
  | .expr expr => .expr expr.outline
  | .equation equation => .equation equation.splitSigns.bare

end

theorem Parameter.bare_unparen {p : Parameter} (h : p.hasEquation = false) : p.unparen.bare = p.bare := by
  obtain ⟨refinement, name, value⟩ := p
  cases value with
  | absent => rfl
  | literal value => rfl
  | equation e => exact Bool.noConfusion h

mutual

/-- **Without equations** among the arguments, an outline has no parentheses at all. -/
theorem Expr.outline_eq : (e : Expr) → e.hasEquation = false → e.outline = e.unparen.bare
  | .literal _, _ | .ident _, _ => rfl
  | .call _ as _, h => by rw [Expr.outline, Argument.outlineAll_eq as h, Expr.unparen, Expr.bare]
  | .unary _ operand, h => by rw [Expr.outline, operand.outline_eq h, Expr.unparen, Expr.bare]
  | .binary _ lhs rhs, h => by
    obtain ⟨hl, hr⟩ := Bool.or_eq_false_iff.1 h
    rw [Expr.outline, lhs.outline_eq hl, rhs.outline_eq hr, Expr.unparen, Expr.bare]
  | .paren inner, h => inner.outline_eq h

theorem Argument.outlineAll_eq : (as : List Argument) → Argument.anyEquation as = false →
    Argument.outlineAll as = Argument.bareAll (Argument.unparenAll as)
  | [], _ => rfl
  | a :: as, h => by
    obtain ⟨ha, has⟩ := Bool.or_eq_false_iff.1 h
    rw [Argument.outlineAll, a.outline_eq ha, Argument.outlineAll_eq as has, Argument.unparenAll,
      Argument.bareAll]

theorem Argument.outline_eq : (a : Argument) → a.hasEquation = false → a.outline = a.unparen.bare
  | .hole, _ => rfl
  | .parameter p, h => by
    rw [Argument.outline, ← Parameter.bare_unparen h, Argument.unparen, Argument.bare]
  | .expr e, h => by rw [Argument.outline, e.outline_eq h, Argument.unparen, Argument.bare]
  | .equation _, h => Bool.noConfusion h

end

/-! ### The outline is written alike -/

/-- A minus before a number without one looks like the minus of a number. -/
theorem Literal.render_splitSign {value : Literal} (h : value.Legible) :
    value.splitSign.render = value.render := by
  unfold splitSign
  cases hneg : value.isNegative with
  | false => rfl
  | true =>
    rw [if_pos rfl, Expr.render, Expr.render]
    cases value with
    | integer n =>
      cases n with
      | ofNat n =>
        have hlt : (n : Int) < 0 := by simpa [isNegative] using hneg
        omega
      | negSucc n => rfl
    | decimal x =>
      have hlegible : (negated (.decimal x)).Legible := isFinite_neg h
      have hnegated : (negated (.decimal x)).isNegative = false := by
        rw [isNegative_negated h rfl rfl, hneg]
        rfl
      rw [render_eq hlegible, hnegated, magnitude_negated h, render_eq h, hneg]
      rfl
    | string text => exact Bool.noConfusion hneg

theorem Argument.isHole_splitSigns (a : Argument) : a.splitSigns.isHole = a.isHole := by
  cases a <;> rfl

mutual

theorem Expr.render_splitSigns : (e : Expr) → e.Legible → e.splitSigns.render = e.render
  | .literal _, h => Literal.render_splitSign h
  | .ident _, _ => rfl
  | .call _ as _, h => by
    rw [Expr.splitSigns, Expr.render, Argument.renderFirst_splitSigns as h.2, Expr.render]
  | .unary _ operand, h => by rw [Expr.splitSigns, Expr.render, operand.render_splitSigns h, Expr.render]
  | .binary _ lhs rhs, h => by
    rw [Expr.splitSigns, Expr.render, lhs.render_splitSigns h.1, rhs.render_splitSigns h.2, Expr.render]
  | .paren inner, h => by rw [Expr.splitSigns, Expr.render, inner.render_splitSigns h, Expr.render]

theorem Argument.renderFirst_splitSigns : (as : List Argument) → Argument.AllLegible as →
    Argument.renderFirst (Argument.splitSignsAll as) = Argument.renderFirst as
  | [], _ => rfl
  | a :: as, h => by
    rw [Argument.splitSignsAll, Argument.renderFirst, a.render_splitSigns h.1,
      Argument.renderRest_splitSigns as h.2, Argument.renderFirst]

theorem Argument.renderRest_splitSigns : (as : List Argument) → Argument.AllLegible as →
    Argument.renderRest (Argument.splitSignsAll as) = Argument.renderRest as
  | [], _ => rfl
  | a :: as, h => by
    rw [Argument.splitSignsAll, Argument.renderRest, Argument.separator, a.isHole_splitSigns,
      a.render_splitSigns h.1, Argument.renderRest_splitSigns as h.2, Argument.renderRest,
      Argument.separator]

theorem Argument.render_splitSigns : (a : Argument) → a.Legible → a.splitSigns.render = a.render
  | .hole, _ | .parameter _, _ => rfl
  | .expr e, h => e.render_splitSigns h
  | .equation e, h => e.render_splitSigns h

theorem Equation.render_splitSigns : (e : Equation) → e.Legible → e.splitSigns.render = e.render
  | ⟨_, body, uncertainty⟩, h => Equation.render_congr (body.render_splitSigns h.1) uncertainty

end

theorem Argument.isHole_outline (a : Argument) : a.outline.isHole = a.isHole := by
  cases a <;> rfl

mutual

/-- **The full writing shows the outline** and nothing else. -/
theorem Expr.renderFull_outline : (e : Expr) → e.Legible → e.outline.renderFull = e.renderFull
  | .literal _, _ | .ident _, _ => rfl
  | .call _ as _, h => by
    rw [Expr.outline, Expr.renderFull, Argument.renderFullFirst_outline as h.2, Expr.renderFull]
  | .unary _ operand, h => by
    rw [Expr.outline, Expr.renderFull, operand.renderFull_outline h, Expr.renderFull]
  | .binary _ lhs rhs, h => by
    rw [Expr.outline, Expr.renderFull, lhs.renderFull_outline h.1, rhs.renderFull_outline h.2,
      Expr.renderFull]
  | .paren inner, h => by rw [Expr.outline, inner.renderFull_outline h, Expr.renderFull]

theorem Argument.renderFullFirst_outline : (as : List Argument) → Argument.AllLegible as →
    Argument.renderFullFirst (Argument.outlineAll as) = Argument.renderFullFirst as
  | [], _ => rfl
  | a :: as, h => by
    rw [Argument.outlineAll, Argument.renderFullFirst, a.renderFull_outline h.1,
      Argument.renderFullRest_outline as h.2, Argument.renderFullFirst]

theorem Argument.renderFullRest_outline : (as : List Argument) → Argument.AllLegible as →
    Argument.renderFullRest (Argument.outlineAll as) = Argument.renderFullRest as
  | [], _ => rfl
  | a :: as, h => by
    rw [Argument.outlineAll, Argument.renderFullRest, Argument.separator, a.isHole_outline,
      a.renderFull_outline h.1, Argument.renderFullRest_outline as h.2, Argument.renderFullRest,
      Argument.separator]

theorem Argument.renderFull_outline : (a : Argument) → a.Legible → a.outline.renderFull = a.renderFull
  | .hole, _ => rfl
  | .parameter p, _ => p.render_bare
  | .expr e, h => e.renderFull_outline h
  | .equation e, h => e.splitSigns.render_bare.trans (e.render_splitSigns h)

end

/-! ### The expression in full -/

mutual

/-- The expression with parentheses around every operation and no others, outside equations. -/
def Expr.full : Expr → Expr
  | .literal value => .literal value
  | .ident name => .ident name
  | .call name arguments range => .call name (Argument.fullAll arguments) range
  | .unary op operand => .paren (.unary op operand.full)
  | .binary op lhs rhs => .paren (.binary op lhs.full rhs.full)
  | .paren inner => inner.full

def Argument.fullAll : List Argument → List Argument
  | [] => []
  | a :: as => a.full :: Argument.fullAll as

def Argument.full : Argument → Argument
  | .hole => .hole
  | .parameter param => .parameter param
  | .expr expr => .expr expr.full
  | .equation equation => .equation equation

end

theorem Argument.isHole_full (a : Argument) : a.full.isHole = a.isHole := by
  cases a <;> rfl

mutual

theorem Expr.render_full : (e : Expr) → e.full.render = e.renderFull
  | .literal _ | .ident _ => rfl
  | .call _ as _ => by rw [Expr.full, Expr.render, Argument.renderFirst_full as, Expr.renderFull]
  | .unary _ operand => by
    simp only [Expr.full, Expr.render, operand.render_full, Expr.renderFull, String.append_assoc]
  | .binary _ lhs rhs => by
    simp only [Expr.full, Expr.render, lhs.render_full, rhs.render_full, Expr.renderFull,
      String.append_assoc]
  | .paren inner => inner.render_full

theorem Argument.renderFirst_full : (as : List Argument) →
    Argument.renderFirst (Argument.fullAll as) = Argument.renderFullFirst as
  | [] => rfl
  | a :: as => by
    rw [Argument.fullAll, Argument.renderFirst, a.render_full, Argument.renderRest_full as,
      Argument.renderFullFirst]

theorem Argument.renderRest_full : (as : List Argument) →
    Argument.renderRest (Argument.fullAll as) = Argument.renderFullRest as
  | [] => rfl
  | a :: as => by
    rw [Argument.fullAll, Argument.renderRest, Argument.separator, a.isHole_full, a.render_full,
      Argument.renderRest_full as, Argument.renderFullRest, Argument.separator]

theorem Argument.render_full : (a : Argument) → a.full.render = a.renderFull
  | .hole | .parameter _ | .equation _ => rfl
  | .expr e => e.render_full

end

mutual

theorem Expr.Legible.full : {e : Expr} → e.Legible → e.full.Legible
  | .literal _, h | .ident _, h => h
  | .call _ _ _, h => ⟨h.1, Argument.allLegible_full h.2⟩
  | .unary _ operand, h => Expr.Legible.full (e := operand) h
  | .binary _ lhs rhs, h => ⟨Expr.Legible.full (e := lhs) h.1, Expr.Legible.full (e := rhs) h.2⟩
  | .paren inner, h => Expr.Legible.full (e := inner) h

theorem Argument.allLegible_full : {as : List Argument} → Argument.AllLegible as →
    Argument.AllLegible (Argument.fullAll as)
  | [], _ => trivial
  | _ :: _, h => ⟨Argument.Legible.full h.1, Argument.allLegible_full h.2⟩

theorem Argument.Legible.full : {a : Argument} → a.Legible → a.full.Legible
  | .hole, h | .parameter _, h | .equation _, h => h
  | .expr expr, h => Expr.Legible.full (e := expr) h

end

/-- **The full writing is cut into the row of the full expression.** -/
theorem Expr.Legible.lexemes_renderFull {e : Expr} (h : e.Legible) :
    Lexer.lexemes true e.renderFull.toList = e.full.row true := by
  have := h.full.writes.spells true [] Lexer.closed_nil
  rwa [Expr.render_full, List.append_nil, Lexer.lexemes_nil, List.append_nil] at this

end ControlFile
