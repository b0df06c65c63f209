import ControlFile.Proofs.Expr.Lookahead

/-!
# Expressions between items

Between items an expression ends earlier than in an equation: two factors next to each other are two items
there, and so are what stands before and behind a minus that touches a number and has space before it.
Where it makes no difference to what follows, both ways of reading come to the same
(`Parser.expression_agrees`).  At the end of the tokens it makes none, so an expression that is read to the
end between items is the same expression in an equation (`Parser.expression_juxtaposed`).

An expression between items cannot go on once it has come to a place where the two ways part: no level
sees an operation there (`Cursor.Parts.operation?_eq_none`).  This carries the induction over the levels.
-/

namespace ControlFile

/-- An expression goes on here in an equation, and it ends here between items. -/
def Cursor.Parts (c : Cursor) : Prop := Parser.operation? false c ≠ Parser.operation? true c

namespace Cursor

variable {c : Cursor}

/-- Where the two ways part, an expression between items has no operation to go on with. -/
theorem Parts.operation?_eq_none (h : c.Parts) : Parser.operation? false c = none := by
  unfold Parts at h
  unfold Parser.operation? at h ⊢
  grind

/-- At the end of the tokens nothing goes on, in either way. -/
theorem not_parts_of_rest (h : c.rest = []) : ¬c.Parts := by
  have hkind : c.kind? = none := by simp [kind?, peek?, h]
  simp [Parts, Parser.operation?, hkind]

end Cursor

namespace Parser

/-- What `p` reads `q` reads as well, unless `p` stops where the two ways part. -/
def Agrees (p q : Parser Expr) : Prop :=
  ∀ c, Ensures p c fun e c' => q c = .ok e c' ∨ c'.Parts

theorem Agrees.refl (p : Parser Expr) : Agrees p p := fun _ _ _ h => .inl h

theorem operations_of_none {juxtapose : Bool} {level limit : Nat} {operand : Parser Expr} {c : Cursor}
    (h : operation? juxtapose c = none) (lhs : Expr) :
    operations juxtapose level operand limit lhs c = .ok lhs c := by
  cases limit with
  | zero => rfl
  | succ limit =>
    rw [operations, get_bind, h]
    rfl

variable {operand operand' : Parser Expr}

/-- One step of the loop: the operation, its symbol and the operand behind it are the same, and so is
the rest, unless the operand stops where the ways part; then the loop stops there, too. -/
theorem agrees_operations (h : Agrees operand operand') (level limit : Nat) (lhs : Expr) (c : Cursor) :
    Ensures (operations false level operand limit lhs) c fun e c' =>
      operations true level operand' limit lhs c = .ok e c' ∨ c'.Parts := by
  induction limit generalizing lhs c with
  | zero => exact .pure (.inl rfl)
  | succ limit ih =>
    by_cases hparts : c.Parts
    · intro e c' hrun
      rw [operations_of_none hparts.operation?_eq_none] at hrun
      cases hrun
      exact .inr hparts
    · have hsame : operation? true c = operation? false c := (Classical.not_not.1 hparts).symm
      rw [operations, operations]
      refine .get_bind ?_
      rw [get_bind, hsame]
      cases operation? false c with
      | none => exact .pure (.inl rfl)
      | some op =>
        dsimp only
        by_cases hlevel : op.level = level
        · rw [if_pos hlevel, if_pos hlevel]
          refine .bind fun _ c₁ hsymbol => .bind fun rhs c₂ hrhs e c' hrest => ?_
          rw [bind_of_ok hsymbol]
          rcases h c₁ rhs c₂ hrhs with hoperand | hstop
          · rw [bind_of_ok hoperand]
            exact ih _ c₂ e c' hrest
          · rw [operations_of_none hstop.operation?_eq_none] at hrest
            cases hrest
            exact .inr hstop
        · rw [if_neg hlevel, if_neg hlevel]
          exact .pure (.inl rfl)

theorem agrees_grouped (h : Agrees operand operand') (level : Nat) :
    Agrees (grouped false level operand) (grouped true level operand') := by
  intro c
  refine .bind fun lhs c₁ hlhs => .get_bind fun e c' hrest => ?_
  rcases h c lhs c₁ hlhs with hoperand | hstop
  · rw [grouped, bind_of_ok hoperand]
    exact agrees_operations h level _ lhs c₁ e c' hrest
  · rw [operations_of_none hstop.operation?_eq_none] at hrest
    cases hrest
    exact .inr hstop

/-- **Both ways of reading agree**, unless the expression ends where they part. -/
theorem expression_agrees (v : Vocabulary) (levels : Nat) :
    Agrees (expression v levels false) (expression v levels true) := by
  cases levels with
  | zero => exact .refl _
  | succ levels => exact agrees_grouped (agrees_grouped (agrees_grouped (.refl _) 3) 2) 1

/-- **An expression between items is the same in an equation**, if all tokens belong to it. -/
theorem expression_juxtaposed {v : Vocabulary} {levels : Nat} {c c' : Cursor} {e : Expr}
    (h : expression v levels false c = .ok e c') (hend : c'.rest = []) :
    expression v levels true c = .ok e c' :=
  (expression_agrees v levels c e c' h).resolve_right (Cursor.not_parts_of_rest hend)

/-- A minus that has no number behind it, a negative exponent, and factors and a minus with space before it
among the arguments. -/
theorem expression_juxtaposed_difference :
    let c : Cursor := ⟨(TokenStream.ofText "x -f(2 y, 1 -2)^-3").tokens, 0, 18⟩
    let c' : Cursor := ⟨[], 18, 18⟩
    let product : Expr := .binary .juxtaposed (.literal (.integer 2)) (.ident "y")
    let difference : Expr := .binary .sub (.literal (.integer 1)) (.literal (.integer 2))
    let call : Expr := .call "f" [.expr product, .expr difference] ⟨3, 15⟩
    let e : Expr := .binary .sub (.ident "x") (.binary .pow call (.literal (.integer (-3))))
    expression default 2 false c = .ok e c' ∧ c'.rest = [] ∧ expression default 2 true c = .ok e c' := by
  intro c c' product difference call e
  have htokens : (TokenStream.ofText "x -f(2 y, 1 -2)^-3").tokens =
      [⟨.ident, "x", ⟨0, 1⟩, true⟩, ⟨.operator .sub, "-", ⟨2, 3⟩, true⟩,
       ⟨.ident, "f", ⟨3, 4⟩, false⟩, ⟨.mark .openParen, "(", ⟨4, 5⟩, false⟩,
       ⟨.integer, "2", ⟨5, 6⟩, false⟩, ⟨.ident, "y", ⟨7, 8⟩, true⟩,
       ⟨.mark .comma, ",", ⟨8, 9⟩, false⟩, ⟨.integer, "1", ⟨10, 11⟩, true⟩,
       ⟨.operator .sub, "-", ⟨12, 13⟩, true⟩, ⟨.integer, "2", ⟨13, 14⟩, false⟩,
       ⟨.mark .closeParen, ")", ⟨14, 15⟩, false⟩, ⟨.operator .pow, "^", ⟨15, 16⟩, false⟩,
       ⟨.operator .sub, "-", ⟨16, 17⟩, false⟩, ⟨.integer, "3", ⟨17, 18⟩, false⟩] := by decide +kernel
  have hrun : expression default 2 false c = .ok e c' := by
    simp only [c, htokens]
    rfl
  exact ⟨hrun, rfl, expression_juxtaposed hrun rfl⟩

end Parser

end ControlFile
