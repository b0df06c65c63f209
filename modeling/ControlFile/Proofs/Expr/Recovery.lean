import ControlFile.Proofs.Expr.Outline
import ControlFile.Proofs.Expr.Reading

/-!
# Rows that are read back

The parser reads one thing only (`Parser.ReadsTo.unique`), so what it reads back has a row of its own:
literals and marked places (`Literal.eq_of_row`, `Parameter.eq_of_row`), and equations up to the signs
that become part of a number.  The row of an equation tells these, too: a minus before the number zero is
in the row, although it is not in what is read.  What is left open is whether a minus is an operation or
belongs to the number (`Equation.splitSigns_eq_of_row`).
-/

namespace ControlFile

open Lexeme ControlFile.Parser

theorem Cursor.exists_lexemes (ls : List Lexeme) : ∃ c : Cursor, c.lexemes = ls := by
  refine ⟨⟨ls.map fun l => ⟨l.kind, l.text, .emptyAt 0, l.spaced⟩, 0, 0⟩, ?_⟩
  simp [lexemes, Token.lexeme, Function.comp_def]

/-- A parser reads one thing only. -/
theorem Parser.ReadsTo.unique {α β : Type} {p : Parser α} {c : Cursor} {view : α → β} {b b' : β}
    {rs rs' : List Lexeme} (h : ReadsTo p c view b rs) (h' : ReadsTo p c view b' rs') :
    b = b' ∧ rs = rs' := by
  obtain ⟨a, d, hrun, rfl, rfl⟩ := h
  obtain ⟨a', d', hrun', rfl, rfl⟩ := h'
  rw [hrun] at hrun'
  cases hrun'
  exact ⟨rfl, rfl⟩

/-! ### Literals and marked places -/

section Rows

variable {v : Vocabulary} {s : Bool} {rs rs' : List Lexeme}

theorem Literal.eq_of_row {value value' : Literal} (h : value.Legible) (h' : value'.Legible)
    (hrow : value.row s ++ rs = value'.row s ++ rs') : value = value' ∧ rs = rs' := by
  obtain ⟨c, hc⟩ := Cursor.exists_lexemes (value.row s ++ rs)
  obtain ⟨heq, hrest⟩ := (signedLiteral?_row h hc).unique (signedLiteral?_row h' (hc.trans hrow))
  exact ⟨Option.some.inj heq, hrest⟩

theorem Parameter.eq_of_row {p p' : Parameter} (h : p.IsMarked v) (h' : p'.IsMarked v)
    (hends : EndsArgument rs) (hends' : EndsArgument rs') (hrow : p.row s ++ rs = p'.row s ++ rs') :
    p = p' ∧ rs = rs' := by
  obtain ⟨c, hc⟩ := Cursor.exists_lexemes (p.row s ++ rs)
  exact (markedParameter_row h hc (hends.endsPlace v _ _)).unique
    (markedParameter_row h' (hc.trans hrow) (hends'.endsPlace v _ _))

end Rows

/-- A legible place has no signs and calls in it. -/
theorem Parameter.Legible.bare_foldSigns {p : Parameter} (h : p.Legible) : p.foldSigns.bare = p := by
  obtain ⟨refinement, name, value⟩ := p
  have hplain := h.value
  cases value with
  | absent => rfl
  | literal value => rfl
  | equation e => exact hplain.elim

/-! ### Equations

What is read back gives the shape, and the row gives the signs. -/

theorem UnaryOp.lexeme_inj {op op' : UnaryOp} {s : Bool} (h : op.lexeme s = op'.lexeme s) : op = op' := by
  cases op <;> cases op' <;> first | rfl | cases h

/-- A number that became negative shows its minus in its row, unless it is zero. -/
theorem Literal.splitSign_negated {value : Literal} (h : value.isUnsigned = true) {s : Bool}
    {rs rs' : List Lexeme}
    (hrow : value.negated.row s ++ rs = .ofChar '-' s :: (value.row false ++ rs')) :
    value.negated.splitSign = .unary .minus (.literal value) ∧ rs = rs' := by
  obtain ⟨hnum, hneg, hlegible⟩ := Literal.isUnsigned_iff.1 h
  unfold Literal.row at hrow
  rw [Literal.magnitude_negated hlegible, hneg] at hrow
  cases hsign : value.negated.isNegative with
  | true =>
    rw [hsign] at hrow
    rw [Literal.splitSign, hsign, if_pos rfl, Literal.negated_negated hlegible]
    simpa [withMinus] using hrow
  | false =>
    rw [hsign] at hrow
    have hkind : value.magnitude.1 = .operator .sub := by
      have := (List.cons.inj hrow).1
      exact congrArg Lexeme.kind this
    have hlit := value.kind_magnitude
    rw [hkind] at hlit
    exact Bool.noConfusion hlit

/-- Two operations with the same row and the same reading. -/
theorem Expr.splitSigns_unary {op op' : UnaryOp} (e e' : Expr) (h : e.Legible) (h' : e'.Legible)
    {followed s : Bool} {rs rs' : List Lexeme}
    (hfold : ((Expr.unary op e).foldSigns followed).bare = ((Expr.unary op' e').foldSigns followed).bare)
    (hrow : (Expr.unary op e).row s ++ rs = (Expr.unary op' e').row s ++ rs')
    (ih : (e.foldSigns followed).bare = (e'.foldSigns followed).bare →
      e.row false ++ rs = e'.row false ++ rs' → e.splitSigns.bare = e'.splitSigns.bare ∧ rs = rs') :
    (Expr.unary op e).splitSigns.bare = (Expr.unary op' e').splitSigns.bare ∧ rs = rs' := by
  rw [Expr.row, Expr.row, List.cons_append, List.cons_append, List.cons.injEq] at hrow
  obtain ⟨hsign, hrow⟩ := hrow
  cases UnaryOp.lexeme_inj hsign
  have hoperand : e.splitSigns.bare = e'.splitSigns.bare ∧ rs = rs' := by
    cases hf : op.foldedLiteral? followed e with
    | none =>
      cases hf' : op.foldedLiteral? followed e' with
      | none =>
        rw [foldSigns_unary_none hf, foldSigns_unary_none hf', Expr.bare, Expr.bare] at hfold
        exact ih (Expr.unary.inj hfold).2 hrow
      | some value' =>
        rw [foldSigns_unary_none hf, foldSigns_unary_some hf', Expr.bare, Expr.bare] at hfold
        cases hfold
    | some value =>
      cases hf' : op.foldedLiteral? followed e' with
      | none =>
        rw [foldSigns_unary_some hf, foldSigns_unary_none hf', Expr.bare, Expr.bare] at hfold
        cases hfold
      | some value' =>
        -- both are numbers, and the row shows which
        obtain ⟨-, w, rfl, -, -⟩ := UnaryOp.exists_of_foldedLiteral? hf
        obtain ⟨-, w', rfl, -, -⟩ := UnaryOp.exists_of_foldedLiteral? hf'
        obtain ⟨rfl, hrest⟩ := Literal.eq_of_row h h' hrow
        exact ⟨rfl, hrest⟩
  rw [Expr.splitSigns, Expr.splitSigns, Expr.bare, Expr.bare, hoperand.1]
  exact ⟨rfl, hoperand.2⟩

/-- A number and a sign with an operand that have the same row and the same reading. -/
theorem Expr.splitSigns_literal_unary {value : Literal} {op : UnaryOp} {e : Expr} {followed s : Bool}
    {rs rs' : List Lexeme}
    (hfold : (Expr.literal value).bare = ((Expr.unary op e).foldSigns followed).bare)
    (hrow : (Expr.literal value).row s ++ rs = (Expr.unary op e).row s ++ rs') :
    (Expr.literal value).splitSigns.bare = (Expr.unary op e).splitSigns.bare ∧ rs = rs' := by
  cases hf : op.foldedLiteral? followed e with
  | none =>
    rw [foldSigns_unary_none hf, Expr.bare, Expr.bare] at hfold
    cases hfold
  | some value' =>
    rw [foldSigns_unary_some hf, Expr.bare, Expr.bare] at hfold
    cases hfold
    obtain ⟨rfl, w, rfl, hw, rfl⟩ := UnaryOp.exists_of_foldedLiteral? hf
    obtain ⟨hsplit, hrest⟩ := Literal.splitSign_negated hw hrow
    obtain ⟨-, hneg, -⟩ := Literal.isUnsigned_iff.1 hw
    have hsame : (Expr.literal w).splitSigns = .literal w := by
      rw [Expr.splitSigns, Literal.splitSign, hneg, if_neg Bool.false_ne_true]
    rw [Expr.splitSigns, hsplit, Expr.splitSigns, hsame]
    exact ⟨rfl, hrest⟩

/-- A sign and an operand are read as a number or as an operation, and as nothing else. -/
theorem Expr.bare_foldSigns_unary_ne {op : UnaryOp} {operand e : Expr} {followed : Bool}
    (hliteral : ∀ value, e ≠ .literal value) (hunary : ∀ op' operand', e ≠ .unary op' operand') :
    e ≠ ((Expr.unary op operand).foldSigns followed).bare := by
  cases hf : op.foldedLiteral? followed operand with
  | none =>
    rw [foldSigns_unary_none hf, Expr.bare]
    exact hunary op _
  | some value =>
    rw [foldSigns_unary_some hf, Expr.bare]
    exact hliteral value

mutual

/-- What has the same row and the same reading is the same, but for the signs of numbers. -/
theorem Expr.splitSigns_of_row : (e e' : Expr) → e.Legible → e'.Legible → {followed s : Bool} →
    {rs rs' : List Lexeme} → (e.foldSigns followed).bare = (e'.foldSigns followed).bare →
    e.row s ++ rs = e'.row s ++ rs' → e.splitSigns.bare = e'.splitSigns.bare ∧ rs = rs'
  | .literal value, e', h, h', followed, s, rs, rs', hfold, hrow => by
    cases e' with
    | literal value' =>
      obtain ⟨rfl, hrest⟩ := Literal.eq_of_row h h' hrow
      exact ⟨rfl, hrest⟩
    | unary op operand => exact Expr.splitSigns_literal_unary hfold hrow
    | _ => simp only [Expr.foldSigns, Expr.bare, reduceCtorEq] at hfold
  | .ident name, e', h, h', followed, s, rs, rs', hfold, hrow => by
    cases e' with
    | ident name' =>
      cases hfold
      exact ⟨rfl, List.append_cancel_left hrow⟩
    | unary op operand => exact absurd hfold (Expr.bare_foldSigns_unary_ne nofun nofun)
    | _ => simp only [Expr.foldSigns, Expr.bare, reduceCtorEq] at hfold
  | .call name as range, e', h, h', followed, s, rs, rs', hfold, hrow => by
    cases e' with
    | call name' as' range' =>
      simp only [Expr.foldSigns, Expr.bare, Expr.call.injEq, and_true] at hfold
      obtain ⟨rfl, hfold⟩ := hfold
      simp only [Expr.row, List.cons_append, List.append_assoc, List.cons.injEq, true_and] at hrow
      obtain ⟨has, hrest⟩ := Argument.splitSignsAll_of_rowFirst as as' h.2 h'.2 hfold hrow
      simp only [Expr.splitSigns, Expr.bare, has, true_and]
      exact (List.cons.inj hrest).2
    | unary op operand => exact absurd hfold (Expr.bare_foldSigns_unary_ne nofun nofun)
    | _ => simp only [Expr.foldSigns, Expr.bare, reduceCtorEq] at hfold
  | .unary op operand, e', h, h', followed, s, rs, rs', hfold, hrow => by
    cases e' with
    | literal value =>
      obtain ⟨hsame, hrest⟩ := Expr.splitSigns_literal_unary hfold.symm hrow.symm
      exact ⟨hsame.symm, hrest.symm⟩
    | unary op' operand' =>
      exact Expr.splitSigns_unary operand operand' h h' hfold hrow
        (Expr.splitSigns_of_row operand operand' h h')
    | _ => exact absurd hfold.symm (Expr.bare_foldSigns_unary_ne nofun nofun)
  | .binary op lhs rhs, e', h, h', followed, s, rs, rs', hfold, hrow => by
    cases e' with
    | binary op' lhs' rhs' =>
      simp only [Expr.foldSigns, Expr.bare, Expr.binary.injEq] at hfold
      obtain ⟨rfl, hl, hr⟩ := hfold
      simp only [Expr.row, List.append_assoc] at hrow
      obtain ⟨hlhs, hrow⟩ := Expr.splitSigns_of_row lhs lhs' h.1 h'.1 hl hrow
      obtain ⟨hrhs, hrest⟩ :=
        Expr.splitSigns_of_row rhs rhs' h.2 h'.2 hr (List.append_cancel_left hrow)
      simp only [Expr.splitSigns, Expr.bare, hlhs, hrhs, true_and]
      exact hrest
    | unary op' operand => exact absurd hfold (Expr.bare_foldSigns_unary_ne nofun nofun)
    | _ => simp only [Expr.foldSigns, Expr.bare, reduceCtorEq] at hfold
  | .paren inner, e', h, h', followed, s, rs, rs', hfold, hrow => by
    cases e' with
    | paren inner' =>
      simp only [Expr.foldSigns, Expr.bare, Expr.paren.injEq] at hfold
      simp only [Expr.row, List.cons_append, List.append_assoc, List.cons.injEq, true_and] at hrow
      obtain ⟨hinner, hrest⟩ := Expr.splitSigns_of_row inner inner' h h' hfold hrow
      simp only [Expr.splitSigns, Expr.bare, hinner, true_and]
      exact (List.cons.inj hrest).2
    | unary op operand => exact absurd hfold (Expr.bare_foldSigns_unary_ne nofun nofun)
    | _ => simp only [Expr.foldSigns, Expr.bare, reduceCtorEq] at hfold

theorem Argument.splitSignsAll_of_rowFirst : (as as' : List Argument) → Argument.AllLegible as →
    Argument.AllLegible as' → {rs rs' : List Lexeme} →
    Argument.bareAll (Argument.foldSignsAll as) = Argument.bareAll (Argument.foldSignsAll as') →
    Argument.rowFirst as ++ rs = Argument.rowFirst as' ++ rs' →
    Argument.bareAll (Argument.splitSignsAll as) = Argument.bareAll (Argument.splitSignsAll as') ∧ rs = rs'
  | [], as', _, _, rs, rs', hfold, hrow => by
    cases as' with
    | nil => exact ⟨rfl, hrow⟩
    | cons a' as' => cases hfold
  | a :: as, as', h, h', rs, rs', hfold, hrow => by
    cases as' with
    | nil => cases hfold
    | cons a' as' =>
      obtain ⟨ha, has⟩ := List.cons.inj hfold
      simp only [Argument.rowFirst, List.append_assoc] at hrow
      obtain ⟨hfirst, hrow⟩ := Argument.splitSigns_of_row a a' h.1 h'.1 ha hrow
      obtain ⟨hothers, hrest⟩ := Argument.splitSignsAll_of_rowRest as as' h.2 h'.2 has hrow
      exact ⟨by simp only [Argument.splitSignsAll, Argument.bareAll, hfirst, hothers], hrest⟩

theorem Argument.splitSignsAll_of_rowRest : (as as' : List Argument) → Argument.AllLegible as →
    Argument.AllLegible as' → {rs rs' : List Lexeme} →
    Argument.bareAll (Argument.foldSignsAll as) = Argument.bareAll (Argument.foldSignsAll as') →
    Argument.rowRest as ++ rs = Argument.rowRest as' ++ rs' →
    Argument.bareAll (Argument.splitSignsAll as) = Argument.bareAll (Argument.splitSignsAll as') ∧ rs = rs'
  | [], as', _, _, rs, rs', hfold, hrow => by
    cases as' with
    | nil => exact ⟨rfl, hrow⟩
    | cons a' as' => cases hfold
  | a :: as, as', h, h', rs, rs', hfold, hrow => by
    cases as' with
    | nil => cases hfold
    | cons a' as' =>
      obtain ⟨ha, has⟩ := List.cons.inj hfold
      simp only [Argument.rowRest, List.cons_append, List.append_assoc, List.cons.injEq, true_and] at hrow
      obtain ⟨hfirst, hrow⟩ := Argument.splitSigns_of_row a a' h.1 h'.1 ha hrow
      obtain ⟨hothers, hrest⟩ := Argument.splitSignsAll_of_rowRest as as' h.2 h'.2 has hrow
      exact ⟨by simp only [Argument.splitSignsAll, Argument.bareAll, hfirst, hothers], hrest⟩

theorem Argument.splitSigns_of_row : (a a' : Argument) → a.Legible → a'.Legible → {s : Bool} →
    {rs rs' : List Lexeme} → a.foldSigns.bare = a'.foldSigns.bare → a.row s ++ rs = a'.row s ++ rs' →
    a.splitSigns.bare = a'.splitSigns.bare ∧ rs = rs'
  | .hole, a', _, _, s, rs, rs', hfold, hrow => by
    cases a' with
    | hole => exact ⟨rfl, hrow⟩
    | _ => cases hfold
  | .parameter p, a', h, h', s, rs, rs', hfold, hrow => by
    cases a' with
    | parameter p' =>
      obtain rfl : p = p' := by
        simpa [Argument.foldSigns, Argument.bare, h.bare_foldSigns, h'.bare_foldSigns] using hfold
      exact ⟨rfl, List.append_cancel_left hrow⟩
    | _ => cases hfold
  | .expr e, a', h, h', s, rs, rs', hfold, hrow => by
    cases a' with
    | expr e' =>
      obtain ⟨hsame, hrest⟩ := Expr.splitSigns_of_row e e' h h' (Argument.expr.inj hfold) hrow
      exact ⟨congrArg Argument.expr hsame, hrest⟩
    | _ => cases hfold
  | .equation e, a', h, h', s, rs, rs', hfold, hrow => by
    cases a' with
    | equation e' =>
      obtain ⟨hsame, hrest⟩ := Equation.splitSigns_of_row e e' h h' (Argument.equation.inj hfold) hrow
      exact ⟨congrArg Argument.equation hsame, hrest⟩
    | _ => cases hfold

theorem Equation.splitSigns_of_row : (e e' : Equation) → e.Legible → e'.Legible → {s : Bool} →
    {rs rs' : List Lexeme} → e.foldSigns.bare = e'.foldSigns.bare → e.row s ++ rs = e'.row s ++ rs' →
    e.splitSigns.bare = e'.splitSigns.bare ∧ rs = rs'
  | ⟨op, body, estimate⟩, ⟨op', body', estimate'⟩, h, h', s, rs, rs', hfold, hrow => by
    simp only [Equation.foldSigns, Equation.bare, Equation.mk.injEq] at hfold
    obtain ⟨rfl, hbody, rfl⟩ := hfold
    simp only [Equation.row, List.cons_append, List.append_assoc, List.cons.injEq, true_and] at hrow
    obtain ⟨hsame, hrow⟩ := Expr.splitSigns_of_row body body' h.1 h'.1 hbody hrow
    refine ⟨by simp only [Equation.splitSigns, Equation.bare, hsame], ?_⟩
    exact List.append_cancel_left (List.cons.inj hrow).2

end

/-- What ends an argument is no colon. -/
theorem Parser.EndsArgument.ne_colon {rs : List Lexeme} (h : EndsArgument rs) :
    Lexeme.kind? rs ≠ some (.mark .colon) := by
  rcases h with h | h <;> rw [h] <;> rintro ⟨⟩

theorem Equation.kind?_row (e : Equation) (s : Bool) (rs : List Lexeme) :
    Lexeme.kind? (e.row s ++ rs) = some (.assign e.op) := by
  cases e
  rfl

/-- **The row of an equation shows it**, but for the signs of numbers. -/
theorem Equation.splitSigns_eq_of_row {v : Vocabulary} {e e' : Equation} (h : e.Grammatical v)
    (h' : e'.Grammatical v) {s : Bool} {rs rs' : List Lexeme} (hends : EndsArgument rs)
    (hends' : EndsArgument rs') (hrow : e.row s ++ rs = e'.row s ++ rs') :
    e.splitSigns.bare = e'.splitSigns.bare ∧ rs = rs' := by
  have hop : e.op = e'.op := by
    have hkind := congrArg Lexeme.kind? hrow
    rw [e.kind?_row, e'.kind?_row] at hkind
    exact TokenKind.assign.inj (Option.some.inj hkind)
  obtain ⟨c, hc⟩ := Cursor.exists_lexemes (e.row s ++ rs)
  have hread := equation_expression_row h (Nat.lt_succ_of_le (Nat.le_max_left e.nesting e'.nesting))
    (fun _ => hends.ne_colon) hc
  have hread' := equation_expression_row h' (Nat.lt_succ_of_le (Nat.le_max_right e.nesting e'.nesting))
    (fun _ => hends'.ne_colon) (hc.trans hrow)
  rw [← hop] at hread'
  exact Equation.splitSigns_of_row e e' h.legible h'.legible (hread.unique hread').1 hrow

end ControlFile
