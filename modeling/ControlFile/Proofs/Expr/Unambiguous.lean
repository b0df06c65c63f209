import ControlFile.Proofs.Expr.Recovery
import ControlFile.Proofs.Expr.Sound

/-!
# The full writing is unambiguous

Two expressions with the same full writing have the same outline (`Expr.outline_eq_of_renderFull`).
The parser does not help to see it, for a number with a minus is written in full as it stands, also
where the grammar does not take it for a number; so the row of lexemes is taken apart here.  Each
expression shows in its row what it is and where it ends, whatever loose row follows
(`Expr.Determined`): the first lexeme tells literals, names and operations apart, a parenthesis
that touches a name makes a call of it, and what follows a minus behind an opening parenthesis tells
whether the minus is a sign or belongs to a number.  Marked places and equations are written as they
stand, and the parser does read them back.
-/

namespace ControlFile

open Lexeme ControlFile.Parser

/-! ### How a full expression starts -/

/-- What can be told from the first token of a full expression. -/
inductive Expr.Form
  | literal
  | word
  | operation

/-- What the expression is, without the parentheses around it. -/
def Expr.form : Expr → Form
  | .literal _ => .literal
  | .ident _ | .call .. => .word
  | .unary .. | .binary .. => .operation
  | .paren inner => inner.form

/-- What an expression is that starts with the token.  A sign is behind a parenthesis, so a minus is
that of a number. -/
def TokenKind.exprForm : TokenKind → Expr.Form
  | .ident | .directive _ => .word
  | .mark _ => .operation
  | _ => .literal

/-- A full expression starts with a token that it says itself.  A minus has one token behind it, and a
number none. -/
theorem Expr.row_full_eq_cons : (e : Expr) → (s : Bool) →
    ∃ kind text ls, e.full.row s = ⟨kind, text, s⟩ :: ls ∧ kind.startsExpression = true ∧
      kind.exprForm = e.form ∧ (kind.isLiteral = true → ls = []) ∧
      (kind.IsOperator → ∃ n, ls = [n] ∧ n.kind.isLiteral = true ∧ n.spaced = false)
  | .literal value, s => by
    rw [Expr.full, Expr.row, Literal.row, withMinus]
    cases value.isNegative with
    | true =>
      exact ⟨_, _, _, rfl, rfl, rfl, fun h => Bool.noConfusion h, fun _ =>
        ⟨_, rfl, value.kind_magnitude, rfl⟩⟩
    | false =>
      refine ⟨_, _, _, rfl, ?_, ?_, fun _ => rfl, ?_⟩
      · cases value <;> rfl
      · cases value <;> rfl
      · rintro ⟨op, hop⟩
        cases value <;> cases hop
  | .ident name, s => by
    refine ⟨_, _, _, rfl, ?_, ?_, fun _ => rfl, ?_⟩
    · split <;> rfl
    · split <;> rfl
    · rintro ⟨op, hop⟩
      split at hop <;> cases hop
  | .call _ _ _, s => ⟨_, _, _, rfl, rfl, rfl, fun h => Bool.noConfusion h, by rintro ⟨_, ⟨⟩⟩⟩
  | .unary _ _, s | .binary _ _ _, s =>
    ⟨_, _, _, rfl, rfl, rfl, fun h => Bool.noConfusion h, by rintro ⟨_, ⟨⟩⟩⟩
  | .paren inner, s => inner.row_full_eq_cons s

section Rows

variable {v : Vocabulary} {j : Bool} {e e' : Expr} {s : Bool} {rs rs' : List Lexeme}

theorem Expr.form_eq_of_row (h : e.full.row s ++ rs = e'.full.row s ++ rs') : e.form = e'.form := by
  obtain ⟨kind, text, ls, hrow, -, hform, -⟩ := e.row_full_eq_cons s
  obtain ⟨kind', text', ls', hrow', -, hform', -⟩ := e'.row_full_eq_cons s
  rw [hrow, hrow', List.cons_append, List.cons_append, List.cons.injEq] at h
  have hkind : kind = kind' := congrArg Lexeme.kind h.1
  rw [← hform, ← hform', hkind]

theorem BinaryOp.row_of_ne {op : BinaryOp} (h : op ≠ .juxtaposed) :
    op.row = [⟨.operator op, op.symbol, true⟩] := by
  cases op <;> first | rfl | exact absurd rfl h

/-- Behind a left operand there is space. -/
theorem Expr.isSpaced_operation (op : BinaryOp) (e : Expr) (rs : List Lexeme) :
    IsSpaced (op.row ++ (e.full.row true ++ rs)) := by
  by_cases hop : op = .juxtaposed
  · subst hop
    obtain ⟨kind, text, ls, hrow, -⟩ := e.row_full_eq_cons true
    rw [BinaryOp.row, List.nil_append, hrow]
    exact Lexeme.isSpaced_cons kind text _
  · rw [BinaryOp.row_of_ne hop]
    exact Lexeme.isSpaced_cons _ _ _

theorem not_isSpaced_close : ¬IsSpaced (.ofChar ')' false :: rs) := by
  intro h
  exact Bool.noConfusion (h _ rfl)

/-- A sign with its operand is no operation that starts with a number. -/
theorem Expr.sign_ne_operand {op : UnaryOp} {op' : BinaryOp} {operand lhs rhs : Expr} :
    op.lexeme false :: (operand.full.row false ++ .ofChar ')' false :: rs) ≠
      lhs.full.row false ++ (op'.row ++ (rhs.full.row true ++ rs')) := by
  intro h
  obtain ⟨kind, text, ls, hl, -, -, -, hoperator⟩ := lhs.row_full_eq_cons false
  obtain ⟨kind', text', ls', hx, -, -, hliteral, -⟩ := operand.row_full_eq_cons false
  rw [hl, hx, List.cons_append, List.cons_append, List.cons.injEq] at h
  obtain ⟨hsign, h⟩ := h
  have hkind : kind.IsOperator := by
    have : op.lexeme false = _ := hsign
    cases op <;> exact ⟨_, (congrArg Lexeme.kind this).symm⟩
  -- the left operand is a number with this minus, and the operand of the sign is the same number
  obtain ⟨n, rfl, hn, -⟩ := hoperator hkind
  rw [List.singleton_append, List.cons.injEq] at h
  obtain ⟨rfl, h⟩ := h
  rw [hliteral hn, List.nil_append] at h
  exact not_isSpaced_close (h ▸ isSpaced_operation op' rhs rs')

/-- A factor is no operation with its right operand: behind its minus there is no space. -/
theorem Expr.factor_ne_operation {op : BinaryOp} (hop : op ≠ .juxtaposed) :
    e.full.row true ++ rs ≠ op.row ++ (e'.full.row true ++ rs') := by
  intro h
  obtain ⟨kind, text, ls, hrow, -, -, -, hoperator⟩ := e.row_full_eq_cons true
  obtain ⟨kind', text', ls', hrow', -⟩ := e'.row_full_eq_cons true
  rw [BinaryOp.row_of_ne hop, hrow, hrow', List.cons_append, List.singleton_append, List.cons.injEq] at h
  obtain ⟨hsymbol, h⟩ := h
  obtain ⟨n, rfl, -, hn⟩ := hoperator ⟨op, congrArg Lexeme.kind hsymbol⟩
  rw [List.singleton_append, List.cons_append, List.cons.injEq] at h
  rw [h.1] at hn
  exact Bool.noConfusion hn

/-- The row behind a left operand shows the operation. -/
theorem BinaryOp.eq_of_row {op op' : BinaryOp}
    (h : op.row ++ (e.full.row true ++ rs) = op'.row ++ (e'.full.row true ++ rs')) :
    op = op' ∧ e.full.row true ++ rs = e'.full.row true ++ rs' := by
  by_cases hop : op = .juxtaposed
  · subst hop
    by_cases hop' : op' = .juxtaposed
    · subst hop'
      exact ⟨rfl, h⟩
    · exact absurd h (Expr.factor_ne_operation hop')
  · by_cases hop' : op' = .juxtaposed
    · subst hop'
      exact absurd h.symm (Expr.factor_ne_operation hop)
    · rw [BinaryOp.row_of_ne hop, BinaryOp.row_of_ne hop', List.singleton_append, List.singleton_append,
        List.cons.injEq] at h
      exact ⟨TokenKind.operator.inj (congrArg Lexeme.kind h.1), h.2⟩

end Rows

/-! ### Full rows -/

/-- The row of the full expression shows what it is and where it ends. -/
def Expr.Determined (v : Vocabulary) (e : Expr) : Prop :=
  ∀ ⦃j : Bool⦄ ⦃e' : Expr⦄ ⦃s : Bool⦄ ⦃rs rs' : List Lexeme⦄, e'.Grammatical v j → IsLoose rs →
    IsLoose rs' → e.full.row s ++ rs = e'.full.row s ++ rs' → e.outline = e'.outline ∧ rs = rs'

/-- The row of the full argument shows what it is and where it ends. -/
def Argument.Determined (v : Vocabulary) (a : Argument) : Prop :=
  ∀ ⦃a' : Argument⦄ ⦃s : Bool⦄ ⦃rs rs' : List Lexeme⦄, a'.Grammatical v → EndsArgument rs →
    EndsArgument rs' → a.full.row s ++ rs = a'.full.row s ++ rs' → a.outline = a'.outline ∧ rs = rs'

/-- Parentheses around an expression show nowhere. -/
theorem Expr.exists_unparenthesized {v : Vocabulary} : (e : Expr) → {j : Bool} → e.Grammatical v j →
    ∃ (e' : Expr) (j' : Bool), e'.Grammatical v j' ∧ e'.full = e.full ∧ e'.outline = e.outline ∧
      ∀ i, e' ≠ .paren i
  | .paren inner, _, h => inner.exists_unparenthesized h
  | .literal _, j, h | .ident _, j, h | .call .., j, h | .unary .., j, h | .binary .., j, h =>
    ⟨_, j, h, rfl, rfl, fun _ hparen => by cases hparen⟩

section Expressions

variable {v : Vocabulary}

/-- It is enough to look at expressions without parentheses around them. -/
theorem Expr.determined_of {e : Expr}
    (h : ∀ ⦃j : Bool⦄ ⦃e' : Expr⦄ ⦃s : Bool⦄ ⦃rs rs' : List Lexeme⦄, e'.Grammatical v j →
      (∀ i, e' ≠ .paren i) → IsLoose rs → IsLoose rs' → e.form = e'.form →
      e.full.row s ++ rs = e'.full.row s ++ rs' → e.outline = e'.outline ∧ rs = rs') :
    e.Determined v := by
  intro j e' s rs rs' hg hloose hloose' hrow
  obtain ⟨e'', j', hg'', hfull, houtline, hparen⟩ := e'.exists_unparenthesized hg
  rw [← hfull] at hrow
  rw [← houtline]
  exact h hg'' hparen hloose hloose' (Expr.form_eq_of_row hrow) hrow

theorem Expr.determined_literal {value : Literal} (h : value.Legible) :
    (Expr.literal value).Determined v := by
  refine Expr.determined_of fun j e' s rs rs' hg hparen _ _ hform hrow => ?_
  cases e' with
  | literal value' =>
    obtain ⟨rfl, hrest⟩ := Literal.eq_of_row h hg hrow
    exact ⟨rfl, hrest⟩
  | paren inner => exact absurd rfl (hparen inner)
  | _ => cases hform

/-- A name is no call, unless a parenthesis touches it. -/
theorem Expr.name_ne_call {name name' : String} {as : List Argument} {range : Extent} {s : Bool}
    {rs rs' : List Lexeme} (hloose : IsLoose rs) :
    (Expr.ident name).full.row s ++ rs ≠ (Expr.call name' as range).full.row s ++ rs' := by
  intro h
  rw [Expr.full, Expr.full, Expr.row, Expr.row, List.singleton_append, List.cons_append,
    List.cons_append, List.cons.injEq] at h
  rw [h.2] at hloose
  exact Bool.noConfusion (hloose _ rfl rfl)

theorem Expr.determined_ident (name : String) : (Expr.ident name).Determined v := by
  refine Expr.determined_of fun j e' s rs rs' hg hparen hloose _ hform hrow => ?_
  cases e' with
  | ident name' =>
    obtain ⟨hname, hrest⟩ := List.cons.inj hrow
    obtain rfl : name = name' := congrArg Lexeme.text hname
    exact ⟨rfl, hrest⟩
  | call name' as range => exact absurd hrow (Expr.name_ne_call hloose)
  | paren inner => exact absurd rfl (hparen inner)
  | _ => cases hform

theorem Expr.determined_unary {op : UnaryOp} {operand : Expr} (h : operand.Determined v) :
    (Expr.unary op operand).Determined v := by
  refine Expr.determined_of fun j e' s rs rs' hg hparen _ _ hform hrow => ?_
  cases e' with
  | unary op' operand' =>
    simp only [Expr.full, Expr.row, List.cons_append, List.append_assoc, List.nil_append,
      List.cons.injEq, true_and] at hrow
    obtain ⟨hsign, hrow⟩ := hrow
    cases UnaryOp.lexeme_inj hsign
    obtain ⟨houtline, hrest⟩ := h hg.2 (isLoose_cons _ (by rintro ⟨⟩)) (isLoose_cons _ (by rintro ⟨⟩)) hrow
    exact ⟨congrArg (Expr.unary op) houtline, (List.cons.inj hrest).2⟩
  | binary op' lhs rhs =>
    simp only [Expr.full, Expr.row, List.cons_append, List.append_assoc, List.nil_append,
      List.cons.injEq, true_and] at hrow
    exact absurd hrow Expr.sign_ne_operand
  | paren inner => exact absurd rfl (hparen inner)
  | _ => cases hform

theorem Expr.determined_binary {op : BinaryOp} {lhs rhs : Expr} (hl : lhs.Determined v)
    (hr : rhs.Determined v) : (Expr.binary op lhs rhs).Determined v := by
  refine Expr.determined_of fun j e' s rs rs' hg hparen _ _ hform hrow => ?_
  cases e' with
  | unary op' operand =>
    simp only [Expr.full, Expr.row, List.cons_append, List.append_assoc, List.nil_append,
      List.cons.injEq, true_and] at hrow
    exact absurd hrow.symm Expr.sign_ne_operand
  | binary op' lhs' rhs' =>
    simp only [Expr.full, Expr.row, List.cons_append, List.append_assoc, List.nil_append,
      List.cons.injEq, true_and] at hrow
    obtain ⟨hlhs, hoperation⟩ := hl hg.2.1 (Expr.isSpaced_operation op rhs _).isLoose
      (Expr.isSpaced_operation op' rhs' _).isLoose hrow
    obtain ⟨rfl, hright⟩ := BinaryOp.eq_of_row hoperation
    obtain ⟨hrhs, hrest⟩ :=
      hr hg.2.2 (isLoose_cons _ (by rintro ⟨⟩)) (isLoose_cons _ (by rintro ⟨⟩)) hright
    exact ⟨congrArg₂ (Expr.binary op) hlhs hrhs, (List.cons.inj hrest).2⟩
  | paren inner => exact absurd rfl (hparen inner)
  | _ => cases hform

end Expressions

/-! ### Arguments -/

/-- What can be told of an argument from the first token of its row, and of what follows. -/
inductive Argument.Form
  | hole
  | parameter
  | expr
  | equation

def Argument.form : Argument → Form
  | .hole => .hole
  | .parameter _ => .parameter
  | .expr _ => .expr
  | .equation _ => .equation

def TokenKind.argumentForm : TokenKind → Argument.Form
  | .mark .comma | .mark .closeParen => .hole
  | .mark .atSign | .mark .bang => .parameter
  | .assign _ => .equation
  | _ => .expr

theorem TokenKind.argumentForm_of_starts {kind : TokenKind} (h : kind.startsExpression = true) :
    kind.argumentForm = .expr := by
  cases kind with
  | mark m => cases m <;> first | rfl | cases h
  | assign op => cases h
  | _ => rfl

section Arguments

variable {v : Vocabulary} {s : Bool} {rs rs' : List Lexeme}

theorem Argument.exists_kind? {a : Argument} (h : a.Grammatical v) (hends : EndsArgument rs) :
    ∃ kind, Lexeme.kind? (a.full.row s ++ rs) = some kind ∧ kind.argumentForm = a.form := by
  cases a with
  | hole => rcases hends with hends | hends <;> exact ⟨_, hends, rfl⟩
  | parameter p =>
    obtain ⟨refinement, name, value⟩ := p
    cases refinement with
    | plain => exact absurd rfl h.1
    | _ => exact ⟨_, rfl, rfl⟩
  | expr e =>
    obtain ⟨kind, text, ls, hrow, hstart, -⟩ := e.row_full_eq_cons s
    rw [Argument.full, Argument.row, hrow]
    exact ⟨kind, rfl, TokenKind.argumentForm_of_starts hstart⟩
  | equation e => exact ⟨_, e.kind?_row s rs, rfl⟩

theorem Argument.form_eq_of_row {a a' : Argument} (h : a.Grammatical v) (h' : a'.Grammatical v)
    (hends : EndsArgument rs) (hends' : EndsArgument rs') (hrow : a.full.row s ++ rs = a'.full.row s ++ rs') :
    a.form = a'.form := by
  obtain ⟨kind, hkind, hform⟩ := Argument.exists_kind? (s := s) h hends
  obtain ⟨kind', hkind', hform'⟩ := Argument.exists_kind? (s := s) h' hends'
  rw [hrow, hkind', Option.some.injEq] at hkind
  rw [← hform, ← hform', hkind]

theorem Parser.EndsArgument.isLoose (h : EndsArgument rs) : IsLoose rs := by
  intro l hl hkind
  have hsome : Lexeme.kind? rs = some l.kind := by rw [Lexeme.kind?, hl, Option.map_some]
  rcases h with h | h <;> rw [h, hkind] at hsome <;> cases hsome

/-- One argument: what it is shows in its first token. -/
theorem Argument.determined_of {a : Argument} (h : a.Grammatical v)
    (hexpr : ∀ e, a = .expr e → e.Determined v) : a.Determined v := by
  intro a' s rs rs' h' hends hends' hrow
  have hform := Argument.form_eq_of_row h h' hends hends' hrow
  cases a with
  | hole =>
    cases a' with
    | hole => exact ⟨rfl, hrow⟩
    | _ => cases hform
  | parameter p =>
    cases a' with
    | parameter p' =>
      obtain ⟨rfl, hrest⟩ := Parameter.eq_of_row h h' hends hends' hrow
      exact ⟨rfl, hrest⟩
    | _ => cases hform
  | expr e =>
    cases a' with
    | expr e' =>
      obtain ⟨houtline, hrest⟩ := hexpr e rfl h' hends.isLoose hends'.isLoose hrow
      exact ⟨congrArg Argument.expr houtline, hrest⟩
    | _ => cases hform
  | equation e =>
    cases a' with
    | equation e' =>
      obtain ⟨hsame, hrest⟩ := Equation.splitSigns_eq_of_row h h' hends hends' hrow
      exact ⟨congrArg Argument.equation hsame, hrest⟩
    | _ => cases hform

/-- The arguments behind the first: each has a comma before it. -/
theorem Argument.outlineAll_of_rowRest {as : List Argument} (h : ∀ a ∈ as, a.Determined v) :
    ∀ {as' : List Argument}, Argument.AllGrammatical v as' →
      Argument.rowRest (Argument.fullAll as) ++ .ofChar ')' false :: rs =
        Argument.rowRest (Argument.fullAll as') ++ .ofChar ')' false :: rs' →
      Argument.outlineAll as = Argument.outlineAll as' ∧ rs = rs' := by
  induction as with
  | nil =>
    intro as' h' hrow
    cases as' with
    | nil => exact ⟨rfl, (List.cons.inj hrow).2⟩
    | cons a' as' => cases congrArg Lexeme.kind? hrow
  | cons a as ih =>
    intro as' h' hrow
    cases as' with
    | nil => cases congrArg Lexeme.kind? hrow
    | cons a' as' =>
      obtain ⟨ha, has⟩ := List.forall_mem_cons.1 h
      simp only [Argument.fullAll, Argument.rowRest, List.cons_append, List.append_assoc, List.cons.injEq,
        true_and] at hrow
      obtain ⟨hfirst, hrow⟩ := ha h'.1 (endsArgument_rowRest _ _) (endsArgument_rowRest _ _) hrow
      obtain ⟨hothers, hrest⟩ := ih has h'.2 hrow
      exact ⟨by rw [Argument.outlineAll, Argument.outlineAll, hfirst, hothers], hrest⟩

/-- Arguments that show nothing before the closing parenthesis are a hole, or there are none. -/
theorem Argument.isHoleOnly_of_row {a : Argument} {as : List Argument} (h : a.Grammatical v)
    (hrow : a.full.row false ++ (Argument.rowRest (Argument.fullAll as) ++ .ofChar ')' false :: rs) =
      .ofChar ')' false :: rs') : Argument.IsHoleOnly (a :: as) := by
  obtain ⟨kind, hkind, hform⟩ :=
    Argument.exists_kind? (s := false) h (endsArgument_rowRest (Argument.fullAll as) rs)
  rw [hrow] at hkind
  cases hkind
  cases a with
  | hole =>
    cases as with
    | nil => trivial
    | cons b bs => cases congrArg Lexeme.kind? hrow
  | _ => cases hform

theorem Argument.outlineAll_of_rowFirst {as as' : List Argument} (h : ∀ a ∈ as, a.Determined v)
    (hg : Argument.AllGrammatical v as) (hg' : Argument.AllGrammatical v as')
    (hhole : ¬Argument.IsHoleOnly as) (hhole' : ¬Argument.IsHoleOnly as')
    (hrow : Argument.rowFirst (Argument.fullAll as) ++ .ofChar ')' false :: rs =
      Argument.rowFirst (Argument.fullAll as') ++ .ofChar ')' false :: rs') :
    Argument.outlineAll as = Argument.outlineAll as' ∧ rs = rs' := by
  cases as with
  | nil =>
    cases as' with
    | nil => exact ⟨rfl, (List.cons.inj hrow).2⟩
    | cons a' as' =>
      rw [Argument.fullAll, Argument.fullAll, Argument.rowFirst, Argument.rowFirst, List.append_assoc] at hrow
      exact absurd (Argument.isHoleOnly_of_row hg'.1 hrow.symm) hhole'
  | cons a as =>
    rw [Argument.fullAll, Argument.rowFirst, List.append_assoc] at hrow
    cases as' with
    | nil => exact absurd (Argument.isHoleOnly_of_row hg.1 hrow) hhole
    | cons a' as' =>
      obtain ⟨ha, has⟩ := List.forall_mem_cons.1 h
      rw [Argument.fullAll, Argument.rowFirst, List.append_assoc] at hrow
      obtain ⟨hfirst, hrow⟩ := ha hg'.1 (endsArgument_rowRest _ _) (endsArgument_rowRest _ _) hrow
      obtain ⟨hothers, hrest⟩ := Argument.outlineAll_of_rowRest has hg'.2 hrow
      exact ⟨by rw [Argument.outlineAll, Argument.outlineAll, hfirst, hothers], hrest⟩

theorem Expr.determined_call {name : String} {as : List Argument} {range : Extent}
    (h : ∀ a ∈ as, a.Determined v) (hg : Argument.AllGrammatical v as) (hhole : ¬Argument.IsHoleOnly as) :
    (Expr.call name as range).Determined v := by
  refine Expr.determined_of fun j e' s rs rs' hg' hparen _ hloose' hform hrow => ?_
  cases e' with
  | ident name' => exact absurd hrow.symm (Expr.name_ne_call hloose')
  | call name' as' range' =>
    simp only [Expr.full, Expr.row, List.cons_append, List.append_assoc, List.nil_append, List.cons.injEq,
      Lexeme.mk.injEq, true_and, and_true] at hrow
    obtain ⟨rfl, hrow⟩ := hrow
    obtain ⟨has, hrest⟩ := Argument.outlineAll_of_rowFirst h hg hg'.2.2 hhole hg'.2.1 hrow
    exact ⟨by rw [Expr.outline, Expr.outline, has], hrest⟩
  | paren inner => exact absurd rfl (hparen inner)
  | _ => cases hform

end Arguments

/-! ### Expressions of any depth -/

mutual

/-- **The full row of an expression shows its outline.** -/
theorem Expr.determined {v : Vocabulary} : (e : Expr) → {j : Bool} → e.Grammatical v j → e.Determined v
  | .literal _, _, h => Expr.determined_literal h
  | .ident name, _, _ => Expr.determined_ident name
  | .call _ as _, _, h => Expr.determined_call (Argument.determined_all as h.2.2) h.2.2 h.2.1
  | .unary _ operand, _, h => Expr.determined_unary (operand.determined h.2)
  | .binary _ lhs rhs, _, h => Expr.determined_binary (lhs.determined h.2.1) (rhs.determined h.2.2)
  | .paren inner, _, h => inner.determined h

theorem Argument.determined_all {v : Vocabulary} : (as : List Argument) → Argument.AllGrammatical v as →
    ∀ a ∈ as, a.Determined v
  | [], _ => fun _ ha => by cases ha
  | a :: as, h => List.forall_mem_cons.2 ⟨a.determined h.1, Argument.determined_all as h.2⟩

theorem Argument.determined {v : Vocabulary} : (a : Argument) → a.Grammatical v → a.Determined v
  | .hole, h | .parameter _, h | .equation _, h => Argument.determined_of h fun _ he => by cases he
  | .expr e, h => Argument.determined_of h fun _ he => by
    cases he
    exact e.determined h

end

/-! ### Expressions that were read -/

/-- A vocabulary without words reserves those of a site only, as every vocabulary does. -/
theorem IsParameterName.unreserved {v : Vocabulary} : {name : Option String} → IsParameterName v name →
    IsParameterName .empty name
  | none, _ => trivial
  | some _, h => by
    refine h.imp id fun hname => ⟨hname.1, ?_⟩
    have hreserved := hname.2
    rw [Vocabulary.isReserved, Bool.or_eq_false_iff] at hreserved
    rw [Vocabulary.isReserved, hreserved.2]
    rfl

mutual

/-- Whatever vocabulary an expression was read with, it can be read with no keywords at all. -/
theorem Expr.Grammatical.unreserved {v : Vocabulary} : (e : Expr) → {j : Bool} → e.Grammatical v j →
    e.Grammatical .empty j
  | .literal _, _, h | .ident _, _, h => h
  | .call _ as _, _, h => ⟨h.1, h.2.1, Argument.allGrammatical_unreserved as h.2.2⟩
  | .unary _ operand, _, h => ⟨h.1, Expr.Grammatical.unreserved operand h.2⟩
  | .binary _ lhs rhs, _, h =>
    ⟨h.1, Expr.Grammatical.unreserved lhs h.2.1, Expr.Grammatical.unreserved rhs h.2.2⟩
  | .paren inner, _, h => Expr.Grammatical.unreserved inner h

theorem Argument.allGrammatical_unreserved {v : Vocabulary} : (as : List Argument) →
    Argument.AllGrammatical v as → Argument.AllGrammatical .empty as
  | [], _ => trivial
  | a :: as, h => ⟨Argument.Grammatical.unreserved a h.1, Argument.allGrammatical_unreserved as h.2⟩

theorem Argument.Grammatical.unreserved {v : Vocabulary} : (a : Argument) → a.Grammatical v →
    a.Grammatical .empty
  | .hole, _ => trivial
  | .parameter _, h => ⟨h.1, h.2.1.unreserved, h.2.2⟩
  | .expr e, h => Expr.Grammatical.unreserved e h
  | .equation ⟨_, body, _⟩, h => ⟨Expr.Grammatical.unreserved body h.1, h.2⟩

end

/-- The parser made the expression of tokens of a text, wherever in it they stand. -/
def Expr.IsParsed (e : Expr) : Prop :=
  ∃ (text : String) (v : Vocabulary) (levels : Nat) (juxtapose : Bool) (c c' : Cursor),
    c.rest <:+ (TokenStream.ofText text).tokens ∧ expression v levels juxtapose c = .ok e c'

theorem Expr.IsParsed.grammatical {e : Expr} (h : e.IsParsed) : ∃ j, e.Grammatical .empty j := by
  obtain ⟨text, v, levels, j, c, c', hc, hrun⟩ := h
  have hgenuine : c.Genuine := (Cursor.genuine_ofText text 0 0).of_suffix (hc.map Token.lexeme)
  obtain ⟨hparsed, -⟩ := ensures_expression hgenuine levels e c' hrun
  exact ⟨j, Expr.Grammatical.unreserved e hparsed.grammatical⟩

/-- Expressions with the same full writing have the same outline. -/
theorem Expr.outline_eq_of_renderFull {v : Vocabulary} {j j' : Bool} {e e' : Expr} (h : e.Grammatical v j)
    (h' : e'.Grammatical v j') (htext : e.renderFull = e'.renderFull) : e.outline = e'.outline := by
  have hrow : e.full.row true ++ [] = e'.full.row true ++ [] := by
    rw [← h.legible.lexemes_renderFull, ← h'.legible.lexemes_renderFull, htext]
  exact (e.determined h h' isSpaced_nil.isLoose isSpaced_nil.isLoose hrow).1

/-- **The full writing compares outlines.**  If no argument of the two expressions is an equation, it
compares the expressions without any parentheses and places. -/
theorem Expr.renderFull_eq_iff {e e' : Expr} (h : e.IsParsed) (h' : e'.IsParsed) :
    (e.renderFull = e'.renderFull ↔ e.outline = e'.outline) ∧
      (e.hasEquation = false → e'.hasEquation = false →
        (e.renderFull = e'.renderFull ↔ e.unparen.bare = e'.unparen.bare)) := by
  obtain ⟨j, hg⟩ := h.grammatical
  obtain ⟨j', hg'⟩ := h'.grammatical
  have houtline : e.renderFull = e'.renderFull ↔ e.outline = e'.outline := by
    refine ⟨Expr.outline_eq_of_renderFull hg hg', fun heq => ?_⟩
    rw [← e.renderFull_outline hg.legible, heq, e'.renderFull_outline hg'.legible]
  refine ⟨houtline, fun hnone hnone' => ?_⟩
  rw [houtline, e.outline_eq hnone, e'.outline_eq hnone']

/-- A text is an expression from its start on. -/
theorem Expr.isParsed_of_run (text : String) (levels : Nat) {e : Expr} {ts : List Token} {c' : Cursor}
    (htokens : (TokenStream.ofText text).tokens = ts)
    (hrun : expression .empty levels true ⟨ts, 0, 0⟩ = .ok e c') : e.IsParsed :=
  ⟨text, .empty, levels, true, ⟨ts, 0, 0⟩, c', htokens ▸ List.suffix_refl _, hrun⟩

/-- A call with a hole and a marked place, and with parentheses around an argument that is an operation. -/
theorem Expr.renderFull_eq_iff_call :
    let difference : Expr := .binary .sub (.ident "a") (.literal (.integer 1))
    let place : Parameter := ⟨.refined, some "p", .literal (.integer 2)⟩
    let e : Expr := .call "f" [.expr (.paren difference), .hole, .parameter place] ⟨0, 18⟩
    let e' : Expr := .call "f" [.expr difference, .hole, .parameter place] ⟨0, 16⟩
    e.IsParsed ∧ e'.IsParsed ∧ e.unparen.bare = e'.unparen.bare ∧ e.renderFull = e'.renderFull := by
  intro difference place e e'
  have htokens : (TokenStream.ofText "f((a - 1),, @ p 2)").tokens =
      [⟨.ident, "f", ⟨0, 1⟩, true⟩, ⟨.mark .openParen, "(", ⟨1, 2⟩, false⟩,
       ⟨.mark .openParen, "(", ⟨2, 3⟩, false⟩, ⟨.ident, "a", ⟨3, 4⟩, false⟩,
       ⟨.operator .sub, "-", ⟨5, 6⟩, true⟩, ⟨.integer, "1", ⟨7, 8⟩, true⟩,
       ⟨.mark .closeParen, ")", ⟨8, 9⟩, false⟩, ⟨.mark .comma, ",", ⟨9, 10⟩, false⟩,
       ⟨.mark .comma, ",", ⟨10, 11⟩, false⟩, ⟨.mark .atSign, "@", ⟨12, 13⟩, true⟩,
       ⟨.ident, "p", ⟨14, 15⟩, true⟩, ⟨.integer, "2", ⟨16, 17⟩, true⟩,
       ⟨.mark .closeParen, ")", ⟨17, 18⟩, false⟩] := by decide +kernel
  have htokens' : (TokenStream.ofText "f(a - 1,, @ p 2)").tokens =
      [⟨.ident, "f", ⟨0, 1⟩, true⟩, ⟨.mark .openParen, "(", ⟨1, 2⟩, false⟩,
       ⟨.ident, "a", ⟨2, 3⟩, false⟩, ⟨.operator .sub, "-", ⟨4, 5⟩, true⟩,
       ⟨.integer, "1", ⟨6, 7⟩, true⟩, ⟨.mark .comma, ",", ⟨7, 8⟩, false⟩,
       ⟨.mark .comma, ",", ⟨8, 9⟩, false⟩, ⟨.mark .atSign, "@", ⟨10, 11⟩, true⟩,
       ⟨.ident, "p", ⟨12, 13⟩, true⟩, ⟨.integer, "2", ⟨14, 15⟩, true⟩,
       ⟨.mark .closeParen, ")", ⟨15, 16⟩, false⟩] := by decide +kernel
  have h : e.IsParsed := Expr.isParsed_of_run _ 3 htokens rfl
  have h' : e'.IsParsed := Expr.isParsed_of_run _ 3 htokens' rfl
  exact ⟨h, h', rfl, ((Expr.renderFull_eq_iff h h').2 rfl rfl).2 rfl⟩

/-- With equations among the arguments, the full writing does not compare the expressions without their
parentheses: parentheses show in an equation, and a minus that is an operation does not. -/
theorem Expr.not_renderFull_eq_iff_unparen :
    ¬(∀ e e' : Expr, e.IsParsed → e'.IsParsed → e.unparen.bare = e'.unparen.bare →
        e.renderFull = e'.renderFull) ∧
      ¬∀ e e' : Expr, e.IsParsed → e'.IsParsed → e.renderFull = e'.renderFull →
        e.unparen.bare = e'.unparen.bare := by
  have hparenthesized : (Expr.call "f" [.equation ⟨.set, .paren (.ident "a"), none⟩] ⟨0, 9⟩).IsParsed := by
    have htokens : (TokenStream.ofText "f(= (a);)").tokens =
        [⟨.ident, "f", ⟨0, 1⟩, true⟩, ⟨.mark .openParen, "(", ⟨1, 2⟩, false⟩,
         ⟨.assign .set, "=", ⟨2, 3⟩, false⟩, ⟨.mark .openParen, "(", ⟨4, 5⟩, true⟩,
         ⟨.ident, "a", ⟨5, 6⟩, false⟩, ⟨.mark .closeParen, ")", ⟨6, 7⟩, false⟩,
         ⟨.mark .semicolon, ";", ⟨7, 8⟩, false⟩, ⟨.mark .closeParen, ")", ⟨8, 9⟩, false⟩] := by
      decide +kernel
    exact Expr.isParsed_of_run _ 3 htokens rfl
  have hplain : (Expr.call "f" [.equation ⟨.set, .ident "a", none⟩] ⟨0, 7⟩).IsParsed := by
    have htokens : (TokenStream.ofText "f(= a;)").tokens =
        [⟨.ident, "f", ⟨0, 1⟩, true⟩, ⟨.mark .openParen, "(", ⟨1, 2⟩, false⟩,
         ⟨.assign .set, "=", ⟨2, 3⟩, false⟩, ⟨.ident, "a", ⟨4, 5⟩, true⟩,
         ⟨.mark .semicolon, ";", ⟨5, 6⟩, false⟩, ⟨.mark .closeParen, ")", ⟨6, 7⟩, false⟩] := by
      decide +kernel
    exact Expr.isParsed_of_run _ 3 htokens rfl
  have hoperation : (Expr.call "f"
      [.equation ⟨.set, .unary .minus (.literal (.integer 1)), none⟩] ⟨0, 9⟩).IsParsed := by
    have htokens : (TokenStream.ofText "f(= - 1;)").tokens =
        [⟨.ident, "f", ⟨0, 1⟩, true⟩, ⟨.mark .openParen, "(", ⟨1, 2⟩, false⟩,
         ⟨.assign .set, "=", ⟨2, 3⟩, false⟩, ⟨.operator .sub, "-", ⟨4, 5⟩, true⟩,
         ⟨.integer, "1", ⟨6, 7⟩, true⟩, ⟨.mark .semicolon, ";", ⟨7, 8⟩, false⟩,
         ⟨.mark .closeParen, ")", ⟨8, 9⟩, false⟩] := by decide +kernel
    exact Expr.isParsed_of_run _ 3 htokens rfl
  have hnumber : (Expr.call "f" [.equation ⟨.set, .literal (.integer (-1)), none⟩] ⟨0, 8⟩).IsParsed := by
    have htokens : (TokenStream.ofText "f(= -1;)").tokens =
        [⟨.ident, "f", ⟨0, 1⟩, true⟩, ⟨.mark .openParen, "(", ⟨1, 2⟩, false⟩,
         ⟨.assign .set, "=", ⟨2, 3⟩, false⟩, ⟨.operator .sub, "-", ⟨4, 5⟩, true⟩,
         ⟨.integer, "1", ⟨5, 6⟩, false⟩, ⟨.mark .semicolon, ";", ⟨6, 7⟩, false⟩,
         ⟨.mark .closeParen, ")", ⟨7, 8⟩, false⟩] := by decide +kernel
    exact Expr.isParsed_of_run _ 3 htokens rfl
  refine ⟨fun h => ?_, fun h => ?_⟩
  · exact absurd (h _ _ hparenthesized hplain rfl) (by decide +kernel)
  · cases h _ _ hoperation hnumber rfl

end ControlFile
