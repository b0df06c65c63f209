import ControlFile.Proofs.Expr.Value

/-!
# Written expressions are read back

A grammatical expression that has been written is read again, up to the places of its calls and up
to signs that become part of a number (`expression_row`).

Each rank has its parser (`tier`), which is that of the next rank and then, for the ranks of
operations, a loop over what follows (`rounds`).  `ReadsAt k e` says: on the row of `e`, the parser
of rank `k` gets to its loop with `e` in hand and only the rest of the text ahead.  An expression is
read at its own rank by induction on it, and at every lower rank from there (`ReadsAt.of_le`), since
the loops between stop at once.
-/

namespace ControlFile

open Lexeme

namespace Parser

/-! ### Where an expression ends -/

/-- Nothing at the row goes on with an operation of rank `k` or more. -/
structure Ends (j : Bool) (k : Nat) (rs : List Lexeme) : Prop where
  power : k ≤ 5 → startsPower rs = false
  operation : ∀ op, Lexeme.operation? j rs = some op → op.level < k
  loose : IsLoose rs

theorem Ends.mono {j : Bool} {k m : Nat} {rs : List Lexeme} (h : Ends j k rs) (hkm : k ≤ m) :
    Ends j m rs :=
  ⟨fun hm => h.power (Nat.le_trans hkm hm), fun op hop => Nat.lt_of_lt_of_le (h.operation op hop) hkm,
    h.loose⟩

/-- What is neither an operator nor an operand ends every expression. -/
theorem ends_of_kind {j : Bool} {k : Nat} {l : Lexeme} {ls : List Lexeme}
    (ho : l.kind.startsOperand = false) (hop : ∀ op, l.kind ≠ .operator op) : Ends j k (l :: ls) := by
  refine ⟨fun _ => ?_, ?_, isLoose_cons ls ?_⟩
  · simp [startsPower, hop .pow]
  · intro op h
    simp only [Lexeme.operation?, kind?_cons, Option.bind_some] at h
    unfold operationOf? at h
    split at h
    · rename_i op' heq
      exact absurd heq (hop op')
    · simp [ho] at h
  · intro h
    rw [h] at ho
    exact Bool.noConfusion ho

/-! ### Ranks of parsers -/

/-- The parser of the expressions of rank `k` and more. -/
def tier (v : Vocabulary) (inner : Parser Expr) (j : Bool) : Nat → Parser Expr
  | 1 => comparison v inner j
  | 2 => grouped j 2 (grouped j 3 (signed v inner))
  | 3 => grouped j 3 (signed v inner)
  | 4 => signed v inner
  | 5 => power v inner
  | _ => primary v inner

/-- The loop at the end of the parser of rank `k`. -/
def rounds (v : Vocabulary) (inner : Parser Expr) (j : Bool) : Nat → Nat → Expr → Parser Expr
  | 1 => operations j 1 (tier v inner j 2)
  | 2 => operations j 2 (tier v inner j 3)
  | 3 => operations j 3 (tier v inner j 4)
  | 5 => exponents v inner
  | _ => fun _ e => pure e

theorem operations_stop {j : Bool} {k : Nat} {operand : Parser Expr} {limit : Nat} {e : Expr}
    {c : Cursor} (h : Ends j k c.lexemes) : operations j k operand limit e c = .ok e c := by
  cases limit with
  | zero => rfl
  | succ limit =>
    rw [operations, get_bind, Cursor.operation?_eq]
    cases hop : Lexeme.operation? j c.lexemes with
    | none => rfl
    | some op =>
      have := h.operation op hop
      simp only [if_neg (Nat.ne_of_lt this)]
      rfl

theorem rounds_stop {v : Vocabulary} {inner : Parser Expr} {j : Bool} {k limit : Nat} {e : Expr}
    {c : Cursor} (h : Ends j k c.lexemes) : rounds v inner j k limit e c = .ok e c := by
  match k with
  | 0 => rfl
  | 1 => exact operations_stop h
  | 2 => exact operations_stop h
  | 3 => exact operations_stop h
  | 4 => rfl
  | 5 =>
    cases limit with
    | zero => rfl
    | succ limit =>
      have hne : Lexeme.kind? c.lexemes ≠ some (.operator .pow) := by
        simpa [startsPower] using h.power (Nat.le_refl 5)
      change exponents v inner (limit + 1) e c = _
      rw [exponents, bind_of_ok (takeIf_neg hne)]
      rfl
  | _ + 6 => rfl

/-- On the row of `e` the parser of rank `k` gets to its loop with `e` in hand. -/
def ReadsAt (v : Vocabulary) (inner : Parser Expr) (j : Bool) (k : Nat) (e : Expr) : Prop :=
  ∀ s rs c, Ends j (k + 1) rs → (e.endsNegative = true → startsPower rs = false) →
    c.lexemes = e.row s ++ rs → ∃ a c' limit,
      tier v inner j k c = rounds v inner j k limit a c' ∧
      a.bare = (e.foldSigns (startsPower rs)).bare ∧ c'.lexemes = rs ∧ rs.length ≤ limit

variable {v : Vocabulary} {inner : Parser Expr} {j : Bool} {k : Nat} {e : Expr}

/-- If nothing goes on, the loop is over and the expression is read. -/
theorem ReadsAt.readsTo (h : ReadsAt v inner j k e) {s : Bool} {rs : List Lexeme} {c : Cursor}
    (hends : Ends j k rs) (hneg : e.endsNegative = true → startsPower rs = false)
    (hc : c.lexemes = e.row s ++ rs) :
    ReadsTo (tier v inner j k) c Expr.bare (e.foldSigns (startsPower rs)).bare rs := by
  obtain ⟨a, c', limit, hrun, ha, hc', -⟩ := h s rs c (hends.mono (Nat.le_succ k)) hneg hc
  exact ⟨a, c', by rw [hrun, rounds_stop (hc' ▸ hends)], ha, hc'⟩

/-- What is read at once, without a loop. -/
theorem readsAt_of_readsTo (hk : k = 4 ∨ k = 6)
    (h : ∀ s rs c, Ends j (k + 1) rs → c.lexemes = e.row s ++ rs →
      ReadsTo (tier v inner j k) c Expr.bare (e.foldSigns (startsPower rs)).bare rs) :
    ReadsAt v inner j k e := by
  intro s rs c hends _ hc
  obtain ⟨a, c', hrun, ha, hc'⟩ := h s rs c hends hc
  refine ⟨a, c', rs.length, ?_, ha, hc', Nat.le_refl _⟩
  rcases hk with rfl | rfl <;> exact hrun

/-- An operand followed by a loop. -/
theorem ReadsAt.loop (hk : k = 1 ∨ k = 2 ∨ k = 3 ∨ k = 5) (h : ReadsAt v inner j (k + 1) e) :
    ReadsAt v inner j k e := by
  intro s rs c hends hneg hc
  obtain ⟨a, c', hrun, ha, hc'⟩ := h.readsTo hends hneg hc
  refine ⟨a, c', c'.rest.length, ?_, ha, hc', Nat.le_of_eq (by rw [← hc', Cursor.length_lexemes])⟩
  have hstep : tier v inner j k c =
      (tier v inner j (k + 1) >>= fun a => get >>= fun d => rounds v inner j k d.rest.length a) c := by
    rcases hk with rfl | rfl | rfl | rfl <;> rfl
  rw [hstep, bind_of_ok hrun]
  rfl

theorem startsMinusNumber_of_ne_operator {ls : List Lexeme}
    (h : ∀ op, Lexeme.kind? ls ≠ some (.operator op)) : startsMinusNumber ls = false := by
  match ls with
  | [] => rfl
  | [l] => rfl
  | l :: n :: _ =>
    have := h .sub
    rw [kind?_cons] at this
    simp_all [startsMinusNumber]

theorem sign?_eq_none {c : Cursor} (hadd : Lexeme.kind? c.lexemes ≠ some (.operator .add))
    (hsub : Lexeme.kind? c.lexemes ≠ some (.operator .sub)) : c.sign? = none := by
  unfold Cursor.sign?
  rw [Cursor.kind?_eq]
  split <;> simp_all

/-- Without a sign, a power is read. -/
theorem signed_eq_power {c : Cursor} (hop : ∀ op, Lexeme.kind? c.lexemes ≠ some (.operator op)) :
    signed v inner c = power v inner c := by
  have hneg : c.isAtNegativeLiteral = false := by
    rw [Cursor.isAtNegativeLiteral_eq]
    rw [startsMinusNumber_of_ne_operator hop, Bool.false_and]
  rw [signed, get_bind, hneg, sign?_eq_none (hop .add) (hop .sub)]
  rfl

theorem ReadsAt.signed (h : ReadsAt v inner j 5 e)
    (hop : ∀ s rs op, Lexeme.kind? (e.row s ++ rs) ≠ some (.operator op)) : ReadsAt v inner j 4 e := by
  refine readsAt_of_readsTo (Or.inl rfl) fun s rs c hends hc => ?_
  obtain ⟨a, c', hrun, ha, hc'⟩ := h.readsTo hends (fun _ => hends.power (Nat.le_refl 5)) hc
  refine ⟨a, c', ?_, ha, hc'⟩
  change Parser.signed v inner c = _
  rw [signed_eq_power (by rw [hc]; exact hop s rs)]
  exact hrun

theorem kind?_row_ne_operator (hg : e.Grammatical v j) (hr : 5 ≤ e.rank) (s : Bool)
    (rs : List Lexeme) (op : BinaryOp) : Lexeme.kind? (e.row s ++ rs) ≠ some (.operator op) := by
  obtain ⟨kind, text, ls, hrow, -, hrank⟩ := e.row_eq_cons hg s
  rw [hrow, List.cons_append, kind?_cons]
  intro h
  exact (hrank hr).1 ⟨op, Option.some.inj h⟩

/-- What is read at its own rank is read at every lower one. -/
theorem ReadsAt.of_le {m : Nat} (h : ReadsAt v inner j m e) (hg : e.Grammatical v j)
    (hm : m ≤ e.rank) (hk : 1 ≤ k) (hkm : k ≤ m) (hm6 : m ≤ 6) : ReadsAt v inner j k e := by
  induction m with
  | zero => omega
  | succ m ih =>
    by_cases hlast : k = m + 1
    · exact hlast ▸ h
    · refine ih ?_ (by omega) (by omega) (by omega)
      by_cases h4 : m = 4
      · subst h4
        exact h.signed (kind?_row_ne_operator hg hm)
      · exact h.loop (by omega)

/-! ### Operands -/

theorem primary_literal {c : Cursor} {kind : TokenKind} (hk : Lexeme.kind? c.lexemes = some kind)
    (hl : kind.isLiteral = true) :
    primary v inner c = (literal false >>= fun value => pure (.literal value)) c := by
  match hc : c.lexemes with
  | [] => simp [hc] at hk
  | l :: ls =>
    obtain ⟨t, ht, htl⟩ := Cursor.peek?_zero hc
    have htk : t.kind = kind := by
      rw [hc, kind?_cons, ← htl] at hk
      exact Option.some.inj hk
    rw [primary, get_bind]
    simp only [ht]
    cases kind with
    | integer | decimal | string => simp only [htk]
    | _ => exact Bool.noConfusion hl

theorem primary_name {c : Cursor} {name : String} {s : Bool} {ls : List Lexeme}
    (hc : c.lexemes = ⟨.ident, name, s⟩ :: ls) :
    ∃ start, primary v inner c = (if startsCall c.lexemes then call v inner name start
      else pure (.ident name)) c.advance := by
  obtain ⟨t, ht, htl⟩ := Cursor.peek?_zero hc
  have htk : t.kind = .ident := by rw [← t.kind_lexeme, htl]
  have htt : t.text = name := by rw [← t.text_lexeme, htl]
  refine ⟨t.range.start, ?_⟩
  rw [primary, get_bind]
  simp only [ht, htk, htt, ← Cursor.isAtCall_eq]
  rfl

theorem primary_unique {c : Cursor} (h : Lexeme.kind? c.lexemes = some (.directive .unique)) :
    primary v inner c = .ok (.ident uniqueMark) c.advance := by
  match hc : c.lexemes with
  | [] => simp [hc] at h
  | l :: ls =>
    obtain ⟨t, ht, htl⟩ := Cursor.peek?_zero hc
    have htk : t.kind = .directive .unique := by
      rw [hc, kind?_cons, ← htl] at h
      exact Option.some.inj h
    rw [primary, get_bind]
    simp only [ht, htk]
    rfl

theorem primary_paren {c : Cursor} (h : Lexeme.kind? c.lexemes = some (.mark .openParen)) :
    primary v inner c = (inner >>= fun e =>
      expect (.mark .closeParen) .closeParen >>= fun _ => pure (.paren e)) c.advance := by
  match hc : c.lexemes with
  | [] => simp [hc] at h
  | l :: ls =>
    obtain ⟨t, ht, htl⟩ := Cursor.peek?_zero hc
    have htk : t.kind = .mark .openParen := by
      rw [hc, kind?_cons, ← htl] at h
      exact Option.some.inj h
    rw [primary, get_bind]
    simp only [ht, htk]
    rfl

theorem startsCall_eq_false {l : Lexeme} {ls : List Lexeme} (h : IsLoose ls) :
    startsCall (l :: ls) = false := by
  cases ls with
  | nil => rfl
  | cons p ls =>
    have := h p rfl
    simp only [startsCall]
    by_cases hp : p.kind = .mark .openParen
    · simp [this hp]
    · simp [hp]

theorem readsAt_literal {value : Literal} (hv : value.Legible) (hneg : value.isNegative = false) :
    ReadsAt v inner j 6 (.literal value) := by
  refine readsAt_of_readsTo (Or.inr rfl) fun s rs c _ hc => ?_
  rw [Expr.row, Literal.row, withMinus, hneg, if_neg Bool.false_ne_true, List.singleton_append] at hc
  refine ⟨.literal value, c.advance, ?_, rfl, Cursor.lexemes_advance hc⟩
  change primary v inner c = _
  have hlit := literal_magnitude hv hc
  rw [hneg] at hlit
  rw [primary_literal (by rw [hc]; rfl) value.kind_magnitude, bind_of_ok hlit]
  rfl

theorem readsAt_ident {name : String} (h : IsNameOrMark name) : ReadsAt v inner j 6 (.ident name) := by
  refine readsAt_of_readsTo (Or.inr rfl) fun s rs c hends hc => ?_
  rw [Expr.row, List.singleton_append] at hc
  refine ⟨.ident name, c.advance, ?_, rfl, Cursor.lexemes_advance hc⟩
  change primary v inner c = _
  rcases h with rfl | h
  · exact primary_unique (by rw [hc]; rfl)
  · rw [h.nameLexeme_eq] at hc
    obtain ⟨start, hrun⟩ := @primary_name v inner _ _ _ _ hc
    rw [hrun, hc, startsCall_eq_false hends.loose]
    rfl

theorem readsAt_paren
    (hinner : ∀ d ds, d.lexemes = e.row false ++ ofChar ')' false :: ds →
      ReadsTo inner d Expr.bare (e.foldSigns false).bare (ofChar ')' false :: ds)) :
    ReadsAt v inner j 6 (.paren e) := by
  refine readsAt_of_readsTo (Or.inr rfl) fun s rs c _ hc => ?_
  rw [Expr.row, List.cons_append, List.append_assoc, List.singleton_append] at hc
  obtain ⟨a, d, hrun, ha, hd⟩ := hinner _ _ (Cursor.lexemes_advance hc)
  refine ⟨.paren a, d.advance, ?_, ?_, Cursor.lexemes_advance hd⟩
  · change primary v inner c = _
    rw [primary_paren (by rw [hc]; rfl), bind_of_ok hrun, bind_of_ok (expect_pos _ (by rw [hd]; rfl))]
    rfl
  · rw [Expr.bare, ha]
    rfl

/-! ### Signs and powers -/

/-- An unsigned literal is one token. -/
theorem row_unsigned {value : Literal} (hr : 5 ≤ (Expr.literal value).rank) (s : Bool) :
    value.isNegative = false ∧
      (Expr.literal value).row s = [⟨value.magnitude.1, value.magnitude.2, s⟩] := by
  have hneg : value.isNegative = false := by
    cases h : value.isNegative with
    | false => rfl
    | true => simp [Expr.rank, h] at hr
  exact ⟨hneg, by rw [Expr.row, Literal.row, withMinus, hneg, if_neg Bool.false_ne_true]⟩

/-- A number at the start of a tight expression is all of it, or the base of a power. -/
theorem number_start : (e : Expr) → {j : Bool} → e.Grammatical v j → 5 ≤ e.rank → (s : Bool) →
    (l : Lexeme) → (ls : List Lexeme) → e.row s = l :: ls → l.kind.isNumber = true →
    (∃ value, e = .literal value ∧ ls = []) ∨ ∀ rs, startsPower (ls ++ rs) = true
  | .literal value, j, hg, hr, s, l, ls, hrow, hnum => by
    rw [(row_unsigned hr s).2, List.cons.injEq] at hrow
    exact Or.inl ⟨value, rfl, hrow.2.symm⟩
  | .ident name, j, hg, hr, s, l, ls, hrow, hnum => by
    simp only [Expr.row, List.cons.injEq] at hrow
    rw [← hrow.1, nameLexeme] at hnum
    split at hnum <;> exact Bool.noConfusion hnum
  | .call .., j, hg, hr, s, l, ls, hrow, hnum => by
    simp only [Expr.row, List.cons.injEq] at hrow
    rw [← hrow.1] at hnum
    exact Bool.noConfusion hnum
  | .unary .., j, hg, hr, s, l, ls, hrow, hnum => by simp [Expr.rank] at hr
  | .binary op lhs rhs, j, hg, hr, s, l, ls, hrow, hnum => by
    have hop : op = .pow := by cases op <;> simp_all [Expr.rank, BinaryOp.level]
    subst hop
    obtain ⟨kind, text, ks, hlhs, -⟩ := lhs.row_eq_cons hg.2.1 s
    rw [Expr.row, hlhs, List.cons_append, List.cons_append, List.cons.injEq] at hrow
    rw [hrow.1] at hlhs
    refine Or.inr fun rs => ?_
    rcases number_start lhs hg.2.1 hg.1.1 s l ks hlhs hnum with ⟨value, -, rfl⟩ | h
    · rw [← hrow.2]
      rfl
    · rw [← hrow.2, List.append_assoc, List.append_assoc]
      exact h _
  | .paren _, j, hg, hr, s, l, ls, hrow, hnum => by
    simp only [Expr.row, List.cons.injEq] at hrow
    rw [← hrow.1] at hnum
    exact Bool.noConfusion hnum

theorem sign?_lexeme {c : Cursor} {op : UnaryOp} {s : Bool} {ls : List Lexeme}
    (hc : c.lexemes = op.lexeme s :: ls) : c.sign? = some op := by
  unfold Cursor.sign?
  rw [Cursor.kind?_eq, hc, kind?_cons]
  cases op <;> rfl

theorem startsMinusNumber_minus (s : Bool) (kind : TokenKind) (text : String) (ls : List Lexeme) :
    startsMinusNumber (UnaryOp.minus.lexeme s :: ⟨kind, text, false⟩ :: ls) = kind.isNumber := by
  simp [startsMinusNumber, UnaryOp.lexeme, ofChar, Lexer.single]

/-- A minus before the row of an operand is part of a number exactly if the operand is a number
that no power sign follows. -/
theorem isAtNegativeLiteral_row {c : Cursor} {op : UnaryOp} {s : Bool} {rs : List Lexeme}
    (hg : e.Grammatical v j) (hr : 5 ≤ e.rank)
    (hc : c.lexemes = op.lexeme s :: (e.row false ++ rs)) :
    c.isAtNegativeLiteral = (op.foldedLiteral? (startsPower rs) e).isSome := by
  rw [Cursor.isAtNegativeLiteral_eq, hc]
  cases op with
  | plus =>
    obtain ⟨kind, text, ls, hrow, -⟩ := e.row_eq_cons hg false
    rw [hrow]
    rfl
  | minus =>
    by_cases hlit : ∃ value, e = .literal value
    · obtain ⟨value, rfl⟩ := hlit
      obtain ⟨hneg, hrow⟩ := row_unsigned hr false
      have hleg : value.Legible := hg
      rw [hrow, List.singleton_append, startsMinusNumber_minus, isNumber_magnitude,
        List.drop_succ_cons, List.drop_succ_cons, List.drop_zero]
      cases hn : value.isNumber <;> cases hp : startsPower rs <;>
        simp [UnaryOp.foldedLiteral?, Literal.isUnsigned, hn, hneg, hleg]
    · obtain ⟨kind, text, ls, hrow, -⟩ := e.row_eq_cons hg false
      have hnone : UnaryOp.minus.foldedLiteral? (startsPower rs) e = none := by
        cases e with
        | literal value => exact absurd ⟨value, rfl⟩ hlit
        | _ => rfl
      rw [hrow, List.cons_append, startsMinusNumber_minus, hnone, List.drop_succ_cons,
        List.drop_succ_cons, List.drop_zero]
      by_cases hnum : kind.isNumber = true
      · rcases number_start e hg hr false _ _ hrow hnum with ⟨value, heq, -⟩ | h
        · exact absurd ⟨value, heq⟩ hlit
        · rw [h rs, hnum]
          rfl
      · rw [Bool.eq_false_iff.2 hnum]
        rfl

theorem signed_negative {c : Cursor} (h : c.isAtNegativeLiteral = true) :
    signed v inner c = (literal true >>= fun value => pure (.literal value)) c.advance := by
  unfold signed
  change (if c.isAtNegativeLiteral then _ else _ : Parser Expr) c = _
  rw [h]
  rfl

theorem signed_sign {c : Cursor} {op : UnaryOp} (h : c.isAtNegativeLiteral = false)
    (hs : c.sign? = some op) :
    signed v inner c = (power v inner >>= fun e => pure (.unary op e)) c.advance := by
  rw [signed, get_bind, h, hs]
  rfl

theorem exponent_negative {c : Cursor} (h : c.isAtNegativeLiteral = true) :
    exponent v inner c = (literal true >>= fun value => pure (.literal value)) c.advance := by
  unfold exponent
  change (if c.isAtNegativeLiteral then _ else _ : Parser Expr) c = _
  rw [h]
  rfl

theorem exponent_sign {c : Cursor} {op : UnaryOp} (h : c.isAtNegativeLiteral = false)
    (hs : c.sign? = some op) :
    exponent v inner c = (primary v inner >>= fun e => pure (.unary op e)) c.advance := by
  rw [exponent, get_bind, h, hs]
  rfl

theorem exponent_eq_primary {c : Cursor} (hop : ∀ op, Lexeme.kind? c.lexemes ≠ some (.operator op)) :
    exponent v inner c = primary v inner c := by
  rw [exponent, get_bind, Cursor.isAtNegativeLiteral_eq, startsMinusNumber_of_ne_operator hop, Bool.false_and,
    sign?_eq_none (hop .add) (hop .sub)]
  rfl

/-- A number with a minus, if no power sign follows. -/
theorem negative_row {c : Cursor} {value : Literal} {s : Bool} {rs : List Lexeme}
    (hv : value.Legible) (hneg : value.isNegative = true) (hp : startsPower rs = false)
    (hc : c.lexemes = (Expr.literal value).row s ++ rs) :
    c.isAtNegativeLiteral = true ∧ c.advance.advance.lexemes = rs ∧
      literal true c.advance = .ok value c.advance.advance := by
  rw [Expr.row, Literal.row, withMinus, hneg, if_pos rfl] at hc
  have hadv := Cursor.lexemes_advance hc
  refine ⟨?_, Cursor.lexemes_advance hadv, ?_⟩
  · have hm : startsMinusNumber c.lexemes = true := by
      rw [hc]
      exact (startsMinusNumber_minus s _ _ _).trans
        (by rw [isNumber_magnitude, isNumber_of_isNegative hneg])
    rw [Cursor.isAtNegativeLiteral_eq, hm, hc]
    simpa using hp
  · have hlit := literal_magnitude hv hadv
    rwa [hneg] at hlit

/-- A minus and a number that it becomes part of. -/
theorem folded_row {c : Cursor} {op : UnaryOp} {s : Bool} {rs : List Lexeme} {value : Literal}
    (hr : 5 ≤ e.rank) (hc : c.lexemes = op.lexeme s :: (e.row false ++ rs))
    (hf : op.foldedLiteral? (startsPower rs) e = some value) :
    c.advance.advance.lexemes = rs ∧ literal true c.advance = .ok value c.advance.advance := by
  obtain ⟨-, w, rfl, hw, rfl⟩ := UnaryOp.exists_of_foldedLiteral? hf
  have hadv := Cursor.lexemes_advance hc
  rw [(row_unsigned hr false).2, List.singleton_append] at hadv
  exact ⟨Cursor.lexemes_advance hadv, literal_magnitude_negated hw hadv⟩

theorem readsAt_negative {value : Literal} (hv : value.Legible) (hneg : value.isNegative = true) :
    ReadsAt v inner j 4 (.literal value) := by
  refine readsAt_of_readsTo (Or.inl rfl) fun s rs c hends hc => ?_
  obtain ⟨hat, hend, hlit⟩ := negative_row hv hneg (hends.power (Nat.le_refl 5)) hc
  refine ⟨.literal value, c.advance.advance, ?_, rfl, hend⟩
  change signed v inner c = _
  rw [signed_negative hat, bind_of_ok hlit]
  rfl

theorem foldSigns_unary_none {op : UnaryOp} {followed : Bool}
    (h : op.foldedLiteral? followed e = none) :
    (Expr.unary op e).foldSigns followed = .unary op (e.foldSigns followed) := by
  rw [Expr.foldSigns, h]

theorem foldSigns_unary_some {op : UnaryOp} {followed : Bool} {value : Literal}
    (h : op.foldedLiteral? followed e = some value) :
    (Expr.unary op e).foldSigns followed = .literal value := by
  rw [Expr.foldSigns, h]

theorem endsNegative_of_rank (h : e.rank ≠ 5) : e.endsNegative = false := by
  unfold Expr.endsNegative
  split
  · exact absurd rfl h
  · rfl

theorem readsAt_unary {op : UnaryOp} (hg : e.Grammatical v j) (hr : 5 ≤ e.rank)
    (h : ReadsAt v inner j 5 e) : ReadsAt v inner j 4 (.unary op e) := by
  refine readsAt_of_readsTo (Or.inl rfl) fun s rs c hends hc => ?_
  rw [Expr.row, List.cons_append] at hc
  have hat := isAtNegativeLiteral_row hg hr hc
  change ReadsTo (signed v inner) c _ _ _
  cases hf : op.foldedLiteral? (startsPower rs) e with
  | some value =>
    obtain ⟨hend, hlit⟩ := folded_row hr hc hf
    refine ⟨.literal value, c.advance.advance, ?_, ?_, hend⟩
    · rw [signed_negative (by rw [hat, hf]; rfl), bind_of_ok hlit]
      rfl
    · rw [foldSigns_unary_some hf]
  | none =>
    obtain ⟨a, c', hrun, ha, hc'⟩ :=
      h.readsTo hends (fun _ => hends.power (Nat.le_refl 5)) (Cursor.lexemes_advance hc)
    refine ⟨.unary op a, c', ?_, ?_, hc'⟩
    · rw [signed_sign (by rw [hat, hf]; rfl) (sign?_lexeme hc)]
      exact bind_of_ok hrun
    · rw [foldSigns_unary_none hf, Expr.bare, Expr.bare, ha]

/-- An exponent that has been written is read.  A number with a minus is not followed by a power
sign. -/
theorem exponent_row {c : Cursor} {s : Bool} {rs : List Lexeme} (hg : e.Grammatical v j)
    (he : e.isExponent = true) (hloose : IsLoose rs)
    (hneg : ∀ value, e = .literal value → value.isNegative = true → startsPower rs = false)
    (h6 : e.rank = 6 → ReadsAt v inner j 6 e)
    (hu : ∀ op p, e = .unary op p → ReadsAt v inner j 6 p)
    (hc : c.lexemes = e.row s ++ rs) :
    ReadsTo (exponent v inner) c Expr.bare (e.foldSigns (startsPower rs)).bare rs := by
  have hends : Ends j 6 rs := by
    refine ⟨fun h => absurd h (by decide), fun op hop => ?_, hloose⟩
    cases op <;> decide
  by_cases hr : e.rank = 6
  · obtain ⟨a, c', hrun, ha, hc'⟩ := (h6 hr).readsTo hends
      (fun h => by rw [endsNegative_of_rank (by omega)] at h; exact Bool.noConfusion h) hc
    refine ⟨a, c', ?_, ha, hc'⟩
    rw [exponent_eq_primary (by rw [hc]; exact kind?_row_ne_operator hg (by omega) s rs)]
    exact hrun
  · cases e with
    | literal value =>
      have hneg' : value.isNegative = true := by
        cases h : value.isNegative with
        | true => rfl
        | false => simp [Expr.rank, h] at hr
      obtain ⟨hat, hend, hlit⟩ := negative_row hg hneg' (hneg value rfl hneg') hc
      refine ⟨.literal value, c.advance.advance, ?_, rfl, hend⟩
      rw [exponent_negative hat, bind_of_ok hlit]
      rfl
    | unary op p =>
      have hp6 : p.rank = 6 := by simpa [Expr.isExponent] using he
      rw [Expr.row, List.cons_append] at hc
      have hat := isAtNegativeLiteral_row hg.2 hg.1 hc
      cases hf : op.foldedLiteral? (startsPower rs) p with
      | some value =>
        obtain ⟨hend, hlit⟩ := folded_row hg.1 hc hf
        refine ⟨.literal value, c.advance.advance, ?_, ?_, hend⟩
        · rw [exponent_negative (by rw [hat, hf]; rfl), bind_of_ok hlit]
          rfl
        · rw [foldSigns_unary_some hf]
      | none =>
        obtain ⟨a, c', hrun, ha, hc'⟩ := (hu op p rfl).readsTo hends
          (fun h => by rw [endsNegative_of_rank (by omega)] at h; exact Bool.noConfusion h)
          (Cursor.lexemes_advance hc)
        refine ⟨.unary op a, c', ?_, ?_, hc'⟩
        · rw [exponent_sign (by rw [hat, hf]; rfl) (sign?_lexeme hc)]
          exact bind_of_ok hrun
        · rw [foldSigns_unary_none hf, Expr.bare, Expr.bare, ha]
    | ident name => exact absurd rfl hr
    | call name arguments range => exact absurd rfl hr
    | paren inner => exact absurd rfl hr
    | binary op lhs rhs => exact absurd (by simpa [Expr.isExponent] using he) hr

theorem exponents_step {c : Cursor} {limit : Nat} {base b : Expr} {c' : Cursor}
    (hp : startsPower c.lexemes = true) (h : exponent v inner c.advance = .ok b c') :
    exponents v inner (limit + 1) base c = exponents v inner limit (.binary .pow base b) c' := by
  have hk : Lexeme.kind? c.lexemes = some (.operator .pow) := by simpa [startsPower] using hp
  rw [exponents, bind_of_ok (takeIf_pos hk), if_pos rfl, bind_of_ok h]

theorem operations_step {c : Cursor} {operand : Parser Expr} {limit : Nat} {lhs b : Expr}
    {c' d : Cursor} {op : BinaryOp} (hop : Lexeme.operation? j c.lexemes = some op)
    (hk : op.level = k) (hskip : skipSymbol op c = .ok () c') (h : operand c' = .ok b d) :
    operations j k operand (limit + 1) lhs c = operations j k operand limit (.binary op lhs b) d := by
  rw [operations, get_bind, Cursor.operation?_eq, hop]
  simp only [hk, if_true]
  rw [bind_of_ok hskip, bind_of_ok h]

/-! ### Operations -/

theorem length_row_pos (hg : e.Grammatical v j) (s : Bool) : 1 ≤ (e.row s).length := by
  obtain ⟨kind, text, ls, hrow, -⟩ := e.row_eq_cons hg s
  rw [hrow]
  simp

theorem readsAt_pow {lhs rhs : Expr} (hneg : lhs.endsNegative = false) (hl : ReadsAt v inner j 5 lhs)
    (hr : ∀ c s rs, IsLoose rs →
      (∀ value, rhs = .literal value → value.isNegative = true → startsPower rs = false) →
      c.lexemes = rhs.row s ++ rs →
      ReadsTo (exponent v inner) c Expr.bare (rhs.foldSigns (startsPower rs)).bare rs) :
    ReadsAt v inner j 5 (.binary .pow lhs rhs) := by
  intro s rs c hends hends' hc
  have hrow : c.lexemes
      = lhs.row s ++ ⟨.operator .pow, BinaryOp.pow.symbol, true⟩ :: (rhs.row true ++ rs) := by
    rw [hc, Expr.row]
    simp [BinaryOp.row]
  have hends6 : Ends j 6 (⟨.operator .pow, BinaryOp.pow.symbol, true⟩ :: (rhs.row true ++ rs)) := by
    refine ⟨fun h => absurd h (by decide), fun op hop => ?_, isLoose_cons _ (by simp)⟩
    cases hop
  obtain ⟨a, c₁, limit, hrun, ha, hc₁, hlimit⟩ :=
    hl s _ c hends6 (fun h => by rw [hneg] at h; exact Bool.noConfusion h) hrow
  have hneg' : ∀ value, rhs = .literal value → value.isNegative = true → startsPower rs = false := by
    rintro value rfl hv
    exact hends' hv
  obtain ⟨b, c₂, hrun₂, hb, hc₂⟩ := hr c₁.advance true rs hends.loose hneg' (Cursor.lexemes_advance hc₁)
  cases limit with
  | zero => simp at hlimit
  | succ limit =>
    refine ⟨.binary .pow a b, c₂, limit, ?_, ?_, hc₂, ?_⟩
    · rw [hrun]
      exact exponents_step (by rw [hc₁]; rfl) hrun₂
    · rw [Expr.bare, Expr.foldSigns, Expr.bare, ha, hb]
      rfl
    · simp only [List.length_cons, List.length_append] at hlimit
      omega

/-- The operation that has been written is the one that goes on. -/
theorem operation?_row {op : BinaryOp} {lhs rhs : Expr} (hop : op ≠ .pow)
    (hgroups : op.Groups j lhs rhs) (hg : rhs.Grammatical v j) (rs : List Lexeme) :
    Lexeme.operation? j (op.row ++ (rhs.row true ++ rs)) = some op := by
  obtain ⟨kind, text, ls, hrow, -, hrank⟩ := rhs.row_eq_cons hg true
  rw [hrow]
  by_cases hjux : op = .juxtaposed
  · subst hjux
    obtain ⟨hj, -, h5, hstart⟩ := hgroups
    obtain ⟨hnop, hfactor⟩ := hrank h5
    rw [BinaryOp.row, List.nil_append, List.cons_append, Lexeme.operation?, kind?_cons,
      Option.bind_some, operationOf?.eq_2 _ _ _ (fun op h => hnop ⟨op, h⟩), hj, hfactor, hstart]
    rfl
  · have hsym : op.row = [⟨.operator op, op.symbol, true⟩] := by
      cases op <;> first | rfl | exact absurd rfl hjux
    have hdet : startsDetached (⟨.operator op, op.symbol, true⟩ :: ⟨kind, text, true⟩ :: (ls ++ rs))
        = false := by
      simp [startsDetached, startsMinusNumber]
    rw [hsym, List.singleton_append, List.cons_append, Lexeme.operation?, hdet, kind?_cons,
      Option.bind_some, operationOf?, if_neg (by simp [hop, hjux])]

theorem isLoose_row {op : BinaryOp} {rhs : Expr} (hg : rhs.Grammatical v j) (rs : List Lexeme) :
    IsLoose (op.row ++ (rhs.row true ++ rs)) := by
  obtain ⟨kind, text, ls, hrow, -⟩ := rhs.row_eq_cons hg true
  rw [hrow]
  cases op with
  | juxtaposed => exact (isSpaced_cons kind text _).isLoose
  | _ => exact isLoose_cons _ (by simp)

theorem startsPower_row {op : BinaryOp} {lhs rhs : Expr} (hop : op ≠ .pow)
    (hgroups : op.Groups j lhs rhs) (hg : rhs.Grammatical v j) (rs : List Lexeme) :
    startsPower (op.row ++ (rhs.row true ++ rs)) = false := by
  cases h : startsPower (op.row ++ (rhs.row true ++ rs)) with
  | false => rfl
  | true =>
    have hk : Lexeme.kind? (op.row ++ (rhs.row true ++ rs)) = some (.operator .pow) := by
      simpa [startsPower] using h
    have hop' := operation?_row hop hgroups hg rs
    rw [Lexeme.operation?, hk, Option.bind_some, operationOf?, if_pos (Or.inl rfl)] at hop'
    cases hop'

theorem skipSymbol_row {op : BinaryOp} {c : Cursor} {ls : List Lexeme} (hc : c.lexemes = op.row ++ ls) :
    ∃ c', skipSymbol op c = .ok () c' ∧ c'.lexemes = ls := by
  by_cases hjux : op = .juxtaposed
  · subst hjux
    exact ⟨c, rfl, hc⟩
  · have hsym : op.row = [⟨.operator op, op.symbol, true⟩] := by
      cases op <;> first | rfl | exact absurd rfl hjux
    rw [hsym, List.singleton_append] at hc
    refine ⟨c.advance, ?_, Cursor.lexemes_advance hc⟩
    rw [skipSymbol, if_neg hjux]
    rfl

theorem rounds_of_level {op : BinaryOp} (hop : op ≠ .pow) :
    rounds v inner j op.level = operations j op.level (tier v inner j (op.level + 1)) := by
  cases op <;> first | rfl | exact absurd rfl hop

theorem readsAt_binary {op : BinaryOp} {lhs rhs : Expr} (hop : op ≠ .pow)
    (hgroups : op.Groups j lhs rhs) (hg : rhs.Grammatical v j)
    (hl : ReadsAt v inner j op.level lhs) (hr : ReadsAt v inner j (op.level + 1) rhs) :
    ReadsAt v inner j op.level (.binary op lhs rhs) := by
  intro s rs c hends _ hc
  have hlevel : op.level ≤ 3 := by cases op <;> simp_all [BinaryOp.level]
  rw [Expr.row, List.append_assoc, List.append_assoc] at hc
  have hnext := operation?_row hop hgroups hg rs
  have hpow := startsPower_row hop hgroups hg rs
  have hends' : Ends j (op.level + 1) (op.row ++ (rhs.row true ++ rs)) := by
    refine ⟨fun _ => hpow, fun op' h => ?_, isLoose_row hg rs⟩
    rw [hnext] at h
    cases h
    exact Nat.lt_succ_self _
  obtain ⟨a, c₁, limit, hrun, ha, hc₁, hlimit⟩ := hl s _ c hends' (fun _ => hpow) hc
  obtain ⟨c₂, hskip, hc₂⟩ := skipSymbol_row hc₁
  obtain ⟨b, c₃, hrun₃, hb, hc₃⟩ := hr.readsTo hends (fun _ => hends.power (by omega)) hc₂
  cases limit with
  | zero =>
    have := length_row_pos hg true
    simp only [List.length_append] at hlimit
    omega
  | succ limit =>
    refine ⟨.binary op a b, c₃, limit, ?_, ?_, hc₃, ?_⟩
    · rw [hrun, rounds_of_level hop]
      exact operations_step (by rw [hc₁, hnext]) rfl hskip hrun₃
    · rw [Expr.bare, Expr.foldSigns, Expr.bare, ha, hb, hpow, beq_eq_false_iff_ne.2 hop]
    · have := length_row_pos hg true
      simp only [List.length_append] at hlimit
      omega

/-! ### Arguments and calls -/

/-- What may follow an argument: a comma or a closing parenthesis. -/
def EndsArgument (rs : List Lexeme) : Prop :=
  Lexeme.kind? rs = some (.mark .comma) ∨ Lexeme.kind? rs = some (.mark .closeParen)

theorem EndsArgument.endsPlace {rs : List Lexeme} (h : EndsArgument rs) (v : Vocabulary)
    (name : Option String) (value : Value) : EndsPlace v name value rs := by
  intro _
  match rs with
  | [] => rcases h with h | h <;> cases h
  | l :: ls =>
    have hk : l.kind = .mark .comma ∨ l.kind = .mark .closeParen := by
      simpa [EndsArgument] using h
    refine ⟨⟨startsMinusNumber_of_ne_operator fun op => ?_, ?_⟩, fun _ => ?_⟩
    · rcases hk with hk | hk <;> rw [kind?_cons, hk] <;> simp
    · rcases hk with hk | hk <;> rw [kind?_cons, hk] <;> rfl
    · rcases hk with hk | hk <;> simp [startsParameterName, hk]

theorem EndsArgument.ends {rs : List Lexeme} (h : EndsArgument rs) (j : Bool) (k : Nat) :
    Ends j k rs := by
  match rs with
  | [] => rcases h with h | h <;> cases h
  | l :: ls =>
    have hk : l.kind = .mark .comma ∨ l.kind = .mark .closeParen := by
      simpa [EndsArgument] using h
    refine ends_of_kind ?_ fun op => ?_
    · rcases hk with hk | hk <;> rw [hk] <;> rfl
    · rcases hk with hk | hk <;> rw [hk] <;> simp

theorem endsArgument_rowRest (as : List Argument) (rs : List Lexeme) :
    EndsArgument (Argument.rowRest as ++ ofChar ')' false :: rs) := by
  cases as with
  | nil => exact Or.inr rfl
  | cons a as => exact Or.inl rfl

/-- An argument that has been written is read. -/
def ReadsArgument (v : Vocabulary) (inner : Parser Expr) (a : Argument) : Prop :=
  ∀ c s rs, EndsArgument rs → c.lexemes = a.row s ++ rs →
    ReadsTo (argument v inner) c Argument.bare a.foldSigns.bare rs

theorem readsArgument_hole : ReadsArgument v inner .hole := by
  intro c s rs hends hc
  rw [Argument.row, List.nil_append] at hc
  refine ⟨.hole, c, ?_, rfl, hc⟩
  rw [argument, get_bind, Cursor.kind?_eq, hc]
  rcases hends with h | h <;> rw [h] <;> rfl

theorem argument_marked {c : Cursor} {mark : Mark} (hm : mark = .atSign ∨ mark = .bang)
    (hk : Lexeme.kind? c.lexemes = some (.mark mark)) :
    argument v inner c = (markedParameter v >>= fun p => pure (.parameter p)) c := by
  unfold argument
  rw [get_bind, Cursor.kind?_eq, hk]
  rcases hm with rfl | rfl <;> rfl

theorem argument_assign {c : Cursor} {op : AssignOp}
    (hk : Lexeme.kind? c.lexemes = some (.assign op)) :
    argument v inner c = (equation inner op >>= fun e => pure (.equation e)) c := by
  unfold argument
  rw [get_bind, Cursor.kind?_eq, hk]

theorem argument_expr {c : Cursor} {kind : TokenKind} (hk : Lexeme.kind? c.lexemes = some kind)
    (hs : kind.startsExpression = true) :
    argument v inner c = (inner >>= fun e => pure (.expr e)) c := by
  unfold argument
  rw [get_bind, Cursor.kind?_eq, hk]
  cases kind with
  | mark m => cases m <;> first | rfl | exact Bool.noConfusion hs
  | assign op => exact Bool.noConfusion hs
  | _ => simp only [hs, if_true]

theorem readsArgument_parameter {p : Parameter} (hp : p.IsMarked v) :
    ReadsArgument v inner (.parameter p) := by
  intro c s rs hends hc
  rw [Argument.row] at hc
  obtain ⟨a, c', hrun, rfl, hc'⟩ := markedParameter_row hp hc (hends.endsPlace v _ _)
  refine ⟨.parameter a, c', ?_, ?_, hc'⟩
  · have hmark : ∃ mark, (mark = .atSign ∨ mark = .bang) ∧
        Lexeme.kind? c.lexemes = some (.mark mark) := by
      obtain ⟨r, name, value⟩ := a
      rw [hc]
      cases r with
      | plain => exact absurd rfl hp.1
      | refined => exact ⟨.atSign, Or.inl rfl, rfl⟩
      | unrefined => exact ⟨.bang, Or.inr rfl, rfl⟩
    obtain ⟨mark, hm, hk⟩ := hmark
    rw [argument_marked hm hk, bind_of_ok hrun]
    rfl
  · obtain ⟨r, name, value⟩ := a
    cases value with
    | equation e => exact hp.2.2.elim
    | _ => rfl

theorem readsArgument_equation {eqn : Equation} (hu : ∀ u, eqn.uncertainty = some u → u.Legible)
    (hbody : ∀ d ds, d.lexemes = eqn.body.row true ++ ofChar ';' false :: ds →
      ReadsTo inner d Expr.bare (eqn.body.foldSigns false).bare (ofChar ';' false :: ds)) :
    ReadsArgument v inner (.equation eqn) := by
  intro c s rs hends hc
  rw [Argument.row] at hc
  have hcolon : eqn.uncertainty = none → Lexeme.kind? rs ≠ some (.mark .colon) := by
    intro _
    rcases hends with h | h <;> rw [h] <;> simp
  obtain ⟨a, c', hrun, ha, hc'⟩ := equation_row hu hbody hc hcolon
  refine ⟨.equation a, c', ?_, ?_, hc'⟩
  · have hk : Lexeme.kind? c.lexemes = some (.assign eqn.op) := by
      obtain ⟨op, body, estimate⟩ := eqn
      rw [hc]
      rfl
    rw [argument_assign hk, bind_of_ok hrun]
    rfl
  · rw [Argument.bare, ha]
    rfl

theorem readsArgument_expr (hg : e.Grammatical v true)
    (hinner : ∀ d s ds, Ends true 1 ds → d.lexemes = e.row s ++ ds →
      ReadsTo inner d Expr.bare (e.foldSigns false).bare ds) :
    ReadsArgument v inner (.expr e) := by
  intro c s rs hends hc
  rw [Argument.row] at hc
  obtain ⟨a, c', hrun, ha, hc'⟩ := hinner c s rs (hends.ends true 1) hc
  refine ⟨.expr a, c', ?_, ?_, hc'⟩
  · obtain ⟨kind, text, ls, hrow, hstart, -⟩ := e.row_eq_cons hg s
    rw [argument_expr (by rw [hc, hrow]; rfl) hstart, bind_of_ok hrun]
    rfl
  · rw [Argument.bare, ha]
    rfl

/-- All arguments up to the closing parenthesis are read. -/
def ReadsArguments (v : Vocabulary) (inner : Parser Expr) (a : Argument) (as : List Argument) :
    Prop :=
  ∀ c s rs limit, as.length < limit →
    c.lexemes = a.row s ++ (Argument.rowRest as ++ ofChar ')' false :: rs) →
    ReadsTo (arguments v inner limit) c Argument.bareAll
      (Argument.bareAll (Argument.foldSignsAll (a :: as))) rs

theorem readsArguments_last {a : Argument} (h : ReadsArgument v inner a) :
    ReadsArguments v inner a [] := by
  intro c s rs limit hlimit hc
  obtain ⟨b, c', hrun, hb, hc'⟩ := h c s _ (endsArgument_rowRest [] rs) hc
  rw [Argument.rowRest, List.nil_append] at hc'
  refine ⟨[b], c'.advance, ?_, ?_, Cursor.lexemes_advance hc'⟩
  · cases limit with
    | zero => exact absurd hlimit (Nat.not_lt_zero _)
    | succ limit =>
      have hne : Lexeme.kind? c'.lexemes ≠ some (.mark .comma) := by rw [hc']; rintro ⟨⟩
      rw [arguments, bind_of_ok hrun, bind_of_ok (takeIf_neg hne), if_neg Bool.false_ne_true,
        bind_of_ok (expect_pos _ (by rw [hc']; rfl))]
      rfl
  · simp only [Argument.bareAll, Argument.foldSignsAll, hb]

theorem readsArguments_cons {a b : Argument} {as : List Argument} (h : ReadsArgument v inner a)
    (hrest : ReadsArguments v inner b as) : ReadsArguments v inner a (b :: as) := by
  intro c s rs limit hlimit hc
  obtain ⟨x, c', hrun, hx, hc'⟩ := h c s _ (endsArgument_rowRest (b :: as) rs) hc
  rw [Argument.rowRest, List.cons_append, List.append_assoc] at hc'
  cases limit with
  | zero => exact absurd hlimit (Nat.not_lt_zero _)
  | succ limit =>
    obtain ⟨xs, d, hrun', hxs, hd⟩ := hrest c'.advance true rs limit
      (by simpa using hlimit) (Cursor.lexemes_advance hc')
    refine ⟨x :: xs, d, ?_, ?_, hd⟩
    · rw [arguments, bind_of_ok hrun, bind_of_ok (takeIf_pos (by rw [hc']; rfl)), if_pos rfl,
        bind_of_ok hrun']
      rfl
    · rw [Argument.foldSignsAll, Argument.bareAll, Argument.bareAll, hx, hxs]

/-- The tokens of an argument list, at least as many as commas. -/
theorem length_le_rowRest (as : List Argument) : as.length ≤ (Argument.rowRest as).length := by
  induction as with
  | nil => exact Nat.le_refl _
  | cons a as ih =>
    simp only [Argument.rowRest, List.length_cons, List.length_append]
    omega

theorem call_row {c : Cursor} {name : String} {start : Nat} {as : List Argument}
    {rs : List Lexeme} (hhole : ¬Argument.IsHoleOnly as)
    (has : ∀ a bs, as = a :: bs → ReadsArguments v inner a bs)
    (hfirst : ∀ a bs, as = a :: bs → a.isHole = false →
      ∃ l ls, a.row false = l :: ls ∧ l.kind ≠ .mark .closeParen)
    (hc : c.lexemes = ofChar '(' false :: (Argument.rowFirst as ++ ofChar ')' false :: rs)) :
    ReadsTo (call v inner name start) c Expr.bare
      (.call name (Argument.bareAll (Argument.foldSignsAll as)) (.emptyAt 0)) rs := by
  have hadv := Cursor.lexemes_advance hc
  unfold call
  refine Gives.advance_bind ?_
  match as with
  | [] =>
    rw [Argument.rowFirst, List.nil_append] at hadv
    refine ⟨.call name [] ⟨start, c.advance.advance.lastEnd⟩, c.advance.advance, ?_, rfl,
      Cursor.lexemes_advance hadv⟩
    rw [bind_of_ok (takeIf_pos (by rw [hadv]; rfl))]
    rfl
  | a :: bs =>
    rw [Argument.rowFirst, List.append_assoc] at hadv
    have hne : Lexeme.kind? c.advance.lexemes ≠ some (.mark .closeParen) := by
      rw [hadv]
      cases ha : a.isHole with
      | false =>
        obtain ⟨l, ls, hrow, hl⟩ := hfirst a bs rfl ha
        rw [hrow, List.cons_append, kind?_cons]
        exact fun h => hl (Option.some.inj h)
      | true =>
        rw [Argument.eq_hole ha, Argument.row, List.nil_append]
        cases bs with
        | nil => exact absurd (by rw [Argument.eq_hole ha]; trivial) hhole
        | cons b bs => rintro ⟨⟩
    have hlimit : bs.length < c.advance.rest.length + 1 := by
      have := length_le_rowRest bs
      rw [← Cursor.length_lexemes, hadv]
      simp only [List.length_append, List.length_cons]
      omega
    obtain ⟨xs, d, hrun, hxs, hd⟩ := has a bs rfl c.advance false rs _ hlimit hadv
    refine ⟨.call name xs ⟨start, d.lastEnd⟩, d, ?_, ?_, hd⟩
    · rw [bind_of_ok (takeIf_neg hne), if_neg Bool.false_ne_true, get_bind, bind_of_ok hrun]
      rfl
    · rw [Expr.bare, hxs]

theorem readsAt_call {name : String} {as : List Argument} {range : Extent}
    (hhole : ¬Argument.IsHoleOnly as)
    (has : ∀ a bs, as = a :: bs → ReadsArguments v inner a bs)
    (hfirst : ∀ a bs, as = a :: bs → a.isHole = false →
      ∃ l ls, a.row false = l :: ls ∧ l.kind ≠ .mark .closeParen) :
    ReadsAt v inner j 6 (.call name as range) := by
  refine readsAt_of_readsTo (Or.inr rfl) fun s rs c _ hc => ?_
  rw [Expr.row, List.cons_append, List.cons_append, List.append_assoc, List.singleton_append] at hc
  obtain ⟨start, hrun⟩ := @primary_name v inner _ _ _ _ hc
  have hcall : startsCall c.lexemes = true := by
    rw [hc]
    rfl
  obtain ⟨a, c', hrun', ha, hc'⟩ := @call_row v inner _ name start _ _ hhole has hfirst
    (Cursor.lexemes_advance hc)
  refine ⟨a, c', ?_, ?_, hc'⟩
  · change primary v inner c = _
    rw [hrun, hcall, if_pos rfl, hrun']
  · rw [ha, Expr.foldSigns, Expr.bare]

/-! ### Expressions of any depth -/

theorem level_bounds (op : BinaryOp) : 1 ≤ op.level ∧ op.level ≤ 5 := by cases op <;> decide

theorem rank_bounds (e : Expr) : 1 ≤ e.rank ∧ e.rank ≤ 6 := by
  cases e with
  | literal value =>
    simp only [Expr.rank]
    split <;> decide
  | binary op lhs rhs =>
    have := level_bounds op
    simp only [Expr.rank]
    omega
  | _ => simp [Expr.rank]

/-- What is read at its own rank is read as an expression of one more level. -/
theorem ReadsAt.expression {levels : Nat} (h : ReadsAt v (expression v levels true) j e.rank e)
    (hg : e.Grammatical v j) {c : Cursor} {s : Bool} {rs : List Lexeme} (hends : Ends j 1 rs)
    (hc : c.lexemes = e.row s ++ rs) :
    ReadsTo (Parser.expression v (levels + 1) j) c Expr.bare (e.foldSigns false).bare rs := by
  have h1 := h.of_le hg (Nat.le_refl _) (Nat.le_refl 1) (rank_bounds e).1 (rank_bounds e).2
  have hpow := hends.power (by decide)
  have := h1.readsTo hends (fun _ => hpow) hc
  rwa [hpow] at this

theorem ends_ofChar {x : Char} (hx : x = ';' ∨ x = ')') (s : Bool) (ls : List Lexeme) (k : Nat) :
    Ends j k (ofChar x s :: ls) := by
  rcases hx with rfl | rfl <;> exact ends_of_kind rfl (by rintro _ ⟨⟩)

/-- An argument that is there starts with a token, which closes no parenthesis. -/
theorem row_argument {a : Argument} (hg : a.Grammatical v) (ha : a.isHole = false) :
    ∃ l ls, a.row false = l :: ls ∧ l.kind ≠ .mark .closeParen := by
  cases a with
  | hole => exact Bool.noConfusion ha
  | parameter p =>
    obtain ⟨r, name, value⟩ := p
    cases r with
    | plain => exact absurd rfl hg.1
    | _ => exact ⟨_, _, rfl, by rintro ⟨⟩⟩
  | expr e =>
    obtain ⟨kind, text, ls, hrow, hstart, -⟩ := e.row_eq_cons hg false
    refine ⟨_, ls, hrow, ?_⟩
    rintro rfl
    exact Bool.noConfusion hstart
  | equation e =>
    obtain ⟨op, body, estimate⟩ := e
    exact ⟨_, _, rfl, by simp⟩

/-- All of the arguments, if there are any. -/
def ReadsAll (v : Vocabulary) (inner : Parser Expr) : List Argument → Prop
  | [] => True
  | a :: as => ReadsArguments v inner a as

mutual

/-- **A written expression is read at its own rank.** -/
theorem readsAt_rank : (e : Expr) → {j : Bool} → {levels : Nat} → e.Grammatical v j →
    e.nesting ≤ levels → ReadsAt v (expression v levels true) j e.rank e
  | .literal value, j, levels, hg, _ => by
    cases hneg : value.isNegative with
    | false =>
      rw [Expr.rank, hneg]
      exact readsAt_literal hg hneg
    | true =>
      rw [Expr.rank, hneg]
      exact readsAt_negative hg hneg
  | .ident name, j, levels, hg, _ => readsAt_ident hg
  | .call name as range, j, levels, hg, hn => by
    refine readsAt_call hg.2.1 (fun a bs has => ?_) (fun a bs has ha => ?_)
    · have hmem := readsArguments_all as hg.2.2 hn
      rw [has] at hmem
      exact hmem
    · have hall := hg.2.2
      rw [has] at hall
      exact row_argument hall.1 ha
  | .unary op operand, j, levels, hg, hn => by
    have h := readsAt_rank operand hg.2 hn
    exact readsAt_unary hg.2 hg.1 (h.of_le hg.2 (Nat.le_refl _) (by decide) hg.1 (rank_bounds _).2)
  | .binary op lhs rhs, j, levels, hg, hn => by
    have hl := readsAt_rank lhs hg.2.1 (Nat.le_trans (Nat.le_max_left ..) hn)
    have hr := readsAt_rank rhs hg.2.2 (Nat.le_trans (Nat.le_max_right ..) hn)
    by_cases hop : op = .pow
    · subst hop
      obtain ⟨hl5, hneg, hexp⟩ := hg.1
      refine readsAt_pow hneg (hl.of_le hg.2.1 (Nat.le_refl _) (by decide) hl5 (rank_bounds _).2) ?_
      intro c s rs hloose hneg' hc
      refine exponent_row hg.2.2 hexp hloose hneg' (fun h6 => h6 ▸ hr) (fun uop p hp => ?_) hc
      subst hp
      have hp6 : p.rank = 6 := by simpa [Expr.isExponent] using hexp
      exact hp6 ▸ readsAt_rank p hg.2.2.2 (Nat.le_trans (Nat.le_max_right ..) hn)
    · have hlevel : op.level ≤ lhs.rank ∧ op.level + 1 ≤ rhs.rank := by
        have hgroups := hg.1
        cases op with
        | pow => exact absurd rfl hop
        | juxtaposed => exact ⟨hgroups.2.1, Nat.le_trans (by decide) hgroups.2.2.1⟩
        | _ => exact hgroups
      exact readsAt_binary hop hg.1 hg.2.2
        (hl.of_le hg.2.1 (Nat.le_refl _) (level_bounds op).1 hlevel.1 (rank_bounds _).2)
        (hr.of_le hg.2.2 (Nat.le_refl _) (Nat.le_add_left 1 _) hlevel.2 (rank_bounds _).2)
  | .paren inner, j, levels, hg, hn => by
    cases levels with
    | zero => exact absurd hn (Nat.not_succ_le_zero _)
    | succ levels =>
      have h := readsAt_rank (j := true) inner hg (Nat.le_of_succ_le_succ hn)
      exact readsAt_paren fun d ds hd => h.expression hg (ends_ofChar (Or.inr rfl) _ _ _) hd

theorem readsArguments_all : (as : List Argument) → {levels : Nat} → Argument.AllGrammatical v as →
    Argument.nestingAll as ≤ levels → ReadsAll v (expression v levels true) as
  | [], levels, _, _ => trivial
  | a :: as, levels, hg, hn => by
    have ha := readsArgument_any a hg.1 (Nat.le_trans (Nat.le_max_left ..) hn)
    have has := readsArguments_all as hg.2 (Nat.le_trans (Nat.le_max_right ..) hn)
    cases as with
    | nil => exact readsArguments_last ha
    | cons b bs => exact readsArguments_cons ha has

theorem readsArgument_any : (a : Argument) → {levels : Nat} → a.Grammatical v →
    a.nesting ≤ levels → ReadsArgument v (expression v levels true) a
  | .hole, levels, _, _ => readsArgument_hole
  | .parameter p, levels, hg, _ => readsArgument_parameter hg
  | .expr e, levels, hg, hn => by
    cases levels with
    | zero => exact absurd hn (Nat.not_succ_le_zero _)
    | succ levels =>
      have h := readsAt_rank (j := true) e hg (Nat.le_of_succ_le_succ hn)
      exact readsArgument_expr hg fun d s ds hends hd => h.expression hg hends hd
  | .equation ⟨op, body, estimate⟩, levels, hg, hn => by
    cases levels with
    | zero => exact absurd hn (Nat.not_succ_le_zero _)
    | succ levels =>
      have h := readsAt_rank (j := true) body hg.1 (Nat.le_of_succ_le_succ hn)
      exact readsArgument_equation hg.2 fun d ds hd =>
        h.expression hg.1 (ends_ofChar (Or.inl rfl) _ _ _) hd

end

/-- **A written expression is read back**, if its nesting is within the limit. -/
theorem expression_row {levels : Nat} (hg : e.Grammatical v j) (hn : e.nesting < levels)
    {c : Cursor} {s : Bool} {rs : List Lexeme} (hends : Ends j 1 rs)
    (hc : c.lexemes = e.row s ++ rs) :
    ReadsTo (expression v levels j) c Expr.bare (e.foldSigns false).bare rs := by
  cases levels with
  | zero => exact absurd hn (Nat.not_lt_zero _)
  | succ levels => exact (readsAt_rank e hg (Nat.le_of_lt_succ hn)).expression hg hends hc

/-- **A written equation is read back.** -/
theorem equation_expression_row {eqn : Equation} {levels : Nat} (hg : eqn.Grammatical v)
    (hn : eqn.nesting < levels) {c : Cursor} {s : Bool} {rs : List Lexeme}
    (hcolon : eqn.uncertainty = none → Lexeme.kind? rs ≠ some (.mark .colon))
    (hc : c.lexemes = eqn.row s ++ rs) :
    ReadsTo (equation (expression v levels true) eqn.op) c Equation.bare eqn.foldSigns.bare rs := by
  obtain ⟨op, body, estimate⟩ := eqn
  exact equation_row hg.2
    (fun d ds hd => expression_row hg.1 hn (ends_ofChar (Or.inl rfl) _ _ _) hd) hc hcolon

end Parser

end ControlFile
