import ControlFile.Proofs.Macro.Unmarked
import ControlFile.Proofs.Token.Consumption

/-!
# What the parsers of expressions consume

No parser of expressions consumes a word of a conditional or what is confined to the bodies of
macros, all of them fail inside the text, and without the unique mark among the tokens there is none
in the expression (`reads_expression`).
-/

namespace ControlFile.Parser

variable {L : Nat} {c : Cursor}

/-! ### Literals and values -/

/-- Only a literal stands for a literal. -/
theorem isLiteral_of_literal {t : Token} {negative : Bool} {value : Literal}
    (h : t.literal negative = .ok value) : t.kind.isLiteral = true := by
  unfold Token.literal at h
  split at h <;> simp_all [TokenKind.isLiteral]

theorem isPlain_of_isLiteral {k : TokenKind} (h : k.isLiteral = true) : k.isPlain = true := by
  cases k <;> first | rfl | cases h

theorem reads_literal (negative : Bool) :
    Reads L (literal negative) c (Plain 1 fun _ => True) := by
  cases hrest : c.rest with
  | nil =>
    refine .of_error (d := ⟨.expected .expression c.found, c.here⟩) ?_ fun hc => hc.here
    rw [literal, hrest]
    rfl
  | cons t ts =>
    cases hvalue : t.literal negative with
    | error fault =>
      refine .of_error (d := ⟨fault, t.range⟩) ?_ fun hc => ?_
      · rw [literal, hrest]
        simp only [hvalue]
      · exact hc.tokens.inside t (by simp [hrest])
    | ok value =>
      refine .of_ok (a := value) ?_ (.advance hrest) ⟨Nat.le_refl _, ?_, fun _ => trivial⟩
      · rw [literal, hrest]
        simp only [hvalue]
      · exact List.forall_mem_singleton.2 (isPlain_of_isLiteral (isLiteral_of_literal hvalue))

theorem kind?_of_isAtMinusNumber (h : c.isAtMinusNumber = true) :
    c.kind? = some (.operator .sub) := by
  unfold Cursor.isAtMinusNumber at h
  simp only [Bool.and_eq_true] at h
  exact Cursor.isAt_iff.1 h.1.1

theorem kind?_of_isAtNegativeLiteral (h : c.isAtNegativeLiteral = true) :
    c.kind? = some (.operator .sub) := by
  unfold Cursor.isAtNegativeLiteral at h
  simp only [Bool.and_eq_true] at h
  exact kind?_of_isAtMinusNumber h.1

theorem reads_signedLiteral? : Reads L signedLiteral? c (Plain 0 fun _ => True) := by
  refine .get_bind (.ite (fun hminus => ?_) fun _ => .ite (fun _ => ?_) fun _ => .pure trivial)
  · refine (Reads.advance_bind (kind?_of_isAtMinusNumber hminus) rfl ?_).weaken
    exact (reads_literal true).weaken.andThen fun _ _ => .pure fun _ => trivial
  · exact (reads_literal false).weaken.andThen fun _ _ => .pure fun _ => trivial

theorem reads_refinement : Reads L refinement c (Plain 0 fun _ => True) := by
  refine .andThen (.takeIf rfl) fun _ _ => ?_
  refine .ite (fun _ => .pure fun _ => trivial) fun _ => ?_
  refine .andThen (.takeIf rfl) fun _ _ => ?_
  refine .ite (fun _ => .pure fun _ _ => trivial) fun _ => ?_
  exact .pure fun _ _ => trivial

/-- A mark at the cursor is consumed. -/
theorem reads_refinement_mark (hk : c.kind? = some (.mark .atSign) ∨ c.kind? = some (.mark .bang)) :
    Reads L refinement c (Plain 1 fun _ => True) := by
  intro hc
  rcases hk with hk | hk
  · have hrun : refinement c = .ok .refined c.advance := by
      change (takeIf _ >>= _) c = _
      rw [bind_of_ok (show takeIf (.mark .atSign) c = .ok true c.advance from
        by rw [takeIf, if_pos (Cursor.isAt_iff.2 hk)])]
      rfl
    obtain ⟨ts, hts, hq⟩ := Reads.advance (L := L) (K := TokenKind.isPlain) hk rfl hc
    rw [hrun]
    exact ⟨ts, hts, hq.length, hq.kinds, fun _ => trivial⟩
  · have hrun : refinement c = .ok .unrefined c.advance := by
      change (takeIf _ >>= _) c = _
      rw [bind_of_ok (show takeIf (.mark .atSign) c = .ok false c from
        by rw [takeIf, if_neg (by simp [Cursor.isAt, hk])])]
      change (takeIf _ >>= _) c = _
      rw [bind_of_ok (show takeIf (.mark .bang) c = .ok true c.advance from
        by rw [takeIf, if_pos (Cursor.isAt_iff.2 hk)])]
      rfl
    obtain ⟨ts, hts, hq⟩ := Reads.advance (L := L) (K := TokenKind.isPlain) hk rfl hc
    rw [hrun]
    exact ⟨ts, hts, hq.length, hq.kinds, fun _ => trivial⟩

theorem reads_parameterName? (v : Vocabulary) :
    Reads L (parameterName? v) c (Plain 0 fun n => n ≠ some uniqueMark) := by
  refine .get_bind (.ite (fun hname => ?_) fun _ => .pure (by simp))
  obtain ⟨k, hk, hname⟩ : ∃ k, c.kind? = some k ∧ (k = .ident ∨ k = .directive .unique) := by
    unfold Cursor.isAtParameterName at hname
    split at hname
    · rename_i t ht
      refine ⟨t.kind, by rw [Cursor.kind?, ht]; rfl, ?_⟩
      split at hname <;> simp_all
    · cases hname
  have hw : k.isPlain = true := by rcases hname with rfl | rfl <;> rfl
  refine (Reads.takeText hk hw).weaken.andThen fun text _ => .pure fun htext => ?_
  have hne := htext (by rcases hname with rfl | rfl <;> simp [TokenKind.isDirective])
  exact fun h => hne (Option.some.inj h)

theorem reads_literalValue : Reads L literalValue c (Plain 0 Value.Unmarked) := by
  refine reads_signedLiteral?.andThen fun value _ => ?_
  cases value with
  | some value => exact .pure fun _ => Value.unmarked_literal value
  | none => exact .pure fun _ => Value.unmarked_absent

theorem reads_markedParameter (v : Vocabulary) :
    Reads L (markedParameter v) c (Plain 0 Parameter.Unmarked) := by
  refine reads_refinement.andThen fun mark _ => ?_
  refine (reads_parameterName? v).andThen fun _ _ => ?_
  refine reads_literalValue.andThen fun _ _ => ?_
  exact .pure fun hvalue hname _ => Parameter.unmarked hname hvalue mark

theorem reads_markedParameter_mark (v : Vocabulary)
    (hk : c.kind? = some (.mark .atSign) ∨ c.kind? = some (.mark .bang)) :
    Reads L (markedParameter v) c (Plain 1 Parameter.Unmarked) := by
  refine (reads_refinement_mark hk).andThen fun mark _ => ?_
  refine (reads_parameterName? v).andThen fun _ _ => ?_
  refine reads_literalValue.andThen fun _ _ => ?_
  exact .pure fun hvalue hname _ => Parameter.unmarked hname hvalue mark

theorem reads_uncertainty : Reads L uncertainty c (Plain 0 Uncertainty.Unmarked) := by
  refine .get_bind (.ite (fun hident => ?_) fun _ => ?_)
  · refine (Reads.takeText (Cursor.isAt_iff.1 hident) rfl).weaken.andThen fun text _ => .pure fun h => ?_
    exact Uncertainty.unmarked_name (h (Or.inl rfl))
  · refine reads_signedLiteral?.andThen fun value _ => ?_
    rcases value with - | (n | x | text)
    · exact .fail _
    · exact .pure fun _ => Uncertainty.unmarked_literal _
    · exact .pure fun _ => Uncertainty.unmarked_literal _
    · exact .fail _

theorem operator_of_sign? {op : UnaryOp} (h : c.sign? = some op) :
    ∃ op', c.kind? = some (.operator op') := by
  unfold Cursor.sign? at h
  split at h
  · exact ⟨_, ‹_›⟩
  · exact ⟨_, ‹_›⟩
  · cases h

/-! ### Arguments and operands -/

section Nested

variable {inner : Parser Expr} (hinner : ∀ c, Reads L inner c (Plain 1 Expr.Unmarked))
include hinner

theorem reads_equation {op op' : AssignOp} (hk : c.kind? = some (.assign op')) :
    Reads L (equation inner op) c (Plain 1 Equation.Unmarked) := by
  refine .advance_bind hk rfl ((hinner _).weaken.andThen fun body _ => ?_)
  refine (Reads.expect rfl _).weaken.andThen fun _ _ => (Reads.takeIf rfl).andThen fun colon _ => ?_
  refine .ite (fun _ => ?_) fun _ => .pure fun _ _ hbody => Equation.unmarked hbody (by simp) op
  refine reads_uncertainty.andThen fun u _ => .pure fun hu _ _ hbody => ?_
  refine Equation.unmarked hbody ?_ op
  rintro v hv
  cases hv
  exact hu

theorem reads_argument (v : Vocabulary) :
    Reads L (argument v inner) c (Plain 0 Argument.Unmarked) := by
  refine .get_bind ?_
  cases hk : c.kind? with
  | none => exact .fail _
  | some k =>
    have hexpr : Reads L
        (if k.startsExpression = true then (do return .expr (← inner))
          else fail (.invalidArgument c.found)) c (Plain 0 Argument.Unmarked) :=
      .ite (fun _ => (hinner c).weaken.andThen fun _ _ => .pure Argument.unmarked_expr)
        fun _ => .fail _
    cases k with
    | mark m =>
      cases m with
      | comma => exact .pure Argument.unmarked_hole
      | closeParen => exact .pure Argument.unmarked_hole
      | atSign => exact (reads_markedParameter v).andThen fun _ _ => .pure Argument.unmarked_parameter
      | bang => exact (reads_markedParameter v).andThen fun _ _ => .pure Argument.unmarked_parameter
      | _ => exact hexpr
    | assign op =>
      exact (reads_equation hinner hk).weaken.andThen fun _ _ => .pure Argument.unmarked_equation
    | _ => exact hexpr

theorem reads_arguments (v : Vocabulary) (limit : Nat) (c : Cursor) :
    Reads L (arguments v inner limit) c (Plain 0 Argument.AllUnmarked) := by
  induction limit generalizing c with
  | zero => exact .pure Argument.allUnmarked_nil
  | succ limit ih =>
    refine (reads_argument hinner v).andThen fun a _ => ?_
    refine (Reads.takeIf rfl).andThen fun _ c' => ?_
    refine .ite (fun _ => ?_) fun _ => ?_
    · exact (ih c').andThen fun as _ => .pure fun has _ ha => Argument.allUnmarked_cons ha has
    · exact (Reads.expect rfl _).weaken.andThen fun _ _ =>
        .pure fun _ _ ha => Argument.allUnmarked_cons ha Argument.allUnmarked_nil

theorem reads_call (v : Vocabulary) {name : String} {start : Nat}
    (hk : c.kind? = some (.mark .openParen)) :
    Reads L (call v inner name start) c
      (Plain 1 fun e => name ≠ uniqueMark → e.Unmarked) := by
  have hcall : ∀ as c', Reads L
      (do return .call name as ⟨start, (← get).lastEnd⟩ : Parser Expr) c'
      (Plain 0 fun e => Argument.AllUnmarked as → name ≠ uniqueMark → e.Unmarked) := fun as c' =>
    .get_bind (.pure fun has hname => Expr.unmarked_call hname has _)
  refine .advance_bind hk rfl ((Reads.takeIf rfl).andThen fun closed c' => ?_)
  refine .ite (fun _ => ?_) fun _ => ?_
  · exact .pure_bind ((hcall [] c').mono fun e he _ => he Argument.allUnmarked_nil)
  · refine .get_bind ((reads_arguments hinner v _ c').andThen fun as c'' => ?_)
    exact (hcall as c'').mono fun e he has _ => he has

theorem reads_primary (v : Vocabulary) (c : Cursor) :
    Reads L (primary v inner) c (Plain 1 Expr.Unmarked) := by
  refine .get_bind ?_
  cases ht : c.peek? 0 with
  | none => exact .failExpected _
  | some t =>
    obtain ⟨ts, hrest⟩ := Cursor.peek?_eq_some ht
    have hkind : c.kind? = some t.kind := Cursor.kind?_cons hrest
    have hliteral : Reads L (do return .literal (← literal false) : Parser Expr) c
        (Plain 1 Expr.Unmarked) :=
      (reads_literal false).andThen fun value _ => .pure fun _ => Expr.unmarked_literal value
    dsimp only
    split
    · exact hliteral
    · exact hliteral
    · exact hliteral
    · rename_i hk
      have hw : t.kind.isPlain = true := by rw [hk]; rfl
      have hname : t.IsUnmarked → t.text ≠ uniqueMark := fun h =>
        (h.2 (by rw [hk]; rfl)).ne_uniqueMark
      refine .advance_token_bind hrest hw (.ite (fun hcall => ?_) fun _ => ?_)
      · refine ((reads_call hinner v ?_).weaken).mono fun e he ht => he (hname ht)
        unfold Cursor.isAtCall at hcall
        simp only [Bool.and_eq_true, beq_iff_eq] at hcall
        rw [Cursor.kind?_advance, hcall.1]
      · exact .pure fun ht => Expr.unmarked_ident (hname ht)
    · rename_i hk
      exact .advance_token_bind hrest (by rw [hk]; rfl) (.pure fun ht => absurd hk ht.1)
    · rename_i hk
      rw [hk] at hkind
      refine .advance_bind hkind rfl ((hinner _).weaken.andThen fun e _ => ?_)
      refine (Reads.expect rfl _).weaken.andThen fun _ _ => ?_
      exact .pure fun _ he => Expr.unmarked_paren he
    · exact .failExpected _

/-! ### Operations -/

theorem reads_exponent (v : Vocabulary) (c : Cursor) :
    Reads L (exponent v inner) c (Plain 1 Expr.Unmarked) := by
  refine .get_bind (.ite (fun hminus => ?_) fun _ => ?_)
  · refine .advance_bind (kind?_of_isAtNegativeLiteral hminus) rfl ((reads_literal true).weaken.andThen
      fun value _ => ?_)
    exact .pure fun _ => Expr.unmarked_literal value
  · cases hs : c.sign? with
    | none => exact reads_primary hinner v c
    | some op =>
      obtain ⟨op', hk⟩ := operator_of_sign? hs
      refine .advance_bind hk rfl ((reads_primary hinner v _).weaken.andThen fun e _ => ?_)
      exact .pure fun he => Expr.unmarked_unary he op

theorem reads_exponents (v : Vocabulary) (limit : Nat) {base : Expr} (c : Cursor) :
    Reads L (exponents v inner limit base) c (Plain 0 fun e => base.Unmarked → e.Unmarked) := by
  induction limit generalizing base c with
  | zero => exact .pure id
  | succ limit ih =>
    refine (Reads.takeIf rfl).andThen fun _ c' => .ite (fun _ => ?_) fun _ => .pure fun _ hbase => hbase
    refine (reads_exponent hinner v c').weaken.andThen fun e c'' => ?_
    refine (ih c'').mono fun f hf he _ hbase => ?_
    exact hf (Expr.unmarked_binary hbase he .pow)

theorem reads_power (v : Vocabulary) (c : Cursor) :
    Reads L (power v inner) c (Plain 1 Expr.Unmarked) :=
  (reads_primary hinner v c).andThen fun _ c' => .get_bind (reads_exponents hinner v _ c')

theorem reads_signed (v : Vocabulary) (c : Cursor) :
    Reads L (signed v inner) c (Plain 1 Expr.Unmarked) := by
  refine .get_bind (.ite (fun hminus => ?_) fun _ => ?_)
  · refine .advance_bind (kind?_of_isAtNegativeLiteral hminus) rfl ((reads_literal true).weaken.andThen
      fun value _ => ?_)
    exact .pure fun _ => Expr.unmarked_literal value
  · cases hs : c.sign? with
    | none => exact reads_power hinner v c
    | some op =>
      obtain ⟨op', hk⟩ := operator_of_sign? hs
      refine .advance_bind hk rfl ((reads_power hinner v _).weaken.andThen fun e _ => ?_)
      exact .pure fun he => Expr.unmarked_unary he op

end Nested

/-- An operation with a symbol is at its operator. -/
theorem operator_of_operation? {juxtapose : Bool} {op : BinaryOp}
    (h : operation? juxtapose c = some op) (hop : op ≠ .juxtaposed) :
    ∃ op', c.kind? = some (.operator op') := by
  unfold operation? at h
  split at h
  · cases h
  · cases h
  · exact ⟨_, ‹_›⟩
  · exact ⟨_, ‹_›⟩
  · split at h
    · exact absurd (Option.some.inj h).symm hop
    · cases h
  · cases h

theorem reads_skipSymbol {juxtapose : Bool} {op : BinaryOp} (h : operation? juxtapose c = some op) :
    Reads L (skipSymbol op) c (Plain 0 fun _ => True) := by
  unfold skipSymbol
  refine .ite (fun _ => .pure trivial) fun hop => ?_
  obtain ⟨op', hk⟩ := operator_of_operation? h hop
  exact (Reads.advance hk rfl).weaken

section Levels

variable {operand : Parser Expr} (hoperand : ∀ c, Reads L operand c (Plain 1 Expr.Unmarked))
include hoperand

theorem reads_operations (juxtapose : Bool) (level limit : Nat) {lhs : Expr} (c : Cursor) :
    Reads L (operations juxtapose level operand limit lhs) c
      (Plain 0 fun e => lhs.Unmarked → e.Unmarked) := by
  induction limit generalizing lhs c with
  | zero => exact .pure id
  | succ limit ih =>
    refine .get_bind ?_
    cases hop : operation? juxtapose c with
    | none => exact .pure id
    | some op =>
      refine .ite (fun _ => ?_) fun _ => .pure id
      refine (reads_skipSymbol hop).andThen fun _ c' => ?_
      refine (hoperand c').weaken.andThen fun rhs c'' => ?_
      refine (ih c'').mono fun e he hrhs _ hlhs => ?_
      exact he (Expr.unmarked_binary hlhs hrhs op)

theorem reads_grouped (juxtapose : Bool) (level : Nat) (c : Cursor) :
    Reads L (grouped juxtapose level operand) c (Plain 1 Expr.Unmarked) :=
  (hoperand c).andThen fun _ c' => .get_bind (reads_operations hoperand juxtapose level _ c')

end Levels

theorem reads_expression (v : Vocabulary) (levels : Nat) (juxtapose : Bool) (c : Cursor) :
    Reads L (expression v levels juxtapose) c (Plain 1 Expr.Unmarked) := by
  induction levels generalizing juxtapose c with
  | zero => exact .fail _
  | succ levels ih =>
    exact reads_grouped (reads_grouped (reads_grouped (reads_signed (ih true) v) juxtapose 3)
      juxtapose 2) juxtapose 1 c

end ControlFile.Parser
