import ControlFile.Proofs.Expr.Sound
import ControlFile.Proofs.Expr.Symbols
import ControlFile.Proofs.Expr.Consumption

/-!
# Expressions are the precedence trees of their tokens

The symbols of an expression that is read are those of the tokens that are consumed: nothing is
added, lost or put elsewhere (`shows_expression`).  A name at the end of an argument is known to be
the name of no call only from the token behind it; what the parsers of arguments show is therefore
said under the condition that no call opens there.

`Expr.Grouped` says which operands an operation may have.  What is read is grammatical, and so it is
grouped (`Expr.Grammatical.grouped`).
-/

namespace ControlFile

/-! ### Groups -/

/-- The operands hold together well enough for the operation. -/
def BinaryOp.Fits : BinaryOp → Expr → Expr → Prop
  | .pow, lhs, rhs => 5 ≤ lhs.rank ∧ rhs.isExponent = true
  | .juxtaposed, lhs, rhs => 3 ≤ lhs.rank ∧ 5 ≤ rhs.rank
  | op, lhs, rhs => op.level ≤ lhs.rank ∧ op.level + 1 ≤ rhs.rank

mutual

/-- All operations in the expression have operands that hold together well enough. -/
def Expr.Grouped : Expr → Prop
  | .literal _ | .ident _ => True
  | .call _ arguments _ => Argument.AllGrouped arguments
  | .unary _ operand => 5 ≤ operand.rank ∧ operand.Grouped
  | .binary op lhs rhs => op.Fits lhs rhs ∧ lhs.Grouped ∧ rhs.Grouped
  | .paren inner => inner.Grouped

def Argument.AllGrouped : List Argument → Prop
  | [] => True
  | a :: as => a.Grouped ∧ Argument.AllGrouped as

def Argument.Grouped : Argument → Prop
  | .hole => True
  | .parameter param => param.Grouped
  | .expr expr => expr.Grouped
  | .equation equation => equation.Grouped

def Parameter.Grouped : Parameter → Prop
  | ⟨_, _, value⟩ => value.Grouped

def Value.Grouped : Value → Prop
  | .absent | .literal _ => True
  | .equation equation => equation.Grouped

def Equation.Grouped : Equation → Prop
  | ⟨_, body, _⟩ => body.Grouped

end

theorem BinaryOp.Groups.fits {juxtapose : Bool} {op : BinaryOp} {lhs rhs : Expr}
    (h : op.Groups juxtapose lhs rhs) : op.Fits lhs rhs := by
  cases op with
  | pow => exact ⟨h.1, h.2.2⟩
  | juxtaposed => exact ⟨h.2.1, h.2.2.1⟩
  | _ => exact h

/-- A marked place in an argument has nothing in it that could be grouped. -/
theorem Parameter.IsMarked.grouped {v : Vocabulary} {p : Parameter} (h : p.IsMarked v) :
    p.Grouped := by
  obtain ⟨refinement, name, value⟩ := p
  rw [Parameter.Grouped]
  cases value with
  | absent => trivial
  | literal value => trivial
  | equation q => exact h.2.2.elim

mutual

/-- The grammar groups. -/
theorem Expr.Grammatical.grouped {v : Vocabulary} {juxtapose : Bool} :
    {e : Expr} → e.Grammatical v juxtapose → e.Grouped
  | .literal _, _ => trivial
  | .ident _, _ => trivial
  | .call .., h => Argument.allGrouped h.2.2
  | .unary .., h => ⟨h.1, h.2.grouped⟩
  | .binary .., h => ⟨h.1.fits, h.2.1.grouped, h.2.2.grouped⟩
  | .paren inner, h => Expr.Grammatical.grouped (e := inner) h

theorem Argument.allGrouped {v : Vocabulary} :
    {as : List Argument} → Argument.AllGrammatical v as → Argument.AllGrouped as
  | [], _ => trivial
  | _ :: _, h => ⟨h.1.grouped, Argument.allGrouped h.2⟩

theorem Argument.Grammatical.grouped {v : Vocabulary} :
    {a : Argument} → a.Grammatical v → a.Grouped
  | .hole, _ => trivial
  | .parameter _, h => Parameter.IsMarked.grouped h
  | .expr expr, h => Expr.Grammatical.grouped (e := expr) h
  | .equation equation, h => Equation.Grammatical.grouped (q := equation) h

theorem Equation.Grammatical.grouped {v : Vocabulary} :
    {q : Equation} → q.Grammatical v → q.Grouped
  | ⟨_, body, _⟩, h => Expr.Grammatical.grouped (e := body) h.1

end

namespace Parser

variable {v : Vocabulary} {inner : Parser Expr} {c : Cursor}

/-! ### Literals and names -/

theorem exists_of_literal {negative : Bool} {value : Literal} {c' : Cursor}
    (h : literal negative c = .ok value c') :
    ∃ t ts, c.rest = t :: ts ∧ t.literal negative = .ok value ∧ c' = c.advance := by
  unfold literal at h
  split at h
  · rename_i t ts hrest
    split at h
    · rename_i hvalue
      cases h
      exact ⟨t, ts, hrest, hvalue, rfl⟩
    · cases h
  · cases h

theorem exists_of_isAtMinusNumber (h : c.isAtMinusNumber = true) :
    ∃ minus t ts, c.rest = minus :: t :: ts ∧ minus.kind = .operator .sub ∧
      t.kind.isNumber = true ∧ t.spaced = false := by
  obtain ⟨rest, lastEnd, textEnd⟩ := c
  match rest with
  | [] => simp [Cursor.isAtMinusNumber, Cursor.isAt, Cursor.kind?, Cursor.peek?] at h
  | [minus] => simp [Cursor.isAtMinusNumber, Cursor.peekKind?, Cursor.peek?] at h
  | minus :: t :: ts =>
    simp [Cursor.isAtMinusNumber, Cursor.isAt, Cursor.kind?, Cursor.peekKind?, Cursor.isSpaced,
      Cursor.peek?] at h
    exact ⟨minus, t, ts, rfl, h.1.1, h.1.2, h.2⟩

theorem opensCall_of_kind? {k : TokenKind} (h : c.kind? = some k) (hk : k ≠ .mark .openParen) :
    Token.opensCall c.rest = false := by
  obtain ⟨t, ts, hrest, rfl⟩ := Cursor.exists_cons h
  rw [hrest, Token.opensCall]
  simp [hk]

theorem shows_literal :
    Ensures (literal false) c fun value c' => c.Shows [.literal value] c' := by
  intro value c' h
  obtain ⟨t, ts, hrest, hvalue, rfl⟩ := exists_of_literal h
  exact Cursor.shows_advance hrest (.literal hvalue)

/-- A number with its minus. -/
theorem shows_negative (h : c.isAtMinusNumber = true) :
    Ensures (literal true) c.advance fun value c' => c.Shows [.literal value] c' := by
  intro value c' hrun
  obtain ⟨minus, t, ts, hrest, hminus, hnumber, htouches⟩ := exists_of_isAtMinusNumber h
  obtain ⟨u, us, hrest', hvalue, rfl⟩ := exists_of_literal hrun
  have hmoves := (Cursor.Moves.advance hrest).trans (.advance hrest')
  rw [Cursor.rest_advance hrest] at hrest'
  obtain ⟨rfl, rfl⟩ := List.cons.inj hrest'
  exact ⟨_, hmoves, .single (.negative hminus hnumber htouches hvalue)⟩

theorem isAtMinusNumber_of_isAtNegativeLiteral (h : c.isAtNegativeLiteral = true) :
    c.isAtMinusNumber = true := by
  unfold Cursor.isAtNegativeLiteral at h
  rw [Bool.and_eq_true] at h
  exact h.1

theorem shows_signedLiteral? : Ensures signedLiteral? c fun o c' =>
    c.Shows (o.map Symbol.literal).toList c' ∧
      (Token.opensCall c'.rest = false → Token.opensCall c.rest = false) := by
  refine .get_bind ?_
  by_cases hminus : c.isAtMinusNumber = true
  · rw [if_pos hminus]
    refine .advance_bind (.bind ((shows_negative hminus).mono fun value c' h => .pure ⟨h, fun _ => ?_⟩))
    exact opensCall_of_kind? (kind?_of_isAtMinusNumber hminus) (by simp)
  · rw [if_neg hminus]
    by_cases hliteral : (c.kind?.map TokenKind.isLiteral).getD false = true
    · rw [if_pos hliteral]
      refine .bind (shows_literal.mono fun value c' h => .pure ⟨h, fun _ => ?_⟩)
      cases hk : c.kind? with
      | none => rw [hk] at hliteral; cases hliteral
      | some k =>
        refine opensCall_of_kind? hk ?_
        rintro rfl
        rw [hk] at hliteral
        cases hliteral
    · rw [if_neg hliteral]
      exact .pure ⟨.refl c, id⟩

theorem shows_takeIf {kind : TokenKind} : Ensures (takeIf kind) c fun b c' =>
    if b then c.Shows [.fixed kind] c' else c' = c :=
  Ensures.takeIf (fun h => Cursor.shows_fixed (Cursor.kind?_eq c ▸ h)) fun _ => rfl

theorem shows_expect {kind : TokenKind} {what : Expected} :
    Ensures (expect kind what) c fun _ c' => c.Shows [.fixed kind] c' :=
  Ensures.expect fun h => Cursor.shows_fixed (Cursor.kind?_eq c ▸ h)

theorem shows_sign {op : UnaryOp} (h : c.sign? = some op) : c.Shows [op.token] c.advance := by
  unfold Cursor.sign? at h
  split at h <;> cases h
  · exact Cursor.shows_fixed ‹_›
  · exact Cursor.shows_fixed ‹_›

theorem shows_refinement : Ensures refinement c fun r c' => c.Shows r.symbols c' := by
  refine .bind (shows_takeIf.mono fun b c' h => ?_)
  cases b with
  | true => exact .pure h
  | false =>
    obtain rfl := h
    refine .bind (shows_takeIf.mono fun b c'' h => ?_)
    cases b with
    | true => exact .pure h
    | false =>
      obtain rfl := h
      exact .pure (.refl _)

/-- A name that is taken is the name of no call, unless a parenthesis touches it. -/
theorem shows_parameterName? : Ensures (parameterName? v) c fun name c' =>
    Token.opensCall c'.rest = false → c.Shows (name.map Symbol.name).toList c' := by
  refine .get_bind ?_
  by_cases hname : c.isAtParameterName v = true
  · rw [if_pos hname]
    unfold Cursor.isAtParameterName at hname
    cases ht : c.peek? 0 with
    | none => rw [ht] at hname; cases hname
    | some t =>
      obtain ⟨ts, hrest⟩ := Cursor.peek?_eq_some ht
      rw [ht] at hname
      refine .bind fun text c' h => .pure fun hloose => ?_
      rw [takeText, ht] at h
      cases h
      rw [Cursor.rest_advance hrest] at hloose
      refine Cursor.shows_advance hrest ?_
      dsimp only at hname
      split at hname
      · exact .name ‹_› hloose
      · exact .unique ‹_› (.inr rfl)
      · cases hname
  · rw [if_neg hname]
    exact .pure fun _ => .refl c

theorem shows_literalValue : Ensures literalValue c fun value c' => c.Shows value.symbols c' ∧
    (Token.opensCall c'.rest = false → Token.opensCall c.rest = false) := by
  refine .bind (shows_signedLiteral?.mono fun o c' h => ?_)
  cases o with
  | some value => exact .pure h
  | none => exact .pure h

theorem shows_markedParameter : Ensures (markedParameter v) c fun p c' =>
    Token.opensCall c'.rest = false → c.Shows p.symbols c' := by
  refine .bind (shows_refinement.mono fun _ _ hmark => ?_)
  refine .bind (shows_parameterName?.mono fun _ _ hname => ?_)
  refine .bind (shows_literalValue.mono fun _ _ hvalue => ?_)
  exact .pure fun hloose => (hmark.trans (hname (hvalue.2 hloose))).trans hvalue.1

theorem shows_uncertainty : Ensures uncertainty c fun u c' =>
    Token.opensCall c'.rest = false → c.Shows u.symbols c' := by
  refine .get_bind ?_
  by_cases hident : c.isAt .ident = true
  · rw [if_pos hident]
    obtain ⟨t, ts, hrest, hkind⟩ := Cursor.exists_cons (Cursor.isAt_iff.1 hident)
    refine .bind fun text c' h => .pure fun hloose => ?_
    rw [takeText, Cursor.peek?, hrest] at h
    cases h
    rw [Cursor.rest_advance hrest] at hloose
    exact Cursor.shows_advance hrest (.name hkind hloose)
  · rw [if_neg hident]
    refine .bind (shows_signedLiteral?.mono fun o c' h => ?_)
    rcases o with - | (n | x | text)
    · exact .fail _ _
    · exact .pure fun _ => h.1
    · exact .pure fun _ => h.1
    · exact .fail _ _

/-! ### Arguments and operands -/

section Nested

variable (hinner : ∀ c, Ensures inner c fun e c' => c.Shows e.symbols c')
include hinner

theorem shows_equation {op : AssignOp} (hk : c.kind? = some (.assign op)) :
    Ensures (equation inner op) c fun q c' =>
      Token.opensCall c'.rest = false → c.Shows q.symbols c' := by
  refine .advance_bind (.bind ((hinner _).mono fun body c₁ hbody => ?_))
  refine .bind (shows_expect.mono fun _ c₂ hend => ?_)
  refine .bind (shows_takeIf.mono fun b c₃ hcolon => ?_)
  have hstart := ((Cursor.shows_fixed hk).cons hbody).trans hend
  cases b with
  | true =>
    refine .bind (shows_uncertainty.mono fun u c' hu => .pure fun hloose => ?_)
    have h := hstart.trans (hcolon.cons (hu hloose))
    rwa [List.append_assoc] at h
  | false =>
    obtain rfl := hcolon
    exact .pure fun _ => hstart

theorem shows_argument : Ensures (argument v inner) c fun a c' =>
    Token.opensCall c'.rest = false → c.Shows a.symbols c' := by
  have hexpr : ∀ k : TokenKind, Ensures
      (if k.startsExpression = true then (do return .expr (← inner))
        else fail (.invalidArgument c.found) : Parser Argument) c fun a c' =>
          Token.opensCall c'.rest = false → c.Shows a.symbols c' := by
    intro k
    split
    · exact .bind ((hinner c).mono fun e c' h => .pure fun _ => h)
    · exact .fail _ _
  refine .get_bind ?_
  cases hk : c.kind? with
  | none => exact .fail _ _
  | some k =>
    cases k with
    | mark m =>
      cases m with
      | comma => exact .pure fun _ => .refl c
      | closeParen => exact .pure fun _ => .refl c
      | atSign => exact .bind (shows_markedParameter.mono fun p c' h => .pure h)
      | bang => exact .bind (shows_markedParameter.mono fun p c' h => .pure h)
      | _ => exact hexpr _
    | assign op => exact .bind ((shows_equation hinner hk).mono fun q c' h => .pure h)
    | _ => exact hexpr _

/-- Each argument takes a token, so there is room for all of them. -/
theorem shows_arguments (limit : Nat) (hlimit : c.rest.length < limit) :
    Ensures (arguments v inner limit) c fun as c' =>
      as ≠ [] ∧ c.Shows (Argument.symbolsAll as ++ [.closing c'.lastEnd]) c' := by
  induction limit generalizing c with
  | zero => exact absurd hlimit (Nat.not_lt_zero _)
  | succ limit ih =>
    refine .bind ((shows_argument hinner).mono fun a c₁ ha => ?_)
    refine .bind (.takeIf (fun hk => ?_) fun _ => ?_)
    · rw [← Cursor.kind?_eq] at hk
      have ha := ha (opensCall_of_kind? hk (by simp))
      have hcomma := Cursor.shows_fixed hk
      have hshorter : c₁.advance.rest.length < limit := by
        obtain ⟨ts, hmoves, -⟩ := ha
        obtain ⟨t, us, hrest, -⟩ := Cursor.exists_cons hk
        have := hmoves.length_rest
        rw [Cursor.rest_advance hrest]
        rw [hrest, List.length_cons] at this
        omega
      refine .bind ((ih hshorter).mono fun as c' h => .pure ⟨List.cons_ne_nil _ _, ?_⟩)
      rw [Argument.symbolsAll_cons h.1, List.append_assoc]
      exact ha.trans (hcomma.cons h.2)
    · refine .bind (.expect fun hk => .pure ⟨List.cons_ne_nil _ _, ?_⟩)
      rw [← Cursor.kind?_eq] at hk
      exact (ha (opensCall_of_kind? hk (by simp))).trans (Cursor.shows_closing hk)

theorem shows_call {name : String} {start : Nat} (hk : c.kind? = some (.mark .openParen)) :
    Ensures (call v inner name start) c fun e c' =>
      ∃ ss, e.symbols = .callee name start :: ss ∧ c.Shows ss c' := by
  have hopen := Cursor.shows_fixed hk
  refine .advance_bind (.bind (.takeIf (fun hclose => ?_) fun _ => ?_))
  · rw [← Cursor.kind?_eq] at hclose
    exact .bind (.pure (.get_bind (.pure ⟨_, rfl, hopen.cons (Cursor.shows_closing hclose)⟩)))
  · refine .get_bind (.bind ((shows_arguments hinner _ (Nat.lt_succ_self _)).mono fun as c' has => ?_))
    exact .get_bind (.pure ⟨_, rfl, hopen.cons has.2⟩)

theorem shows_primary : Ensures (primary v inner) c fun e c' => c.Shows e.symbols c' := by
  have hliteral : Ensures (do return .literal (← literal false) : Parser Expr) c fun e c' =>
      c.Shows e.symbols c' := .bind (shows_literal.mono fun value c' h => .pure h)
  refine .get_bind ?_
  cases ht : c.peek? 0 with
  | none => exact .failExpected _ _
  | some t =>
    obtain ⟨ts, hrest⟩ := Cursor.peek?_eq_some ht
    have hkind : c.kind? = some t.kind := Cursor.kind?_cons hrest
    have hcall := Cursor.isAtCall_eq_opensCall hrest
    dsimp only
    split
    · exact hliteral
    · exact hliteral
    · exact hliteral
    · rename_i hk
      refine .advance_bind ?_
      rw [hcall]
      by_cases hopens : Token.opensCall ts = true
      · have hparen : c.advance.kind? = some (.mark .openParen) := by
          rw [hopens, Cursor.isAtCall, Bool.and_eq_true, beq_iff_eq] at hcall
          rw [Cursor.kind?_advance, hcall.1]
        rw [if_pos hopens]
        refine (shows_call hinner hparen).mono fun e c' h => ?_
        obtain ⟨ss, hss, h⟩ := h
        rw [hss]
        exact (Cursor.shows_advance hrest (.callee hk hopens)).cons h
      · rw [if_neg hopens]
        exact .pure (Cursor.shows_advance hrest (.name hk (by simpa using hopens)))
    · rename_i hk
      exact .advance_bind (.pure (Cursor.shows_advance hrest (.unique hk (.inl rfl))))
    · rename_i hk
      rw [hk] at hkind
      refine .advance_bind (.bind ((hinner _).mono fun e c₁ h => ?_))
      refine .bind (shows_expect.mono fun _ c' hclose => .pure ?_)
      exact (Cursor.shows_fixed hkind).cons (h.trans hclose)
    · exact .failExpected _ _

/-! ### Operations -/

theorem shows_exponent : Ensures (exponent v inner) c fun e c' => c.Shows e.symbols c' := by
  refine .get_bind ?_
  by_cases hminus : c.isAtNegativeLiteral = true
  · rw [if_pos hminus]
    exact .advance_bind (.bind ((shows_negative (isAtMinusNumber_of_isAtNegativeLiteral hminus)).mono
      fun value c' h => .pure h))
  · rw [if_neg hminus]
    cases hs : c.sign? with
    | none => exact shows_primary hinner
    | some op =>
      refine .advance_bind (.bind ((shows_primary hinner).mono fun e c' h => ?_))
      exact .pure ((shows_sign hs).cons h)

theorem shows_exponents (limit : Nat) {base : Expr} : Ensures (exponents v inner limit base) c
    fun e c' => ∃ ss, e.symbols = base.symbols ++ ss ∧ c.Shows ss c' := by
  induction limit generalizing base c with
  | zero => exact .pure ⟨[], (List.append_nil _).symm, .refl c⟩
  | succ limit ih =>
    refine .bind (shows_takeIf.mono fun b c₁ hpow => ?_)
    cases b with
    | false =>
      obtain rfl := hpow
      exact .pure ⟨[], (List.append_nil _).symm, .refl _⟩
    | true =>
      refine .bind ((shows_exponent hinner).mono fun e c₂ he => ?_)
      refine ih.mono fun f c' h => ?_
      obtain ⟨ss, hss, h⟩ := h
      refine ⟨_, ?_, (hpow.cons he).trans h⟩
      have hsymbols : BinaryOp.pow.symbols = [.fixed (.operator .pow)] := rfl
      simp [hss, Expr.symbols, hsymbols]

theorem shows_power : Ensures (power v inner) c fun e c' => c.Shows e.symbols c' := by
  refine .bind ((shows_primary hinner).mono fun base c₁ hbase => ?_)
  refine .get_bind ((shows_exponents hinner _).mono fun e c' h => ?_)
  obtain ⟨ss, hss, h⟩ := h
  rw [hss]
  exact hbase.trans h

theorem shows_signed : Ensures (signed v inner) c fun e c' => c.Shows e.symbols c' := by
  refine .get_bind ?_
  by_cases hminus : c.isAtNegativeLiteral = true
  · rw [if_pos hminus]
    exact .advance_bind (.bind ((shows_negative (isAtMinusNumber_of_isAtNegativeLiteral hminus)).mono
      fun value c' h => .pure h))
  · rw [if_neg hminus]
    cases hs : c.sign? with
    | none => exact shows_power hinner
    | some op =>
      refine .advance_bind (.bind ((shows_power hinner).mono fun e c' h => ?_))
      exact .pure ((shows_sign hs).cons h)

end Nested

/-- An operation that is written is the operator at the cursor. -/
theorem symbols_of_operation? {juxtapose : Bool} {op : BinaryOp}
    (h : operation? juxtapose c = some op) (hop : op ≠ .juxtaposed) :
    c.kind? = some (.operator op) ∧ op.symbols = [.fixed (.operator op)] := by
  have hkind : c.kind? = some (.operator op) := by
    unfold operation? at h
    split at h
    · cases h
    · cases h
    · rename_i hk
      split at h
      · cases h
      · cases h
        exact hk
    · rename_i hk
      cases h
      exact hk
    · split at h
      · exact absurd (Option.some.inj h).symm hop
      · cases h
    · cases h
  refine ⟨hkind, ?_⟩
  cases op <;> first | rfl | exact absurd rfl hop

theorem shows_skipSymbol {juxtapose : Bool} {op : BinaryOp} (h : operation? juxtapose c = some op) :
    Ensures (skipSymbol op) c fun _ c' => c.Shows op.symbols c' := by
  unfold skipSymbol
  by_cases hop : op = .juxtaposed
  · subst hop
    exact .pure (.refl c)
  · obtain ⟨hkind, hsymbols⟩ := symbols_of_operation? h hop
    rw [if_neg hop, hsymbols]
    intro _ _ h
    cases h
    exact Cursor.shows_fixed hkind

section Levels

variable {operand : Parser Expr} (hoperand : ∀ c, Ensures operand c fun e c' => c.Shows e.symbols c')
include hoperand

theorem shows_operations (juxtapose : Bool) (level limit : Nat) {lhs : Expr} :
    Ensures (operations juxtapose level operand limit lhs) c fun e c' =>
      ∃ ss, e.symbols = lhs.symbols ++ ss ∧ c.Shows ss c' := by
  have hstop : ∀ {c : Cursor} {lhs : Expr}, Ensures (pure lhs : Parser Expr) c fun e c' =>
      ∃ ss, e.symbols = lhs.symbols ++ ss ∧ c.Shows ss c' :=
    fun {c lhs} => .pure ⟨[], (List.append_nil _).symm, .refl c⟩
  induction limit generalizing lhs c with
  | zero => exact hstop
  | succ limit ih =>
    refine .get_bind ?_
    cases hop : operation? juxtapose c with
    | none => exact hstop
    | some op =>
      dsimp only
      split
      · refine .bind ((shows_skipSymbol hop).mono fun _ c₁ hsymbol => ?_)
        refine .bind ((hoperand c₁).mono fun rhs c₂ hrhs => ?_)
        refine ih.mono fun e c' h => ?_
        obtain ⟨ss, hss, h⟩ := h
        refine ⟨_, ?_, (hsymbol.trans hrhs).trans h⟩
        rw [hss, Expr.symbols]
        simp
      · exact hstop

theorem shows_grouped (juxtapose : Bool) (level : Nat) (c : Cursor) :
    Ensures (grouped juxtapose level operand) c fun e c' => c.Shows e.symbols c' := by
  refine .bind ((hoperand c).mono fun lhs c₁ hlhs => ?_)
  refine .get_bind ((shows_operations hoperand juxtapose level _).mono fun e c' h => ?_)
  obtain ⟨ss, hss, h⟩ := h
  rw [hss]
  exact hlhs.trans h

end Levels

/-- **Nothing is added, lost or put elsewhere.** -/
theorem shows_expression (levels : Nat) (juxtapose : Bool) (c : Cursor) :
    Ensures (expression v levels juxtapose) c fun e c' => c.Shows e.symbols c' := by
  induction levels generalizing juxtapose c with
  | zero => exact .fail _ _
  | succ levels ih =>
    exact shows_grouped (shows_grouped (shows_grouped (fun _ => shows_signed (ih true)) juxtapose 3)
      juxtapose 2) juxtapose 1 c

end Parser

/-- **An expression is the precedence tree of the tokens that are consumed.**  Its symbols are theirs,
and its operations have operands of the levels that they ask for. -/
theorem Parser.expression_precedence {v : Vocabulary} {levels : Nat} {juxtapose : Bool}
    {c c' : Cursor} {e : Expr} (h : expression v levels juxtapose c = .ok e c') :
    c.Shows e.symbols c' ∧ (c.Genuine → e.Grouped) :=
  ⟨shows_expression levels juxtapose c e c' h,
    fun hc => (ensures_expression hc levels e c' h).1.grammatical.grouped⟩

/-- A call, a factor that is no call, and a power of what is in parentheses. -/
theorem Parser.expression_precedence_product :
    let c : Cursor := ⟨(TokenStream.ofText "f(x) g (-1)^2").tokens, 0, 13⟩
    let c' : Cursor := ⟨[], 13, 13⟩
    let call : Expr := .call "f" [.expr (.ident "x")] ⟨0, 4⟩
    let power : Expr := .binary .pow (.paren (.literal (.integer (-1)))) (.literal (.integer 2))
    let e : Expr := .binary .juxtaposed (.binary .juxtaposed call (.ident "g")) power
    expression default 2 true c = .ok e c' ∧ c.Shows e.symbols c' ∧ e.Grouped := by
  intro c c' call power e
  have htokens : (TokenStream.ofText "f(x) g (-1)^2").tokens =
      [⟨.ident, "f", ⟨0, 1⟩, true⟩, ⟨.mark .openParen, "(", ⟨1, 2⟩, false⟩,
       ⟨.ident, "x", ⟨2, 3⟩, false⟩, ⟨.mark .closeParen, ")", ⟨3, 4⟩, false⟩,
       ⟨.ident, "g", ⟨5, 6⟩, true⟩, ⟨.mark .openParen, "(", ⟨7, 8⟩, true⟩,
       ⟨.operator .sub, "-", ⟨8, 9⟩, false⟩, ⟨.integer, "1", ⟨9, 10⟩, false⟩,
       ⟨.mark .closeParen, ")", ⟨10, 11⟩, false⟩, ⟨.operator .pow, "^", ⟨11, 12⟩, false⟩,
       ⟨.integer, "2", ⟨12, 13⟩, false⟩] := by decide +kernel
  have hrun : expression default 2 true c = .ok e c' := by
    simp only [c, htokens]
    rfl
  obtain ⟨hshows, hgrouped⟩ := expression_precedence hrun
  exact ⟨hrun, hshows, hgrouped (Cursor.genuine_ofText _ _ _)⟩

end ControlFile
