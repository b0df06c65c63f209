import ControlFile.Proofs.Expr.Reading
import ControlFile.Proofs.Token.Genuine

/-!
# What is read is grammatical

Whatever the parser of expressions makes of the tokens of a text is a grammatical expression, nested
no deeper than the limit, and it stops where nothing goes on (`ensures_expression`).

Written again, the expression starts as it did in the text, as far as anything before it can tell:
`lead` is what can be told from the first tokens.  There is one exception.  A minus with space
behind it may touch a number when it is written (`Alike`).
-/

namespace ControlFile

/-! ### Cursors in a text -/

namespace Cursor

/-- Every lexeme ahead is a token by itself. -/
def Genuine (c : Cursor) : Prop := ∀ l ∈ c.lexemes, LexesAs l.kind l.text

/-- The second cursor is further on in the same text. -/
structure Passes (c c' : Cursor) : Prop where
  suffix : c'.lexemes <:+ c.lexemes
  shorter : c'.lexemes.length < c.lexemes.length

variable {c c' c'' : Cursor}

theorem Genuine.of_suffix (h : c.Genuine) (hs : c'.lexemes <:+ c.lexemes) : c'.Genuine :=
  fun l hl => h l (hs.subset hl)

/-- The tokens of every text are tokens by themselves. -/
theorem genuine_ofText (text : String) (lastEnd textEnd : Nat) :
    (⟨(TokenStream.ofText text).tokens, lastEnd, textEnd⟩ : Cursor).Genuine := by
  intro l hl
  obtain ⟨t, ht, rfl⟩ := List.mem_map.1 hl
  obtain ⟨hmem, hsignificant⟩ := List.mem_filter.1 ht
  exact lexesAs_of_mem_scan hmem hsignificant

theorem Passes.trans (h : c.Passes c') (h' : c'.Passes c'') : c.Passes c'' :=
  ⟨h'.suffix.trans h.suffix, Nat.lt_trans h'.shorter h.shorter⟩

theorem Passes.genuine (h : c.Passes c') (hg : c.Genuine) : c'.Genuine := hg.of_suffix h.suffix

theorem passes_advance {l : Lexeme} {ls : List Lexeme} (h : c.lexemes = l :: ls) :
    c.Passes c.advance := by
  have := lexemes_advance h
  refine ⟨?_, ?_⟩
  · rw [this, h]
    exact List.suffix_cons l ls
  · rw [this, h]
    exact Nat.lt_succ_self _

theorem exists_of_kind? {kind : TokenKind} (h : Lexeme.kind? c.lexemes = some kind) :
    ∃ text s ls, c.lexemes = ⟨kind, text, s⟩ :: ls := by
  match hc : c.lexemes with
  | [] => simp [hc] at h
  | l :: ls =>
    rw [hc, Lexeme.kind?_cons] at h
    cases h
    exact ⟨_, _, _, rfl⟩

end Cursor

/-! ### How a row starts -/

/-- What can be told from the first lexemes of a row. -/
inductive Lead
  | nothing
  | number
  | word (text : String) (call assigned : Bool)
  | other (kind : TokenKind)
deriving DecidableEq

/-- The directive that stands for all that may take its place.  The two that ask whether a symbol is
defined may, and so may those that end a branch of a conditional. -/
def DirectiveWord.leading : DirectiveWord → DirectiveWord
  | .ifndef => .ifdef
  | .chain _ .elseif => .chain .document .endif
  | .chain _ .otherwise => .chain .document .endif
  | .chain _ .endif => .chain .document .endif
  | d => d

namespace Lexeme

/-- At an assignment. -/
def startsAssign (ls : List Lexeme) : Bool := ((kind? ls).map TokenKind.isAssign).getD false

/-- The kind of a token that starts something. -/
def leading : TokenKind → TokenKind
  | .directive d => .directive d.leading
  | kind => kind

/-- How a row starts. -/
def lead : List Lexeme → Lead
  | [] => .nothing
  | l :: ls =>
    if l.kind.isNumber || startsMinusNumber (l :: ls) then .number
    else if l.kind = .ident then .word l.text (startsCall (l :: ls)) (startsAssign ls)
    else .other (leading l.kind)

/-- The second row starts like the first, except that a minus may have come to touch a number. -/
def Alike (src out : List Lexeme) : Prop :=
  lead src = lead out ∨ lead src = .other (.operator .sub) ∧ startsMinusNumber out = true

theorem Alike.of_eq {src out : List Lexeme} (h : lead src = lead out) : Alike src out := Or.inl h

theorem lead_number {l : Lexeme} (ls : List Lexeme) (h : l.kind.isNumber = true) :
    lead (l :: ls) = .number := by
  rw [lead, h]
  rfl

theorem lead_minusNumber {ls : List Lexeme} (h : startsMinusNumber ls = true) :
    lead ls = .number := by
  cases ls with
  | nil => exact Bool.noConfusion h
  | cons l ls =>
    rw [lead, h, Bool.or_true]
    rfl

theorem startsMinusNumber_cons_of_ne {l : Lexeme} {ls : List Lexeme} (h : l.kind ≠ .operator .sub) :
    startsMinusNumber (l :: ls) = false := by
  cases ls <;> simp [startsMinusNumber, h]

theorem lead_ident (text : String) (s : Bool) (ls : List Lexeme) :
    lead (⟨.ident, text, s⟩ :: ls) =
      .word text (startsCall (⟨.ident, text, s⟩ :: ls)) (startsAssign ls) := by
  rw [lead, startsMinusNumber_cons_of_ne (by simp)]
  rfl

/-- Most tokens show nothing but their kind. -/
theorem lead_other {l : Lexeme} {ls : List Lexeme} (hn : l.kind.isNumber = false)
    (hi : l.kind ≠ .ident) (hm : startsMinusNumber (l :: ls) = false) :
    lead (l :: ls) = .other (leading l.kind) := by
  rw [lead, hn, hm, Bool.or_self, if_neg Bool.false_ne_true, if_neg hi]

theorem lead_of_kind (kind : TokenKind) (hn : kind.isNumber = false) (hi : kind ≠ .ident)
    (hs : kind ≠ .operator .sub) (text : String) (s : Bool) (ls : List Lexeme) :
    lead (⟨kind, text, s⟩ :: ls) = .other (leading kind) :=
  lead_other hn hi (startsMinusNumber_cons_of_ne hs)

end Lexeme

open Lexeme ControlFile.Parser

/-! ### Literals -/

/-- What a token stands for can be written, and without a minus it is not negative. -/
theorem Token.legible_of_literal {t : Token} (ht : LexesAs t.kind t.text) {negative : Bool}
    {value : Literal} (h : t.literal negative = .ok value) :
    value.Legible ∧ t.kind = value.magnitude.1 ∧
      (negative = false → value.isNegative = false) := by
  cases hk : t.kind with
  | integer =>
    simp only [Token.literal, hk] at h
    by_cases hfits : fitsInteger (if negative = true then -(Decimal.digitsValue t.text.toList : Int)
        else Decimal.digitsValue t.text.toList) = true
    · rw [if_pos hfits] at h
      cases h
      refine ⟨hfits, rfl, ?_⟩
      rintro rfl
      simp [Literal.isNegative]
    · rw [if_neg hfits] at h
      cases h
  | decimal =>
    simp only [Token.literal, hk] at h
    cases hx : Decimal.readNumber? t.text.toList with
    | none =>
      rw [hx] at h
      cases h
    | some x =>
      rw [hx] at h
      cases h
      rw [hk] at ht
      obtain ⟨hfin, b, hb, hneg⟩ := Decimal.unsigned_of_readNumber? ht hx
      refine ⟨?_, rfl, ?_⟩
      · cases negative with
        | false => exact hfin
        | true => exact isFinite_neg hfin
      · rintro rfl
        simp [Literal.isNegative, hb, hneg]
  | string =>
    simp only [Token.literal, hk] at h
    cases h
    rw [hk] at ht
    obtain ⟨inner, htext, hq, hn⟩ := ht.exists_string
    refine ⟨?_, rfl, fun _ => rfl⟩
    rw [htext, Literal.unquote_quoted]
    exact ⟨hq, hn⟩
  | _ =>
    simp only [Token.literal, hk] at h
    cases h

namespace Parser

theorem ensures_literal {c : Cursor} (hc : c.Genuine) (negative : Bool) :
    Ensures (literal negative) c fun value c' => c' = c.advance ∧ value.Legible ∧
      (∃ text s ls, c.lexemes = ⟨value.magnitude.1, text, s⟩ :: ls) ∧
      (negative = false → value.isNegative = false) := by
  intro value c' h
  obtain ⟨rest, lastEnd, textEnd⟩ := c
  cases rest with
  | nil => cases h
  | cons t ts =>
    cases hv : t.literal negative with
    | error fault =>
      simp only [literal, hv] at h
      cases h
    | ok w =>
      simp only [literal, hv] at h
      cases h
      obtain ⟨hleg, hk, hneg⟩ := Token.legible_of_literal (hc t.lexeme (List.mem_cons_self ..)) hv
      refine ⟨rfl, hleg, ⟨t.text, t.spaced, ts.map Token.lexeme, ?_⟩, hneg⟩
      rw [← hk]
      rfl

/-! ### Operands -/

/-- What an expression that was read is like, and how it is written at its start. -/
structure Parsed (v : Vocabulary) (j : Bool) (levels : Nat) (c : Cursor) (e : Expr) (c' : Cursor) :
    Prop where
  grammatical : e.Grammatical v j
  nesting : e.nesting ≤ levels
  passes : c.Passes c'
  start : ∀ s rs, IsLoose rs → startsAssign c'.lexemes = startsAssign rs →
    Alike c.lexemes (e.row s ++ rs)

/-- What the parser of the next level makes of the tokens of a text. -/
def SoundInner (v : Vocabulary) (levels : Nat) (inner : Parser Expr) : Prop :=
  ∀ c : Cursor, c.Genuine → Ensures inner c fun e c' =>
    e.Grammatical v true ∧ e.nesting < levels ∧ c.Passes c'

variable {v : Vocabulary} {inner : Parser Expr} {levels : Nat} {j : Bool} {c : Cursor}

/-- A parser of operands gives what stands at the cursor. -/
def SoundOperand (v : Vocabulary) (j : Bool) (levels : Nat) (c : Cursor) (e : Expr) (c' : Cursor) :
    Prop :=
  Parsed v j levels c e c' ∧ e.rank = 6 ∧
    ∃ kind, Lexeme.kind? c.lexemes = some kind ∧ ¬kind.IsOperator ∧
      e.startsFactor = kind.startsOperand

theorem ensures_primary_literal (hc : c.Genuine) :
    Ensures (literal false >>= fun value => pure (.literal value)) c fun e c' =>
      SoundOperand v j levels c e c' := by
  refine Ensures.bind ((ensures_literal hc false).mono fun value c' h => Ensures.pure ?_)
  obtain ⟨rfl, hleg, ⟨text, s, ls, hrow⟩, hneg⟩ := h
  have hneg' := hneg rfl
  refine ⟨⟨hleg, Nat.zero_le _, Cursor.passes_advance hrow, fun s' rs _ _ => Alike.of_eq ?_⟩, ?_, ?_⟩
  · rw [hrow, Expr.row, Literal.row, withMinus, hneg', if_neg Bool.false_ne_true, List.singleton_append]
    cases value with
    | string text =>
      rw [Literal.magnitude, lead_of_kind .string rfl (by simp) (by simp),
        lead_of_kind .string rfl (by simp) (by simp)]
    | _ => rw [lead_number _ rfl, lead_number _ rfl]
  · rw [Expr.rank, hneg', if_neg Bool.false_ne_true]
  · refine ⟨value.magnitude.1, by rw [hrow]; rfl, ?_, by cases value <;> rfl⟩
    rintro ⟨op, hop⟩
    cases value <;> cases hop

theorem startsAssign_of_kind {ls : List Lexeme} {kind : TokenKind} (h : Lexeme.kind? ls = some kind)
    (hk : kind.isAssign = false) : startsAssign ls = false := by
  rw [startsAssign, h]
  exact hk

/-! ### Values and equations -/

/-- A literal with its minus, or nothing where none stands. -/
theorem ensures_signedLiteral? (hc : c.Genuine) : Ensures signedLiteral? c fun o c' =>
    (∀ value, o = some value → value.Legible ∧ c.Passes c') ∧
      (o = none → c' = c ∧ EndsValue c.lexemes) := by
  unfold signedLiteral?
  refine Ensures.get_bind ?_
  rw [Cursor.isAtMinusNumber_eq, Cursor.kind?_eq]
  by_cases hm : startsMinusNumber c.lexemes = true
  · rw [if_pos hm]
    match hrow : c.lexemes with
    | [] => rw [hrow] at hm; exact Bool.noConfusion hm
    | l :: ls =>
      have hpass := Cursor.passes_advance hrow
      refine Ensures.advance_bind (Ensures.bind ((ensures_literal (hpass.genuine hc) true).mono
        fun value c' h => Ensures.pure ?_))
      obtain ⟨rfl, hleg, ⟨text, s, ms, hms⟩, -⟩ := h
      refine ⟨fun w hw => ?_, by simp⟩
      cases hw
      exact ⟨hleg, hpass.trans (Cursor.passes_advance hms)⟩
  · rw [if_neg hm]
    by_cases hl : ((Lexeme.kind? c.lexemes).map TokenKind.isLiteral).getD false = true
    · rw [if_pos hl]
      refine Ensures.bind ((ensures_literal hc false).mono fun value c' h => Ensures.pure ?_)
      obtain ⟨rfl, hleg, ⟨text, s, ls, hls⟩, -⟩ := h
      refine ⟨fun w hw => ?_, by simp⟩
      cases hw
      exact ⟨hleg, Cursor.passes_advance hls⟩
    · rw [if_neg hl]
      exact Ensures.pure ⟨by simp, fun _ => ⟨rfl, by simpa using hm, by simpa using hl⟩⟩

theorem ensures_literalValue (hc : c.Genuine) : Ensures literalValue c fun value c' =>
    value.IsPlain ∧ c'.lexemes <:+ c.lexemes ∧ (value ≠ .absent → c.Passes c') ∧
      (value = .absent → c' = c ∧ EndsValue c.lexemes) := by
  unfold literalValue
  refine Ensures.bind ((ensures_signedLiteral? hc).mono fun o c' h => ?_)
  cases o with
  | none =>
    obtain ⟨rfl, hend⟩ := h.2 rfl
    exact Ensures.pure ⟨trivial, List.suffix_refl _, fun h => absurd rfl h, fun _ => ⟨rfl, hend⟩⟩
  | some value =>
    obtain ⟨hleg, hpass⟩ := h.1 value rfl
    exact Ensures.pure ⟨hleg, hpass.suffix, fun _ => hpass, by simp⟩

theorem ensures_takeText {l : Lexeme} {ls : List Lexeme} (hrow : c.lexemes = l :: ls) :
    Ensures takeText c fun text c' => text = l.text ∧ c' = c.advance := by
  intro text c' h
  rw [takeText_run hrow] at h
  cases h
  exact ⟨rfl, rfl⟩

theorem ensures_parameterName? (hc : c.Genuine) : Ensures (parameterName? v) c fun name c' =>
    IsParameterName v name ∧ c'.lexemes <:+ c.lexemes ∧ (name.isSome = true → c.Passes c') ∧
      (name = none → c' = c ∧ startsParameterName v c.lexemes = false) := by
  unfold parameterName?
  refine Ensures.get_bind ?_
  rw [isAtParameterName_eq]
  by_cases hs : startsParameterName v c.lexemes = true
  · rw [if_pos hs]
    match hrow : c.lexemes with
    | [] => rw [hrow] at hs; exact Bool.noConfusion hs
    | ⟨kind, text, s⟩ :: ls =>
      have hpass := Cursor.passes_advance hrow
      refine Ensures.bind ((ensures_takeText hrow).mono fun t c' h => Ensures.pure ?_)
      obtain ⟨ht, rfl⟩ := h
      rw [ht]
      refine ⟨?_, hrow ▸ hpass.suffix, fun _ => hpass, by simp⟩
      have hgen : LexesAs kind text := hc _ (by rw [hrow]; exact List.mem_cons_self ..)
      simp only [hrow, startsParameterName, Bool.or_eq_true, Bool.and_eq_true, beq_iff_eq,
        Bool.not_eq_true'] at hs
      rcases hs with ⟨rfl, hr⟩ | rfl
      · exact Or.inr ⟨hgen, hr⟩
      · exact Or.inl hgen.eq_unique
  · rw [if_neg hs]
    exact Ensures.pure ⟨trivial, List.suffix_refl _, by simp, fun _ => ⟨rfl, by simpa using hs⟩⟩

theorem ensures_refinement : Ensures refinement c fun r c' =>
    (r = .plain → c' = c ∧ Lexeme.kind? c.lexemes ≠ some (.mark .atSign) ∧
      Lexeme.kind? c.lexemes ≠ some (.mark .bang)) ∧ (r ≠ .plain → c.Passes c') := by
  unfold refinement
  refine Ensures.bind (Ensures.takeIf (fun h => ?_) (fun h => ?_))
  · obtain ⟨text, s, ls, hrow⟩ := Cursor.exists_of_kind? h
    exact Ensures.pure ⟨by simp, fun _ => Cursor.passes_advance hrow⟩
  · refine Ensures.bind (Ensures.takeIf (fun h' => ?_) (fun h' => ?_))
    · obtain ⟨text, s, ls, hrow⟩ := Cursor.exists_of_kind? h'
      exact Ensures.pure ⟨by simp, fun _ => Cursor.passes_advance hrow⟩
    · exact Ensures.pure ⟨fun _ => ⟨rfl, h, h'⟩, fun h => absurd rfl h⟩

theorem suffix_of_refinement {r : Refinement} {c' : Cursor} (hplain : r = .plain → c' = c)
    (hpass : r ≠ .plain → c.Passes c') : c'.lexemes <:+ c.lexemes := by
  by_cases hr : r = .plain
  · exact hplain hr ▸ List.suffix_refl _
  · exact (hpass hr).suffix

/-- The name and the literal of a place, and what follows it. -/
theorem ensures_place {β : Type} (hc : c.Genuine) {f : Option String → Value → Parser β}
    {Q : β → Cursor → Prop}
    (h : ∀ name value c', IsParameterName v name → value.IsPlain → c'.lexemes <:+ c.lexemes →
      (name.isSome = true ∨ value ≠ .absent → c.Passes c') → EndsPlace v name value c'.lexemes →
      Ensures (f name value) c' Q) :
    Ensures (parameterName? v >>= fun name => literalValue >>= fun value => f name value) c Q := by
  refine Ensures.bind ((ensures_parameterName? hc).mono fun name c₁ h₁ => ?_)
  refine Ensures.bind ((ensures_literalValue (hc.of_suffix h₁.2.1)).mono fun value c₂ h₂ => ?_)
  obtain ⟨hname, hsuf₁, hpass₁, hnone⟩ := h₁
  obtain ⟨hvalue, hsuf₂, hpass₂, hend⟩ := h₂
  refine h name value c₂ hname hvalue (hsuf₂.trans hsuf₁) ?_ ?_
  · rintro (hs | hs)
    · have := hpass₁ hs
      exact ⟨hsuf₂.trans hsuf₁, Nat.lt_of_le_of_lt hsuf₂.length_le this.shorter⟩
    · have := hpass₂ hs
      exact ⟨hsuf₂.trans hsuf₁, Nat.lt_of_lt_of_le this.shorter hsuf₁.length_le⟩
  · intro habs
    obtain ⟨rfl, hend'⟩ := hend habs
    refine ⟨hend', fun hn => ?_⟩
    obtain ⟨rfl, hstart⟩ := hnone hn
    exact hstart

theorem ensures_markedParameter (hc : c.Genuine)
    (hk : Lexeme.kind? c.lexemes = some (.mark .atSign) ∨ Lexeme.kind? c.lexemes = some (.mark .bang)) :
    Ensures (markedParameter v) c fun p c' =>
      p.IsMarked v ∧ c.Passes c' ∧ EndsPlace v p.name p.value c'.lexemes := by
  unfold markedParameter
  refine Ensures.bind (ensures_refinement.mono fun r c₁ h₁ => ?_)
  have hr : r ≠ .plain := by
    rintro rfl
    obtain ⟨-, h₁, h₂⟩ := h₁.1 rfl
    rcases hk with hk | hk
    · exact h₁ hk
    · exact h₂ hk
  have hpass := h₁.2 hr
  refine ensures_place (hpass.genuine hc) fun name value c' hname hvalue hsuf _ hend => ?_
  exact Ensures.pure ⟨⟨hr, hname, hvalue⟩, ⟨hsuf.trans hpass.suffix,
    Nat.lt_of_le_of_lt hsuf.length_le hpass.shorter⟩, hend⟩

theorem ensures_uncertainty (hc : c.Genuine) : Ensures uncertainty c fun u c' =>
    u.Legible ∧ c.Passes c' := by
  unfold uncertainty
  refine Ensures.get_bind ?_
  rw [Cursor.isAt_eq]
  by_cases hi : Lexeme.kind? c.lexemes = some .ident
  · rw [if_pos (by simpa using hi)]
    obtain ⟨text, s, ls, hrow⟩ := Cursor.exists_of_kind? hi
    refine Ensures.bind ((ensures_takeText hrow).mono fun t c' h => Ensures.pure ?_)
    obtain ⟨ht, rfl⟩ := h
    have hgen : IsName text := hc ⟨.ident, text, s⟩ (by rw [hrow]; exact List.mem_cons_self ..)
    rw [ht]
    exact ⟨hgen, Cursor.passes_advance hrow⟩
  · rw [if_neg (by simpa using hi)]
    refine Ensures.bind ((ensures_signedLiteral? hc).mono fun o c' h => ?_)
    cases o with
    | none => exact Ensures.fail _ _
    | some value =>
      obtain ⟨hleg, hpass⟩ := h.1 value rfl
      cases value with
      | string text => exact Ensures.fail _ _
      | _ => exact Ensures.pure ⟨⟨hleg, rfl⟩, hpass⟩

theorem ensures_equation (hinner : SoundInner v levels inner) (hc : c.Genuine) {op : AssignOp}
    (hk : Lexeme.kind? c.lexemes = some (.assign op)) :
    Ensures (equation inner op) c fun e c' => e.Grammatical v ∧ e.nesting < levels ∧ e.op = op ∧
      c.Passes c' ∧ (e.uncertainty = none → Lexeme.kind? c'.lexemes ≠ some (.mark .colon)) := by
  obtain ⟨text, s, ls, hrow⟩ := Cursor.exists_of_kind? hk
  have hpass := Cursor.passes_advance hrow
  unfold equation
  refine Ensures.advance_bind (Ensures.bind ((hinner _ (hpass.genuine hc)).mono fun body c₁ h₁ => ?_))
  obtain ⟨hbody, hnest, hpass₁⟩ := h₁
  refine Ensures.bind (Ensures.expect fun hsemi => ?_)
  obtain ⟨text', s', ls', hrow'⟩ := Cursor.exists_of_kind? hsemi
  have hpass₂ := (hpass.trans hpass₁).trans (Cursor.passes_advance hrow')
  refine Ensures.bind (Ensures.takeIf (fun hcolon => ?_) (fun hcolon => ?_))
  · obtain ⟨text'', s'', ls'', hrow''⟩ := Cursor.exists_of_kind? hcolon
    have hpass₃ := hpass₂.trans (Cursor.passes_advance hrow'')
    rw [if_pos rfl]
    refine Ensures.bind ((ensures_uncertainty (hpass₃.genuine hc)).mono fun u c' h => Ensures.pure ?_)
    refine ⟨⟨hbody, fun w hw => ?_⟩, hnest, rfl, hpass₃.trans h.2, by simp⟩
    cases hw
    exact h.1
  · exact Ensures.pure ⟨⟨hbody, by simp⟩, hnest, rfl, hpass₂, fun _ => hcolon⟩

/-! ### Arguments and calls -/

/-- An argument, which takes no token exactly if it is left out. -/
theorem ensures_argument (hinner : SoundInner v levels inner) (hc : c.Genuine) :
    Ensures (argument v inner) c fun a c' => a.Grammatical v ∧ a.nesting ≤ levels ∧
      c'.lexemes <:+ c.lexemes ∧ (a.isHole = true → c' = c ∧
        (Lexeme.kind? c.lexemes = some (.mark .comma) ∨
          Lexeme.kind? c.lexemes = some (.mark .closeParen))) := by
  have hexpr : Ensures (inner >>= fun e => pure (Argument.expr e)) c fun a c' =>
      a.Grammatical v ∧ a.nesting ≤ levels ∧ c'.lexemes <:+ c.lexemes ∧ (a.isHole = true → c' = c ∧
        (Lexeme.kind? c.lexemes = some (.mark .comma) ∨
          Lexeme.kind? c.lexemes = some (.mark .closeParen))) :=
    Ensures.bind ((hinner c hc).mono fun e c' h => Ensures.pure ⟨h.1, h.2.1, h.2.2.suffix, by rintro ⟨⟩⟩)
  unfold argument
  refine Ensures.get_bind ?_
  rw [Cursor.kind?_eq]
  cases hk : Lexeme.kind? c.lexemes with
  | none => exact Ensures.fail _ _
  | some kind =>
    rw [hk] at hexpr
    cases kind with
    | mark m =>
      cases m with
      | comma => exact Ensures.pure ⟨trivial, Nat.zero_le _, List.suffix_refl _, fun _ => ⟨rfl, Or.inl rfl⟩⟩
      | closeParen =>
        exact Ensures.pure ⟨trivial, Nat.zero_le _, List.suffix_refl _, fun _ => ⟨rfl, Or.inr rfl⟩⟩
      | atSign =>
        exact Ensures.bind ((ensures_markedParameter hc (Or.inl hk)).mono fun p c' h =>
          Ensures.pure ⟨h.1, Nat.zero_le _, h.2.1.suffix, by rintro ⟨⟩⟩)
      | bang =>
        exact Ensures.bind ((ensures_markedParameter hc (Or.inr hk)).mono fun p c' h =>
          Ensures.pure ⟨h.1, Nat.zero_le _, h.2.1.suffix, by rintro ⟨⟩⟩)
      | openParen => exact hexpr
      | _ => exact Ensures.fail _ _
    | assign op =>
      refine Ensures.bind ((ensures_equation hinner hc hk).mono fun e c' h => Ensures.pure ?_)
      exact ⟨h.1, h.2.1, h.2.2.2.1.suffix, by rintro ⟨⟩⟩
    | _ =>
      dsimp only
      split
      · exact hexpr
      · exact Ensures.fail _ _

theorem ensures_arguments (hinner : SoundInner v levels inner) : (limit : Nat) → {c : Cursor} →
    c.Genuine → c.lexemes.length < limit → Ensures (arguments v inner limit) c fun as c' =>
      Argument.AllGrammatical v as ∧ Argument.nestingAll as ≤ levels ∧ c.Passes c' ∧ as ≠ [] ∧
        (Argument.IsHoleOnly as → Lexeme.kind? c.lexemes = some (.mark .closeParen))
  | 0, c, _, h => absurd h (Nat.not_lt_zero _)
  | limit + 1, c, hc, hlimit => by
    unfold arguments
    refine Ensures.bind ((ensures_argument hinner hc).mono fun a c₁ ha => ?_)
    obtain ⟨hg, hn, hsuf, hhole⟩ := ha
    refine Ensures.bind (Ensures.takeIf (fun hcomma => ?_) (fun hcomma => ?_))
    · obtain ⟨text, s, ls, hrow⟩ := Cursor.exists_of_kind? hcomma
      have hadv := Cursor.passes_advance hrow
      have hpass : c.Passes c₁.advance :=
        ⟨hadv.suffix.trans hsuf, Nat.lt_of_lt_of_le hadv.shorter hsuf.length_le⟩
      rw [if_pos rfl]
      refine Ensures.bind ((ensures_arguments hinner limit (hpass.genuine hc)
        (Nat.lt_of_lt_of_le hpass.shorter (Nat.le_of_lt_succ hlimit))).mono fun as c' has =>
          Ensures.pure ?_)
      refine ⟨⟨hg, has.1⟩, Nat.max_le.2 ⟨hn, has.2.1⟩, hpass.trans has.2.2.1, by simp, fun h => ?_⟩
      cases as with
      | nil => exact absurd rfl has.2.2.2.1
      | cons b bs =>
        cases a <;> exact h.elim
    · rw [if_neg Bool.false_ne_true]
      refine Ensures.bind (Ensures.expect fun hclose => Ensures.pure ?_)
      obtain ⟨text, s, ls, hrow⟩ := Cursor.exists_of_kind? hclose
      have hadv := Cursor.passes_advance hrow
      refine ⟨⟨hg, trivial⟩, Nat.max_le.2 ⟨hn, Nat.zero_le _⟩,
        ⟨hadv.suffix.trans hsuf, Nat.lt_of_lt_of_le hadv.shorter hsuf.length_le⟩, by simp, fun h => ?_⟩
      have ha : a.isHole = true := by
        cases a with
        | hole => rfl
        | _ => exact h.elim
      obtain ⟨rfl, -⟩ := hhole ha
      exact hclose

theorem ensures_call (hinner : SoundInner v levels inner) (hc : c.Genuine) {name : String}
    {start : Nat} (hk : Lexeme.kind? c.lexemes = some (.mark .openParen)) :
    Ensures (call v inner name start) c fun e c' => ∃ as range, e = .call name as range ∧
      Argument.AllGrammatical v as ∧ Argument.nestingAll as ≤ levels ∧
      ¬Argument.IsHoleOnly as ∧ c.Passes c' := by
  obtain ⟨text, s, ls, hrow⟩ := Cursor.exists_of_kind? hk
  have hpass := Cursor.passes_advance hrow
  unfold call
  refine Ensures.advance_bind (Ensures.bind (Ensures.takeIf (fun hclose => ?_) (fun hclose => ?_)))
  · obtain ⟨text', s', ls', hrow'⟩ := Cursor.exists_of_kind? hclose
    have hpass' := hpass.trans (Cursor.passes_advance hrow')
    intro e c' h
    cases h
    exact ⟨[], _, rfl, trivial, Nat.zero_le _, fun h => h, hpass'⟩
  · rw [if_neg Bool.false_ne_true]
    refine Ensures.get_bind (Ensures.bind ((ensures_arguments hinner _ (hpass.genuine hc) ?_).mono
      fun as c' h => Ensures.get_bind (Ensures.pure ?_)))
    · rw [Cursor.length_lexemes]
      exact Nat.lt_succ_self _
    · exact ⟨as, _, rfl, h.1, h.2.1, fun hh => hclose (h.2.2.2.2 hh), hpass.trans h.2.2.1⟩

/-- A token that is no operand. -/
theorem primary_error {kind : TokenKind} (hk : Lexeme.kind? c.lexemes = some kind)
    (hs : kind.startsOperand = false) (hl : kind ≠ .string) : ∃ d, primary v inner c = .error d c := by
  obtain ⟨text, s, ls, hrow⟩ := Cursor.exists_of_kind? hk
  obtain ⟨t, ht, htl⟩ := Cursor.peek?_zero hrow
  have htk : t.kind = kind := by rw [← t.kind_lexeme, htl]
  rw [primary, get_bind, ht]
  simp only [htk]
  split
  · exact Bool.noConfusion hs
  · exact Bool.noConfusion hs
  · exact absurd rfl hl
  · exact Bool.noConfusion hs
  · exact Bool.noConfusion hs
  · exact Bool.noConfusion hs
  · exact ⟨_, rfl⟩

theorem ensures_ident {text : String} {s : Bool} {ls : List Lexeme} (hc : c.Genuine)
    (hrow : c.lexemes = ⟨.ident, text, s⟩ :: ls) (hcall : startsCall c.lexemes = false) :
    SoundOperand v j levels c (.ident text) c.advance := by
  have hname : IsName text := hc ⟨.ident, text, s⟩ (by rw [hrow]; exact List.mem_cons_self ..)
  refine ⟨⟨Or.inr hname, Nat.zero_le _, Cursor.passes_advance hrow, fun s' rs hloose hassign =>
    Alike.of_eq ?_⟩, rfl, .ident, by rw [hrow]; rfl, by rintro ⟨_, ⟨⟩⟩, rfl⟩
  rw [Cursor.lexemes_advance hrow] at hassign
  rw [hrow] at hcall
  rw [hrow, Expr.row, hname.nameLexeme_eq, List.singleton_append, lead_ident, lead_ident, hcall,
    startsCall_eq_false hloose, hassign]

theorem parsed_call {text : String} {s : Bool} {ls : List Lexeme} (hc : c.Genuine)
    (hrow : c.lexemes = ⟨.ident, text, s⟩ :: ls) (hcall : startsCall c.lexemes = true)
    {as : List Argument} {range : Extent} {c' : Cursor} (hg : Argument.AllGrammatical v as)
    (hn : Argument.nestingAll as ≤ levels) (hhole : ¬Argument.IsHoleOnly as)
    (hpass : c.advance.Passes c') : SoundOperand v j levels c (.call text as range) c' := by
  have hname : IsName text := hc ⟨.ident, text, s⟩ (by rw [hrow]; exact List.mem_cons_self ..)
  refine ⟨⟨⟨hname, hhole, hg⟩, hn, (Cursor.passes_advance hrow).trans hpass, fun s' rs _ _ =>
    Alike.of_eq ?_⟩, rfl, .ident, by rw [hrow]; rfl, by rintro ⟨_, ⟨⟩⟩, rfl⟩
  have hassign : startsAssign ls = false := by
    rw [hrow] at hcall
    cases ls with
    | nil => rfl
    | cons p ps =>
      simp only [startsCall, Bool.and_eq_true, beq_iff_eq] at hcall
      exact startsAssign_of_kind (kind?_cons p ps) (by rw [hcall.1]; rfl)
  rw [hrow] at hcall
  rw [hrow, Expr.row, List.cons_append, List.cons_append, lead_ident, lead_ident, hcall, hassign]
  rfl

theorem ensures_primary (hinner : SoundInner v levels inner) (hc : c.Genuine) :
    Ensures (primary v inner) c fun e c' => SoundOperand v j levels c e c' := by
  intro e c' hrun
  match hrow : c.lexemes with
  | [] =>
    have hrest : c.rest = [] := by simpa [Cursor.lexemes] using hrow
    rw [primary, get_bind] at hrun
    simp only [Cursor.peek?, hrest, List.getElem?_nil] at hrun
    cases hrun
  | ⟨kind, text, s⟩ :: ls =>
    have hk : Lexeme.kind? c.lexemes = some kind := by rw [hrow]; rfl
    have hpass := Cursor.passes_advance hrow
    by_cases hl : kind.isLiteral = true
    · rw [primary_literal hk hl] at hrun
      exact ensures_primary_literal hc e c' hrun
    by_cases hs : kind.startsOperand = true
    · cases kind with
      | integer | decimal => exact absurd rfl hl
      | ident =>
        obtain ⟨start, heq⟩ := @primary_name v inner _ _ _ _ hrow
        rw [heq] at hrun
        cases hcall : startsCall c.lexemes with
        | true =>
          rw [hcall, if_pos rfl] at hrun
          have hopen : Lexeme.kind? c.advance.lexemes = some (.mark .openParen) := by
            rw [Cursor.lexemes_advance hrow]
            rw [hrow] at hcall
            cases ls with
            | nil => exact Bool.noConfusion hcall
            | cons p ps =>
              simp only [startsCall, Bool.and_eq_true, beq_iff_eq] at hcall
              rw [kind?_cons, hcall.1]
          obtain ⟨as, range, rfl, hg, hn, hhole, hpass'⟩ :=
            ensures_call hinner (hpass.genuine hc) hopen e c' hrun
          exact parsed_call hc hrow hcall hg hn hhole hpass'
        | false =>
          rw [hcall, if_neg Bool.false_ne_true] at hrun
          cases hrun
          exact ensures_ident hc hrow hcall
      | directive d =>
        have hd : d = .unique := by cases d <;> first | rfl | exact Bool.noConfusion hs
        subst hd
        rw [primary_unique hk] at hrun
        cases hrun
        refine ⟨⟨Or.inl rfl, Nat.zero_le _, hpass, fun s' rs _ _ => Alike.of_eq ?_⟩, rfl, _, hk,
          by rintro ⟨_, ⟨⟩⟩, rfl⟩
        rw [hrow, Expr.row, nameLexeme, if_pos rfl, List.singleton_append,
          lead_of_kind (.directive .unique) rfl (by simp) (by simp),
          lead_of_kind (.directive .unique) rfl (by simp) (by simp)]
      | mark m =>
        have hm : m = .openParen := by cases m <;> first | rfl | exact Bool.noConfusion hs
        subst hm
        rw [primary_paren hk] at hrun
        obtain ⟨e₁, c₁, h₁, hrun⟩ := ok_of_bind hrun
        obtain ⟨hg, hn, hpass₁⟩ := hinner _ (hpass.genuine hc) e₁ c₁ h₁
        obtain ⟨_, c₂, h₂, hrun⟩ := ok_of_bind hrun
        obtain ⟨hclose, rfl⟩ := ok_of_expect h₂
        cases hrun
        obtain ⟨text', s', ls', hrow'⟩ := Cursor.exists_of_kind? hclose
        refine ⟨⟨hg, hn, (hpass.trans hpass₁).trans (Cursor.passes_advance hrow'), fun s' rs _ _ =>
          Alike.of_eq ?_⟩, rfl, _, hk, by rintro ⟨_, ⟨⟩⟩, rfl⟩
        rw [hrow, Expr.row, List.cons_append, lead_of_kind (.mark .openParen) rfl (by simp) (by simp)]
        exact (lead_of_kind (.mark .openParen) rfl (by simp) (by simp) _ _ _).symm
      | _ => exact Bool.noConfusion hs
    · obtain ⟨d, herr⟩ := @primary_error v inner _ _ hk (by simpa using hs)
        (by rintro rfl; exact hl rfl)
      rw [herr] at hrun
      cases hrun

/-! ### Signs and powers -/

/-- A minus that is part of the number it touches, and what is behind them. -/
theorem ensures_negative (hc : c.Genuine) (hat : c.isAtNegativeLiteral = true) :
    Ensures (literal true >>= fun value => pure (Expr.literal value)) c.advance fun e c' =>
      ∃ value, e = .literal value ∧ Parsed v j levels c e c' ∧ startsPower c'.lexemes = false := by
  rw [Cursor.isAtNegativeLiteral_eq, Bool.and_eq_true, Bool.not_eq_true'] at hat
  obtain ⟨hm, hp⟩ := hat
  match hrow : c.lexemes with
  | [] => rw [hrow] at hm; exact Bool.noConfusion hm
  | l :: ls =>
    have hadv := Cursor.lexemes_advance hrow
    have hpass := Cursor.passes_advance hrow
    refine Ensures.bind ((ensures_literal (hpass.genuine hc) true).mono fun value c' h => Ensures.pure ?_)
    obtain ⟨rfl, hleg, ⟨text, s, ms, hms⟩, -⟩ := h
    have hend := Cursor.lexemes_advance hms
    rw [hadv] at hms
    rw [hrow, hms, List.drop_succ_cons, List.drop_succ_cons, List.drop_zero] at hp
    refine ⟨value, rfl, ⟨hleg, Nat.zero_le _, ?_, fun s' rs _ _ => Alike.of_eq ?_⟩, by rw [hend, hp]⟩
    · exact hpass.trans (Cursor.passes_advance (hadv.trans hms))
    · have hnum : value.isNumber = true := by
        rw [hrow, hms] at hm
        simp only [startsMinusNumber, Bool.and_eq_true] at hm
        rw [← isNumber_magnitude]
        exact hm.1.2
      rw [lead_minusNumber hm, Expr.row, Literal.row, withMinus]
      cases value.isNegative with
      | true =>
        refine (lead_minusNumber ?_).symm
        exact (startsMinusNumber_minus s' _ _ _).trans (by rw [isNumber_magnitude, hnum])
      | false => exact (lead_number _ (by rw [isNumber_magnitude, hnum])).symm

theorem kind?_of_sign? {op : UnaryOp} (h : c.sign? = some op) :
    Lexeme.kind? c.lexemes = some (op.lexeme true).kind := by
  unfold Cursor.sign? at h
  rw [Cursor.kind?_eq] at h
  split at h
  · rename_i hk
    cases h
    exact hk
  · rename_i hk
    cases h
    exact hk
  · cases h

theorem exponent_none (hat : c.isAtNegativeLiteral = false) (hs : c.sign? = none) :
    exponent v inner c = primary v inner c := by
  unfold exponent
  rw [get_bind, hat, hs]
  rfl

theorem signed_none (hat : c.isAtNegativeLiteral = false) (hs : c.sign? = none) :
    signed v inner c = power v inner c := by
  unfold signed
  rw [get_bind, hat, hs]
  rfl

theorem ensures_exponent (hinner : SoundInner v levels inner) (hc : c.Genuine) :
    Ensures (exponent v inner) c fun e c' => e.Grammatical v j ∧ e.nesting ≤ levels ∧ c.Passes c' ∧
      e.isExponent = true ∧
      (∀ value, e = .literal value → value.isNegative = true → startsPower c'.lexemes = false) := by
  intro e c' hrun
  cases hat : c.isAtNegativeLiteral with
  | true =>
    rw [exponent_negative hat] at hrun
    obtain ⟨value, rfl, hp, hpow⟩ := @ensures_negative v levels j c hc hat e c' hrun
    exact ⟨hp.grammatical, hp.nesting, hp.passes, rfl, fun _ _ _ => hpow⟩
  | false =>
    cases hs : c.sign? with
    | none =>
      rw [exponent_none hat hs] at hrun
      obtain ⟨hp, hrank, -⟩ := ensures_primary (j := j) hinner hc e c' hrun
      refine ⟨hp.grammatical, hp.nesting, hp.passes, ?_, ?_⟩
      · cases e with
        | literal value => rfl
        | unary op p => cases hrank
        | _ => simpa [Expr.isExponent] using hrank
      · rintro value rfl hneg
        rw [Expr.rank, hneg] at hrank
        cases hrank
    | some op =>
      obtain ⟨text, s, ls, hrow⟩ := Cursor.exists_of_kind? (kind?_of_sign? hs)
      have hpass := Cursor.passes_advance hrow
      rw [exponent_sign hat hs] at hrun
      obtain ⟨p, c₁, h₁, hrun⟩ := ok_of_bind hrun
      obtain ⟨hp, hrank, -⟩ := ensures_primary (j := j) hinner (hpass.genuine hc) p c₁ h₁
      cases hrun
      refine ⟨⟨by omega, hp.grammatical⟩, hp.nesting, hpass.trans hp.passes, ?_, by simp⟩
      simp [Expr.isExponent, hrank]

/-- What stands at the cursor where the expression starts. -/
def StartsTight (c : Cursor) (e : Expr) : Prop :=
  ∃ kind, Lexeme.kind? c.lexemes = some kind ∧ ¬kind.IsOperator ∧ e.startsFactor = kind.startsOperand

theorem ensures_exponents (hinner : SoundInner v levels inner) {c₀ : Cursor} :
    (limit : Nat) → {base : Expr} → {c : Cursor} → c.Genuine → c.lexemes.length ≤ limit →
    Parsed v j levels c₀ base c → 5 ≤ base.rank → StartsTight c₀ base →
    (base.endsNegative = true → startsPower c.lexemes = false) →
    Ensures (exponents v inner limit base) c fun e c' => Parsed v j levels c₀ e c' ∧ 5 ≤ e.rank ∧
      StartsTight c₀ e ∧ startsPower c'.lexemes = false
  | 0, base, c, hc, hlimit, hp, hr, hstart, hneg => by
    have hnil : c.lexemes = [] := List.length_eq_zero_iff.1 (Nat.le_zero.1 hlimit)
    exact Ensures.pure ⟨hp, hr, hstart, by rw [hnil]; rfl⟩
  | limit + 1, base, c, hc, hlimit, hp, hr, hstart, hneg => by
    unfold exponents
    refine Ensures.bind (Ensures.takeIf (fun hpow => ?_) (fun hpow => ?_))
    · obtain ⟨text, s, ls, hrow⟩ := Cursor.exists_of_kind? hpow
      have hadv := Cursor.passes_advance hrow
      have hpower : startsPower c.lexemes = true := by simp [startsPower, hpow]
      rw [if_pos rfl]
      refine Ensures.bind ((ensures_exponent (j := j) hinner (hadv.genuine hc)).mono fun b c₁ hb => ?_)
      obtain ⟨hbg, hbn, hbpass, hbexp, hbneg⟩ := hb
      have hpass := hadv.trans hbpass
      refine ensures_exponents hinner limit (hpass.genuine hc)
        (Nat.le_of_lt_succ (Nat.lt_of_lt_of_le hpass.shorter hlimit)) ?_ (Nat.le_refl 5) hstart ?_
      · refine ⟨⟨⟨hr, ?_, hbexp⟩, hp.grammatical, hbg⟩, Nat.max_le.2 ⟨hp.nesting, hbn⟩,
          hp.passes.trans hpass, fun s' rs hloose hassign => ?_⟩
        · cases hn : base.endsNegative with
          | false => rfl
          | true =>
            rw [hneg hn] at hpower
            exact Bool.noConfusion hpower
        · rw [Expr.row, List.append_assoc, List.append_assoc]
          refine hp.start s' _ (isLoose_cons _ (by simp)) ?_
          rw [startsAssign_of_kind hpow rfl]
          rfl
      · intro hn
        cases b with
        | literal value => exact hbneg value rfl hn
        | _ => exact Bool.noConfusion hn
    · exact Ensures.pure ⟨hp, hr, hstart, by simpa [startsPower] using hpow⟩

theorem ensures_power (hinner : SoundInner v levels inner) (hc : c.Genuine) :
    Ensures (power v inner) c fun e c' => Parsed v j levels c e c' ∧ 5 ≤ e.rank ∧ StartsTight c e ∧
      startsPower c'.lexemes = false := by
  unfold power
  refine Ensures.bind ((ensures_primary (j := j) hinner hc).mono fun e c₁ h => ?_)
  refine Ensures.get_bind ?_
  obtain ⟨hp, hrank, hstart⟩ := h
  refine ensures_exponents hinner _ (hp.passes.genuine hc)
    (Nat.le_of_eq (Cursor.length_lexemes c₁)) hp (by omega) hstart fun hn => ?_
  rw [endsNegative_of_rank (by omega)] at hn
  exact Bool.noConfusion hn

/-- A sign before a power: it shows as it did, or it has come to touch a number. -/
theorem alike_sign {op : UnaryOp} {e : Expr} {text : String} {s s' : Bool} {ls rs : List Lexeme}
    {c' : Cursor} (hrow : c.lexemes = ⟨(op.lexeme true).kind, text, s⟩ :: ls)
    (hp : Parsed v j levels c.advance e c') (hr : 5 ≤ e.rank) (hloose : IsLoose rs)
    (hassign : startsAssign c'.lexemes = startsAssign rs) :
    Alike c.lexemes ((Expr.unary op e).row s' ++ rs) := by
  rw [Expr.row, List.cons_append]
  cases op with
  | plus =>
    refine Alike.of_eq ?_
    rw [hrow]
    exact (lead_of_kind (.operator .add) rfl (by simp) (by simp) _ _ _).trans
      (lead_of_kind (.operator .add) rfl (by simp) (by simp) _ _ _).symm
  | minus =>
    obtain ⟨kind, text', ks, hks, -, hrank⟩ := e.row_eq_cons hp.grammatical false
    rw [hks, List.cons_append]
    have hout := startsMinusNumber_minus s' kind text' (ks ++ rs)
    by_cases hm : startsMinusNumber c.lexemes = true
    · -- the number that the minus touches starts the power
      refine Alike.of_eq ((lead_minusNumber hm).trans (lead_minusNumber ?_).symm)
      rw [hout]
      have hnum : lead c.advance.lexemes = .number := by
        rw [Cursor.lexemes_advance hrow]
        rw [hrow] at hm
        cases ls with
        | nil => exact Bool.noConfusion hm
        | cons n ns =>
          simp only [startsMinusNumber, Bool.and_eq_true] at hm
          exact lead_number _ hm.1.2
      have hne : startsMinusNumber (⟨kind, text', false⟩ :: (ks ++ rs)) = false :=
        startsMinusNumber_cons_of_ne fun h => (hrank hr).1 ⟨.sub, h⟩
      rcases hp.start false rs hloose hassign with h | ⟨h, -⟩
      · rw [hnum, hks, List.cons_append, lead, hne, Bool.or_false] at h
        by_cases hk : kind.isNumber = true
        · exact hk
        · rw [if_neg hk] at h
          split at h <;> cases h
      · rw [hnum] at h
        cases h
    · have hsrc : lead c.lexemes = .other (.operator .sub) := by
        rw [hrow] at hm ⊢
        exact lead_other rfl (by rintro ⟨⟩) (by simpa using hm)
      by_cases hk : kind.isNumber = true
      · exact Or.inr ⟨hsrc, by rw [hout, hk]⟩
      · refine Alike.of_eq (hsrc.trans ?_)
        exact (lead_other (l := UnaryOp.minus.lexeme s') rfl (by rintro ⟨⟩) (by rw [hout]; simpa using hk)).symm

theorem ensures_signed (hinner : SoundInner v levels inner) (hc : c.Genuine) :
    Ensures (signed v inner) c fun e c' => Parsed v j levels c e c' ∧ 4 ≤ e.rank ∧
      startsPower c'.lexemes = false ∧
      ((∀ op, Lexeme.kind? c.lexemes ≠ some (.operator op)) → 5 ≤ e.rank ∧ StartsTight c e) := by
  intro e c' hrun
  cases hat : c.isAtNegativeLiteral with
  | true =>
    rw [signed_negative hat] at hrun
    obtain ⟨value, rfl, hp, hpow⟩ := @ensures_negative v levels j c hc hat e c' hrun
    refine ⟨hp, ?_, hpow, fun hop => ?_⟩
    · rw [Expr.rank]
      split <;> decide
    · rw [Cursor.isAtNegativeLiteral_eq, startsMinusNumber_of_ne_operator hop] at hat
      exact Bool.noConfusion hat
  | false =>
    cases hs : c.sign? with
    | none =>
      rw [signed_none hat hs] at hrun
      obtain ⟨hp, hrank, hstart, hpow⟩ := ensures_power (j := j) hinner hc e c' hrun
      exact ⟨hp, by omega, hpow, fun _ => ⟨hrank, hstart⟩⟩
    | some op =>
      have hk := kind?_of_sign? hs
      obtain ⟨text, s, ls, hrow⟩ := Cursor.exists_of_kind? hk
      have hpass := Cursor.passes_advance hrow
      rw [signed_sign hat hs] at hrun
      obtain ⟨p, c₁, h₁, hrun⟩ := ok_of_bind hrun
      obtain ⟨hp, hrank, -, hpow⟩ := ensures_power (j := j) hinner (hpass.genuine hc) p c₁ h₁
      cases hrun
      refine ⟨⟨⟨hrank, hp.grammatical⟩, hp.nesting, hpass.trans hp.passes, fun s' rs hl ha =>
        alike_sign hrow hp hrank hl ha⟩, Nat.le_refl 4, hpow, fun hop => ?_⟩
      exact absurd hk (by cases op <;> exact hop _)

/-! ### Operations -/

/-- Nothing at the row goes on with an operation of level `k` or more. -/
def Stops (j : Bool) (k : Nat) (ls : List Lexeme) : Prop :=
  startsPower ls = false ∧ ∀ op, Lexeme.operation? j ls = some op → op.level < k

/-- What the parser of the operands of level `k` gives.  Without a sign it may be a factor. -/
def SoundAt (v : Vocabulary) (j : Bool) (levels k : Nat) (operand : Parser Expr) : Prop :=
  ∀ c : Cursor, c.Genuine → Ensures operand c fun e c' => Parsed v j levels c e c' ∧ k ≤ e.rank ∧
    Stops j k c'.lexemes ∧
    (k = 4 → (∀ op, Lexeme.kind? c.lexemes ≠ some (.operator op)) → 5 ≤ e.rank ∧ StartsTight c e)

theorem level_of_operation? {ls : List Lexeme} {op : BinaryOp}
    (h : Lexeme.operation? j ls = some op) : op.level < 4 := by
  unfold Lexeme.operation? at h
  cases hk : Lexeme.kind? ls with
  | none => simp [hk] at h
  | some kind =>
    rw [hk, Option.bind_some] at h
    unfold operationOf? at h
    split at h
    · split at h
      · cases h
      · rename_i op' hop
        cases h
        cases op <;> simp_all [BinaryOp.level]
    · split at h
      · cases h
        decide
      · cases h

/-- An operation that is written, or two factors that stand next to each other. -/
theorem kind?_of_operation? {ls : List Lexeme} {op : BinaryOp}
    (h : Lexeme.operation? j ls = some op) :
    op ≠ .pow ∧ (op ≠ .juxtaposed → Lexeme.kind? ls = some (.operator op)) ∧
      (op = .juxtaposed → j = true ∧ ∃ kind, Lexeme.kind? ls = some kind ∧ ¬kind.IsOperator ∧
        kind.startsOperand = true) := by
  unfold Lexeme.operation? at h
  cases hk : Lexeme.kind? ls with
  | none => simp [hk] at h
  | some kind =>
    rw [hk, Option.bind_some] at h
    unfold operationOf? at h
    split at h
    · rename_i op' _
      split at h
      · cases h
      · rename_i hne
        cases h
        refine ⟨fun h => hne (Or.inl h), fun _ => rfl, fun h => absurd (Or.inr (Or.inl h)) hne⟩
    · rename_i hop
      split at h
      · rename_i hj
        cases h
        rw [Bool.and_eq_true] at hj
        exact ⟨by simp, fun h => absurd rfl h, fun _ =>
          ⟨hj.1, kind, rfl, by rintro ⟨o, ho⟩; exact hop o ho, hj.2⟩⟩
      · cases h

theorem groups_of_operation? {c₁ : Cursor} {op : BinaryOp} {lhs rhs : Expr} {k : Nat}
    (hop : Lexeme.operation? j c.lexemes = some op) (hk : op.level = k) (hl : k ≤ lhs.rank)
    (hr : k + 1 ≤ rhs.rank) (hskip : skipSymbol op c = .ok () c₁)
    (hfactor : k + 1 = 4 → (∀ o, Lexeme.kind? c₁.lexemes ≠ some (.operator o)) →
      5 ≤ rhs.rank ∧ StartsTight c₁ rhs) : op.Groups j lhs rhs := by
  obtain ⟨hpow, -, hjux⟩ := kind?_of_operation? hop
  cases op with
  | pow => exact absurd rfl hpow
  | juxtaposed =>
    obtain ⟨hj, kind, hkind, hnop, hstart⟩ := hjux rfl
    cases hskip
    have hk3 : k + 1 = 4 := by rw [← hk]; rfl
    obtain ⟨h5, kind', hkind', -, hfac⟩ := hfactor hk3 fun o ho => hnop ⟨o, by
      rw [hkind] at ho
      exact Option.some.inj ho⟩
    rw [hkind] at hkind'
    cases hkind'
    refine ⟨hj, ?_, h5, by rw [hfac, hstart]⟩
    have h3 : k = 3 := by omega
    omega
  | _ => exact ⟨by rw [hk]; exact hl, by rw [hk]; exact hr⟩

theorem skipSymbol_run {op : BinaryOp} (hop : Lexeme.operation? j c.lexemes = some op) :
    ∃ c₁, skipSymbol op c = .ok () c₁ ∧ c₁.lexemes <:+ c.lexemes := by
  obtain ⟨-, hkind, -⟩ := kind?_of_operation? hop
  by_cases hjux : op = .juxtaposed
  · subst hjux
    exact ⟨c, rfl, List.suffix_refl _⟩
  · obtain ⟨text, s, ls, hrow⟩ := Cursor.exists_of_kind? (hkind hjux)
    refine ⟨c.advance, ?_, (Cursor.passes_advance hrow).suffix⟩
    rw [skipSymbol, if_neg hjux]
    rfl

/-- What follows the left operand in the text and in the writing is not an assignment. -/
theorem startsAssign_operation {op : BinaryOp} {rhs : Expr} {rs : List Lexeme}
    (hop : Lexeme.operation? j c.lexemes = some op) (hg : rhs.Grammatical v j) :
    startsAssign c.lexemes = startsAssign (op.row ++ (rhs.row true ++ rs)) := by
  obtain ⟨-, hkind, hjux⟩ := kind?_of_operation? hop
  have hsrc : startsAssign c.lexemes = false := by
    by_cases h : op = .juxtaposed
    · obtain ⟨-, kind, hk, -, hstart⟩ := hjux h
      refine startsAssign_of_kind hk ?_
      cases kind with
      | assign op => exact Bool.noConfusion hstart
      | _ => rfl
    · exact startsAssign_of_kind (hkind h) rfl
  obtain ⟨kind, text, ls, hrow, hstart, -⟩ := rhs.row_eq_cons hg true
  have hout : startsAssign (op.row ++ (rhs.row true ++ rs)) = false := by
    rw [hrow]
    cases op with
    | juxtaposed =>
      refine startsAssign_of_kind (kind?_cons _ _) ?_
      cases kind with
      | assign op => exact Bool.noConfusion hstart
      | _ => rfl
    | _ => rfl
  rw [hsrc, hout]

theorem ensures_operations {operand : Parser Expr} {k : Nat} (hoperand : SoundAt v j levels (k + 1) operand)
    {c₀ : Cursor} : (limit : Nat) → {lhs : Expr} → {c : Cursor} → c.Genuine →
    c.lexemes.length ≤ limit → Parsed v j levels c₀ lhs c → k ≤ lhs.rank → Stops j (k + 1) c.lexemes →
    Ensures (operations j k operand limit lhs) c fun e c' => Parsed v j levels c₀ e c' ∧ k ≤ e.rank ∧
      Stops j k c'.lexemes
  | 0, lhs, c, hc, hlimit, hp, hr, hstop => by
    have hnil : c.lexemes = [] := List.length_eq_zero_iff.1 (Nat.le_zero.1 hlimit)
    exact Ensures.pure ⟨hp, hr, hstop.1, by rw [hnil]; rintro _ ⟨⟩⟩
  | limit + 1, lhs, c, hc, hlimit, hp, hr, hstop => by
    unfold operations
    refine Ensures.get_bind ?_
    rw [Cursor.operation?_eq]
    cases hop : Lexeme.operation? j c.lexemes with
    | none => exact Ensures.pure ⟨hp, hr, hstop.1, by rw [hop]; rintro _ ⟨⟩⟩
    | some op =>
      dsimp only
      by_cases hk : op.level = k
      · rw [if_pos hk]
        obtain ⟨c₁, hskip, hsuf⟩ := skipSymbol_run hop
        refine Ensures.bind fun u c₁' hu => ?_
        rw [hskip] at hu
        cases hu
        refine Ensures.bind ((hoperand c₁ (hc.of_suffix hsuf)).mono fun rhs c₂ h => ?_)
        obtain ⟨hp', hr', hstop', hfactor⟩ := h
        have hpass : c.Passes c₂ :=
          ⟨hp'.passes.suffix.trans hsuf, Nat.lt_of_lt_of_le hp'.passes.shorter hsuf.length_le⟩
        refine ensures_operations hoperand limit (hpass.genuine hc)
          (Nat.le_of_lt_succ (Nat.lt_of_lt_of_le hpass.shorter hlimit)) ?_ (Nat.le_of_eq hk.symm) hstop'
        refine ⟨⟨groups_of_operation? hop hk hr hr' hskip hfactor, hp.grammatical, hp'.grammatical⟩,
          Nat.max_le.2 ⟨hp.nesting, hp'.nesting⟩, hp.passes.trans hpass, fun s rs _ _ => ?_⟩
        rw [Expr.row, List.append_assoc, List.append_assoc]
        exact hp.start s _ (isLoose_row hp'.grammatical rs) (startsAssign_operation hop hp'.grammatical)
      · rw [if_neg hk]
        refine Ensures.pure ⟨hp, hr, hstop.1, fun op' hop' => ?_⟩
        rw [hop] at hop'
        cases hop'
        have := hstop.2 op hop
        omega

theorem soundAt_grouped {operand : Parser Expr} {k : Nat} (hk : k ≤ 3)
    (h : SoundAt v j levels (k + 1) operand) : SoundAt v j levels k (grouped j k operand) := by
  intro c hc
  unfold grouped
  refine Ensures.bind ((h c hc).mono fun lhs c₁ h₁ => ?_)
  refine Ensures.get_bind ?_
  obtain ⟨hp, hr, hstop, -⟩ := h₁
  refine (ensures_operations h _ (hp.passes.genuine hc) (Nat.le_of_eq (Cursor.length_lexemes c₁)) hp
    (Nat.le_of_succ_le hr) hstop).mono fun e c' he => ⟨he.1, he.2.1, he.2.2, fun h4 => ?_⟩
  omega

theorem soundAt_signed (hinner : SoundInner v levels inner) :
    SoundAt v j levels 4 (signed v inner) := by
  intro c hc
  refine (ensures_signed (j := j) hinner hc).mono fun e c' h => ?_
  exact ⟨h.1, h.2.1, ⟨h.2.2.1, fun op hop => level_of_operation? hop⟩, fun _ => h.2.2.2⟩

theorem soundAt_comparison (hinner : SoundInner v levels inner) :
    SoundAt v j levels 1 (comparison v inner j) :=
  soundAt_grouped (by decide) (soundAt_grouped (by decide) (soundAt_grouped (by decide)
    (soundAt_signed hinner)))

theorem soundInner_expression (v : Vocabulary) : (levels : Nat) →
    SoundInner v levels (expression v levels true)
  | 0 => fun _ _ => Ensures.fail _ _
  | levels + 1 => fun c hc =>
    (soundAt_comparison (soundInner_expression v levels) c hc).mono fun _ _ h =>
      ⟨h.1.grammatical, Nat.lt_succ_of_le h.1.nesting, h.1.passes⟩

/-- **What is read is grammatical.**  It is nested less deep than the limit, it starts as it is
written, and nothing goes on behind it. -/
theorem ensures_expression (hc : c.Genuine) (levels : Nat) :
    Ensures (expression v levels j) c fun e c' =>
      Parsed v j (levels - 1) c e c' ∧ e.nesting < levels ∧ Stops j 1 c'.lexemes := by
  cases levels with
  | zero => exact Ensures.fail _ _
  | succ levels =>
    refine (soundAt_comparison (soundInner_expression v levels) c hc).mono fun e c' h => ?_
    exact ⟨h.1, Nat.lt_succ_of_le h.1.nesting, h.2.2.1⟩

end Parser

end ControlFile
