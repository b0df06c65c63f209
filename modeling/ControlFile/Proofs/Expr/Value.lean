import ControlFile.Proofs.Expr.Lookahead
import ControlFile.Proofs.Expr.Row

/-!
# Written values are read back

A literal that has been written is read again with its minus, and so are a place for a value and
the error estimate of an equation.  What follows must not be taken for a part of it: `EndsValue` and
`EndsPlace` say so.  An equation is read if its body is (`equation_row`).
-/

namespace ControlFile

open Lexeme ControlFile.Parser

/-! ### Literals -/

namespace Literal

theorem unquote_quoted (text : String) : unquote ("\"" ++ text ++ "\"") = text := by
  simp [unquote]

/-- The token of a literal stands for it, with the minus that is written before it. -/
theorem literal_token {value : Literal} (h : value.Legible) {t : Token}
    (hk : t.kind = value.magnitude.1) (ht : t.text = value.magnitude.2) :
    t.literal value.isNegative = .ok value := by
  cases value with
  | integer n =>
    simp only [magnitude] at hk ht
    simp only [Token.literal, hk, ht, Decimal.digitsValue_toString, isNegative]
    have hn : (if decide (n < 0) = true then -(n.natAbs : Int) else n.natAbs) = n := by
      by_cases hneg : n < 0
      · rw [decide_eq_true hneg, if_pos rfl]
        omega
      · rw [decide_eq_false hneg, if_neg Bool.false_ne_true]
        omega
    have hfits : fitsInteger n = true := h
    rw [hn, if_pos hfits]
  | decimal x =>
    obtain ⟨b, hb⟩ := Binary.exists_ofFloat? h
    simp only [magnitude, hb, Option.map_some, Option.getD_some] at hk ht
    obtain ⟨y, hy, hx⟩ := Shortest.readNumber?_magnitudeText hb
    simp only [Token.literal, hk, ht, String.toList_ofList, hy, isNegative, hb, Option.map_some,
      Option.getD_some, hx]
  | string text =>
    simp only [magnitude] at hk ht
    simp only [Token.literal, hk, ht, unquote_quoted]

/-- With a minus before it, the token of an unsigned number stands for the negated number. -/
theorem literal_token_negated {value : Literal} (h : value.isUnsigned = true) {t : Token}
    (hk : t.kind = value.magnitude.1) (ht : t.text = value.magnitude.2) :
    t.literal true = .ok value.negated := by
  simp only [isUnsigned, Bool.and_eq_true, Bool.not_eq_true', decide_eq_true_eq] at h
  obtain ⟨⟨hnum, hneg⟩, hleg⟩ := h
  have hlit := literal_token hleg hk ht
  rw [hneg] at hlit
  cases value with
  | integer n =>
    simp only [magnitude] at hk ht
    simp only [Token.literal, hk, ht, Decimal.digitsValue_toString] at hlit ⊢
    simp only [isNegative, decide_eq_false_iff_not, Int.not_lt] at hneg
    have hn : (n.natAbs : Int) = n := by omega
    have hfits : fitsInteger (-n) = true := by
      simp only [Legible, fitsInteger, Bool.and_eq_true, decide_eq_true_eq] at hleg ⊢
      have hmin : Int64.minValue.toInt = -9223372036854775808 := by decide
      have hmax : Int64.maxValue.toInt = 9223372036854775807 := by decide
      omega
    rw [if_pos trivial, hn, if_pos hfits]
    rfl
  | decimal x =>
    simp only [magnitude] at hk ht
    simp only [Token.literal, hk] at hlit ⊢
    cases hr : Decimal.readNumber? t.text.toList with
    | none =>
      rw [hr] at hlit
      cases hlit
    | some y =>
      rw [hr] at hlit
      cases hlit
      rfl
  | string text => exact Bool.noConfusion hnum

end Literal

namespace Parser

theorem literal_of_token {c : Cursor} {l : Lexeme} {ls : List Lexeme} (hc : c.lexemes = l :: ls)
    {negative : Bool} {value : Literal}
    (h : ∀ t : Token, t.lexeme = l → t.literal negative = .ok value) :
    literal negative c = .ok value c.advance := by
  cases c with
  | mk rest lastEnd textEnd =>
    cases rest with
    | nil => simp [Cursor.lexemes] at hc
    | cons t ts =>
      simp only [Cursor.lexemes, List.map_cons, List.cons.injEq] at hc
      simp only [literal, h t hc.1]

/-- The number of a literal is read, its minus having been consumed. -/
theorem literal_magnitude {c : Cursor} {value : Literal} {s : Bool} {ls : List Lexeme}
    (hv : value.Legible) (hc : c.lexemes = ⟨value.magnitude.1, value.magnitude.2, s⟩ :: ls) :
    literal value.isNegative c = .ok value c.advance := by
  refine literal_of_token hc fun t ht => Literal.literal_token hv ?_ ?_
  · rw [← t.kind_lexeme, ht]
  · rw [← t.text_lexeme, ht]

theorem literal_magnitude_negated {c : Cursor} {value : Literal} {s : Bool} {ls : List Lexeme}
    (hv : value.isUnsigned = true)
    (hc : c.lexemes = ⟨value.magnitude.1, value.magnitude.2, s⟩ :: ls) :
    literal true c = .ok value.negated c.advance := by
  refine literal_of_token hc fun t ht => Literal.literal_token_negated hv ?_ ?_
  · rw [← t.kind_lexeme, ht]
  · rw [← t.text_lexeme, ht]

/-! ### Values and equations -/

/-- The parser succeeds with a result that looks like `b`, and stops before `rs`. -/
def ReadsTo {α β : Type} (p : Parser α) (c : Cursor) (view : α → β) (b : β) (rs : List Lexeme) :
    Prop :=
  Gives p c fun a c' => view a = b ∧ c'.lexemes = rs

/-- Nothing at the row is read as a value. -/
def EndsValue (rs : List Lexeme) : Prop :=
  startsMinusNumber rs = false ∧ ((Lexeme.kind? rs).map TokenKind.isLiteral).getD false = false

theorem isNumber_magnitude (value : Literal) : value.magnitude.1.isNumber = value.isNumber := by
  cases value <;> rfl

theorem isNumber_of_isNegative {value : Literal} (h : value.isNegative = true) :
    value.isNumber = true := by
  cases value with
  | string text => exact Bool.noConfusion h
  | _ => rfl

/-- A literal that has been written is read, with its minus. -/
theorem signedLiteral?_row {c : Cursor} {value : Literal} {s : Bool} {rs : List Lexeme}
    (hv : value.Legible) (hc : c.lexemes = value.row s ++ rs) :
    ReadsTo signedLiteral? c id (some value) rs := by
  unfold signedLiteral?
  refine Gives.get_bind ?_
  rw [Cursor.isAtMinusNumber_eq, Cursor.kind?_eq]
  unfold Literal.row withMinus at hc
  cases hneg : value.isNegative with
  | true =>
    rw [hneg, if_pos rfl] at hc
    have hm : startsMinusNumber c.lexemes = true := by
      rw [hc]
      simp [startsMinusNumber, isNumber_magnitude, isNumber_of_isNegative hneg, ofChar, Lexer.single]
    rw [if_pos hm]
    have hadv := Cursor.lexemes_advance hc
    refine Gives.advance_bind ⟨some value, c.advance.advance, ?_, rfl, Cursor.lexemes_advance hadv⟩
    have hlit := literal_magnitude hv hadv
    rw [hneg] at hlit
    rw [bind_of_ok hlit]
    rfl
  | false =>
    rw [hneg, if_neg Bool.false_ne_true] at hc
    have hkind : value.magnitude.1.isLiteral = true := value.kind_magnitude
    have hm : startsMinusNumber c.lexemes = false := by
      rw [hc, List.singleton_append]
      have hne : value.magnitude.1 ≠ .operator .sub := by
        intro h
        rw [h] at hkind
        exact Bool.noConfusion hkind
      cases rs <;> simp [startsMinusNumber, hne]
    rw [if_neg (by simp [hm]), hc, List.singleton_append, kind?_cons]
    simp only [Option.map_some, hkind, Option.getD_some, if_true]
    refine ⟨some value, c.advance, ?_, rfl, Cursor.lexemes_advance hc⟩
    have hlit := literal_magnitude hv hc
    rw [hneg] at hlit
    rw [bind_of_ok hlit]
    rfl

theorem signedLiteral?_none {c : Cursor} (h : EndsValue c.lexemes) :
    signedLiteral? c = .ok none c := by
  have h1 : c.isAtMinusNumber = false := by rw [Cursor.isAtMinusNumber_eq]; exact h.1
  have h2 : ((c.kind?).map TokenKind.isLiteral).getD false = false := by
    rw [Cursor.kind?_eq]; exact h.2
  change (if c.isAtMinusNumber then _ else if ((c.kind?).map TokenKind.isLiteral).getD false then _
    else _ : Parser (Option Literal)) c = _
  rw [h1, h2]
  rfl

theorem literalValue_row {c : Cursor} {value : Value} {s : Bool} {rs : List Lexeme}
    (hv : value.IsPlain) (hc : c.lexemes = value.row s ++ rs)
    (hend : value = .absent → EndsValue rs) : ReadsTo literalValue c id value rs := by
  unfold literalValue
  cases value with
  | absent =>
    rw [Value.row, List.nil_append] at hc
    refine ⟨.absent, c, ?_, rfl, hc⟩
    rw [bind_of_ok (signedLiteral?_none (hc ▸ hend rfl))]
    rfl
  | literal value =>
    obtain ⟨a, c', hrun, rfl, hc'⟩ := signedLiteral?_row hv hc
    refine ⟨.literal value, c', ?_, rfl, hc'⟩
    rw [bind_of_ok hrun]
    rfl
  | equation e => exact hv.elim

/-- At a name for a parameter. -/
def startsParameterName (v : Vocabulary) : List Lexeme → Bool
  | l :: _ => l.kind == .ident && !v.isReserved l.text || l.kind == .directive .unique
  | [] => false

theorem isAtParameterName_eq (v : Vocabulary) (c : Cursor) :
    c.isAtParameterName v = startsParameterName v c.lexemes := by
  cases c with
  | mk rest lastEnd textEnd =>
    cases rest with
    | nil => rfl
    | cons t ts =>
      simp only [Cursor.isAtParameterName, Cursor.peek?, List.getElem?_cons_zero, Cursor.lexemes,
        List.map_cons, startsParameterName, Token.kind_lexeme, Token.text_lexeme]
      split <;> simp_all

theorem parameterName?_row {v : Vocabulary} {c : Cursor} {name : Option String} {s : Bool}
    {rs : List Lexeme} (hn : IsParameterName v name)
    (hc : c.lexemes = (name.map (nameLexeme s)).toList ++ rs)
    (hend : name = none → startsParameterName v rs = false) :
    ReadsTo (parameterName? v) c id name rs := by
  unfold parameterName?
  refine Gives.get_bind ?_
  rw [isAtParameterName_eq]
  cases name with
  | none =>
    rw [Option.map_none, Option.toList_none, List.nil_append] at hc
    rw [hc, hend rfl]
    exact ⟨none, c, rfl, rfl, hc⟩
  | some n =>
    rw [Option.map_some, Option.toList_some, List.singleton_append] at hc
    have hstart : startsParameterName v c.lexemes = true := by
      rw [hc]
      rcases hn with rfl | ⟨hn, hr⟩
      · simp [startsParameterName, nameLexeme]
      · simp [startsParameterName, hn.nameLexeme_eq, hr]
    rw [hstart, if_pos rfl]
    refine ⟨some n, c.advance, ?_, rfl, Cursor.lexemes_advance hc⟩
    rw [bind_of_ok (takeText_run hc)]
    rfl

theorem refinement_row {c : Cursor} {r : Refinement} {s : Bool} {rs : List Lexeme}
    (hc : c.lexemes = r.row s ++ rs)
    (hend : r = .plain →
      Lexeme.kind? rs ≠ some (.mark .atSign) ∧ Lexeme.kind? rs ≠ some (.mark .bang)) :
    ReadsTo refinement c id r rs := by
  unfold refinement
  cases r with
  | plain =>
    rw [Refinement.row, List.nil_append] at hc
    refine ⟨.plain, c, ?_, rfl, hc⟩
    rw [bind_of_ok (takeIf_neg (hc ▸ (hend rfl).1)), if_neg Bool.false_ne_true,
      bind_of_ok (takeIf_neg (hc ▸ (hend rfl).2))]
    rfl
  | refined =>
    rw [Refinement.row, List.singleton_append] at hc
    refine ⟨.refined, c.advance, ?_, rfl, Cursor.lexemes_advance hc⟩
    rw [bind_of_ok (takeIf_pos (by rw [hc]; rfl)), if_pos rfl]
    rfl
  | unrefined =>
    rw [Refinement.row, List.singleton_append] at hc
    refine ⟨.unrefined, c.advance, ?_, rfl, Cursor.lexemes_advance hc⟩
    have hne : Lexeme.kind? c.lexemes ≠ some (.mark .atSign) := by rw [hc]; rintro ⟨⟩
    have hat : Lexeme.kind? c.lexemes = some (.mark .bang) := by rw [hc]; rfl
    rw [bind_of_ok (takeIf_neg hne), if_neg Bool.false_ne_true, bind_of_ok (takeIf_pos hat)]
    rfl

/-- What follows a place is not read as its name or value. -/
def EndsPlace (v : Vocabulary) (name : Option String) (value : Value) (rs : List Lexeme) : Prop :=
  value = .absent → EndsValue rs ∧ (name = none → startsParameterName v rs = false)

theorem startsParameterName_literal (v : Vocabulary) (value : Literal) (s : Bool)
    (rs : List Lexeme) : startsParameterName v (value.row s ++ rs) = false := by
  unfold Literal.row withMinus
  cases hneg : value.isNegative with
  | true => rfl
  | false => cases value <;> rfl

/-- The name and the literal of a place are read. -/
theorem place_row {v : Vocabulary} {c : Cursor} {name : Option String} {value : Value} {s t : Bool}
    {rs : List Lexeme} (hn : IsParameterName v name) (hv : value.IsPlain)
    (hc : c.lexemes = (name.map (nameLexeme s)).toList ++ value.row t ++ rs)
    (hend : EndsPlace v name value rs) :
    Gives (parameterName? v) c fun n c' => n = name ∧ ReadsTo literalValue c' id value rs := by
  rw [List.append_assoc] at hc
  have hname : name = none → startsParameterName v (value.row t ++ rs) = false := by
    intro h
    cases value with
    | absent => exact (hend rfl).2 h
    | literal value => exact startsParameterName_literal v value t rs
    | equation e => exact hv.elim
  obtain ⟨n, c', hrun, rfl, hc'⟩ := parameterName?_row hn hc hname
  exact ⟨n, c', hrun, rfl, literalValue_row hv hc' fun h => (hend h).1⟩

theorem markedParameter_row {v : Vocabulary} {c : Cursor} {p : Parameter} {s : Bool}
    {rs : List Lexeme} (hp : p.IsMarked v) (hc : c.lexemes = p.row s ++ rs)
    (hend : EndsPlace v p.name p.value rs) : ReadsTo (markedParameter v) c id p rs := by
  obtain ⟨r, name, value⟩ := p
  obtain ⟨hr, hn, hv⟩ := hp
  rw [Parameter.row, List.append_assoc, List.append_assoc] at hc
  obtain ⟨a, c', hrun, rfl, hc'⟩ := refinement_row hc fun h => absurd h hr
  rw [← List.append_assoc] at hc'
  obtain ⟨n, c'', hrun', rfl, m, c''', hrun'', rfl, hc''⟩ := place_row hn hv hc' hend
  refine ⟨⟨_, n, m⟩, c''', ?_, rfl, hc''⟩
  unfold markedParameter
  rw [bind_of_ok hrun, bind_of_ok hrun', bind_of_ok hrun'']
  rfl

theorem uncertainty_row {c : Cursor} {u : Uncertainty} {s : Bool} {rs : List Lexeme}
    (hu : u.Legible) (hc : c.lexemes = u.row s ++ rs) : ReadsTo uncertainty c id u rs := by
  unfold uncertainty
  refine Gives.get_bind ?_
  rw [Cursor.isAt_eq]
  cases u with
  | name n =>
    rw [Uncertainty.row, List.singleton_append] at hc
    rw [hc, kind?_cons, if_pos (by simp)]
    refine ⟨.name n, c.advance, ?_, rfl, Cursor.lexemes_advance hc⟩
    rw [bind_of_ok (takeText_run hc)]
    rfl
  | literal value =>
    obtain ⟨hv, hnum⟩ := hu
    obtain ⟨a, c', hrun, rfl, hc'⟩ := signedLiteral?_row hv hc
    have hne : Lexeme.kind? c.lexemes ≠ some .ident := by
      rw [hc, Uncertainty.row, Literal.row, withMinus]
      cases value.isNegative with
      | true => rintro ⟨⟩
      | false => cases value <;> rintro ⟨⟩
    rw [if_neg (by simpa using hne)]
    refine ⟨.literal value, c', ?_, rfl, hc'⟩
    rw [bind_of_ok hrun]
    cases value with
    | string text => exact Bool.noConfusion hnum
    | _ => rfl

/-- An equation is read if its body is. -/
theorem equation_row {inner : Parser Expr} {c : Cursor} {e : Equation} {s : Bool}
    {rs : List Lexeme} (hu : ∀ u, e.uncertainty = some u → u.Legible)
    (hbody : ∀ d ds, d.lexemes = e.body.row true ++ ofChar ';' false :: ds →
      ReadsTo inner d Expr.bare (e.body.foldSigns false).bare (ofChar ';' false :: ds))
    (hc : c.lexemes = e.row s ++ rs)
    (hend : e.uncertainty = none → Lexeme.kind? rs ≠ some (.mark .colon)) :
    ReadsTo (equation inner e.op) c Equation.bare e.foldSigns.bare rs := by
  obtain ⟨op, body, estimate⟩ := e
  rw [Equation.row, List.cons_append, List.append_assoc, List.cons_append] at hc
  have hadv := Cursor.lexemes_advance hc
  obtain ⟨b, c', hrun, hb, hc'⟩ := hbody _ _ hadv
  have hc'' := Cursor.lexemes_advance hc'
  unfold equation
  refine Gives.advance_bind (Gives.bind ⟨b, c', hrun, Gives.bind ⟨(), c'.advance, ?_, ?_⟩⟩)
  · exact expect_pos _ (by rw [hc']; rfl)
  cases estimate with
  | none =>
    rw [Option.map_none, Option.getD_none, List.nil_append] at hc''
    refine Gives.bind ⟨false, c'.advance, takeIf_neg (hc'' ▸ hend rfl), ?_⟩
    refine ⟨⟨op, b, none⟩, c'.advance, rfl, ?_, hc''⟩
    simp only [Equation.bare, Equation.foldSigns, hb]
  | some u =>
    rw [Option.map_some, Option.getD_some, Uncertainty.rowBehind, List.cons_append] at hc''
    obtain ⟨w, d, hrunu, rfl, hd⟩ := uncertainty_row (hu u rfl) (Cursor.lexemes_advance hc'')
    refine Gives.bind ⟨true, c'.advance.advance, takeIf_pos (by rw [hc'']; rfl), ?_⟩
    refine ⟨⟨op, b, some w⟩, d, ?_, ?_, hd⟩
    · rw [if_pos rfl, bind_of_ok hrunu]
      rfl
    · simp only [Equation.bare, Equation.foldSigns, hb]
      rfl

end Parser

end ControlFile
