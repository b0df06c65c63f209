import ControlFile.Proofs.Expr.Unambiguous
import ControlFile.Proofs.Macro.Ordinary
import ControlFile.Proofs.Number.Refused
import ControlFile.Proofs.Token.LexicalWord

/-!
# First words

The first word of an argument is cut from its writing at the first blank, and then it is read back as an
item.  The writing has blanks inside strings and groups and between the arguments of a call, so what is cut
off need not be a word of the language: `"s t"` is cut in its quotes, and `f(1, 2)` behind the comma.

`Argument.opensWord` says what the writing has to start with: a name, a number with or without a sign, a
string with no blank in it, or the mark of a parameter.  Then the item that is emitted is written as one word
(`IsLexicalWord`), and otherwise it is not (`BodyOp.firstWord_isLexicalWord_iff`).
-/

namespace ControlFile

open Lexer Text

/-! ### The text before the first blank -/

namespace Text

/-- What stands before the first blank. -/
def lead (cs : List Char) : List Char := cs.takeWhile (!isBlank ·)

variable {as bs cs : List Char}

theorem not_isBlank_of_mem_lead {c : Char} (h : c ∈ lead cs) : isBlank c = false := by
  simpa using List.all_eq_true.1 List.all_takeWhile c h

theorem lead_append (h : ∀ c ∈ as, isBlank c = false) (bs : List Char) :
    lead (as ++ bs) = as ++ lead bs :=
  List.takeWhile_append_of_pos fun c hc => by rw [h c hc]; rfl

theorem lead_cons {c : Char} (h : isBlank c = false) (cs : List Char) : lead (c :: cs) = c :: lead cs :=
  lead_append (List.forall_mem_singleton.2 h) cs

theorem lead_of_solid (h : ∀ c ∈ cs, isBlank c = false) : lead cs = cs := by
  rw [← List.append_nil cs, lead_append h]
  rfl

/-- What stands behind a blank does not matter. -/
theorem lead_append_of_head (as : List Char) (hb : ∀ c ∈ bs.head?, isBlank c = true) :
    lead (as ++ bs) = lead as := by
  induction as with
  | nil =>
    cases bs with
    | nil => rfl
    | cons b bs =>
      have hblank := hb b rfl
      simp [lead, hblank]
  | cons a as ih =>
    unfold lead at ih ⊢
    by_cases ha : isBlank a = true
    · simp [ha]
    · simp [ha, ih]

/-- What stands behind a text with a blank in it does not matter. -/
theorem lead_append_of_not_solid (h : ¬∀ c ∈ as, isBlank c = false) (bs : List Char) :
    lead (as ++ bs) = lead as := by
  unfold lead
  rw [List.takeWhile_append, if_neg]
  intro hlength
  refine h fun c hc => ?_
  have hmem : c ∈ lead as := by rwa [lead, (List.takeWhile_prefix _).eq_of_length hlength]
  exact not_isBlank_of_mem_lead hmem

/-- A text that does not start with a blank starts with its first word. -/
theorem head?_words (h : lead cs ≠ []) : (words cs).head? = some (lead cs) := by
  cases cs with
  | nil => exact absurd rfl h
  | cons c cs =>
    by_cases hc : isBlank c = true
    · refine absurd ?_ h
      simp [lead, hc]
    · have hc : isBlank c = false := by simpa using hc
      rw [words_cons_other cs hc, lead_cons hc]
      rfl

end Text

/-! ### Texts without blanks -/

/-- A name is a letter, and then letters, digits and `_`. -/
theorem IsName.exists_cons {name : String} (h : IsName name) :
    ∃ c cs, name.toList = c :: cs ∧ c.isAlpha = true ∧ ∀ d ∈ cs, isWordChar d = true := by
  obtain ⟨c, cs, htext, hfirst⟩ := h
  have halpha : c.isAlpha = true := isAlpha_of_first (by rw [hfirst])
  refine ⟨c, cs, htext, halpha, ?_⟩
  have hword : (word c cs).2 = cs.length := by rw [← first_of_isAlpha halpha, hfirst]
  have hcount : countWhile isWordChar cs = cs.length := by
    rw [← hword, word]
    split <;> rfl
  have hall : cs.takeWhile isWordChar = cs := by
    rw [← take_countWhile, hcount, List.take_length]
  exact List.takeWhile_eq_self_iff.1 hall

theorem not_isBlank_of_isWordChar {c : Char} (h : isWordChar c = true) : isBlank c = false := by
  rw [isWordChar, Char.isAlphanum, Bool.or_eq_true, Bool.or_eq_true, beq_iff_eq] at h
  rcases h with (halpha | hdigit) | rfl
  · exact not_isBlank_of_isAlpha halpha
  · exact not_isBlank_of_isDigit hdigit
  · decide

theorem IsName.solid {name : String} (h : IsName name) : ∀ c ∈ name.toList, isBlank c = false := by
  obtain ⟨c, cs, htext, hc, hcs⟩ := h.exists_cons
  rw [htext]
  exact List.forall_mem_cons.2 ⟨not_isBlank_of_isAlpha hc, fun d hd => not_isBlank_of_isWordChar (hcs d hd)⟩

theorem solid_of_isDigits {ds : List Char} (h : Decimal.IsDigits ds) : ∀ d ∈ ds, isBlank d = false :=
  fun d hd => not_isBlank_of_isDigit (h d hd)

theorem solid_toString (e : Int) : ∀ c ∈ (toString e).toList, isBlank c = false := by
  rw [Decimal.toList_toString_int]
  refine List.forall_mem_append.2 ⟨?_, solid_of_isDigits (Decimal.isDigits_toDigits _)⟩
  split
  · exact List.forall_mem_singleton.2 (by decide)
  · simp

theorem Decimal.solid_numeral {whole fraction : List Char} (hw : IsDigits whole) (hf : IsDigits fraction)
    (e : Option Int) : ∀ c ∈ numeral whole fraction e, isBlank c = false := by
  rw [numeral]
  refine List.forall_mem_append.2 ⟨solid_of_isDigits hw, List.forall_mem_append.2 ⟨?_, ?_⟩⟩
  · split
    · simp
    · exact List.forall_mem_cons.2 ⟨by decide, solid_of_isDigits hf⟩
  · cases e with
    | none => simp [exponentText]
    | some e => exact List.forall_mem_cons.2 ⟨by decide, solid_toString e⟩

/-! ### Literals -/

namespace Literal

/-- Whether there is no blank in the literal. -/
def isSolid : Literal → Bool
  | .string text => text.toList.all (!isBlank ·)
  | _ => true

variable {value : Literal}

theorem toList_render (h : value.Legible) : value.render.toList =
    (if value.isNegative then ['-'] else []) ++ value.magnitude.2.toList := by
  rw [render_eq h, String.toList_append]
  cases value.isNegative <;> rfl

theorem solid_magnitude (h : value.Legible) (hsolid : value.isSolid = true) :
    ∀ c ∈ value.magnitude.2.toList, isBlank c = false := by
  cases value with
  | integer n => exact solid_toString n.natAbs
  | decimal x =>
    obtain ⟨b, hb⟩ := Binary.exists_ofFloat? h
    simp only [magnitude, hb, Option.map_some, Option.getD_some, String.toList_ofList]
    by_cases hm : b.mantissa = 0
    · rw [Shortest.magnitudeText_zero hm]
      exact Decimal.solid_numeral Shortest.isDigits_zero Shortest.isDigits_zero none
    · obtain ⟨whole, fraction, e, htext, hw, -, hf, -⟩ :=
        Shortest.magnitudeText_eq_numeral ((Binary.eq_ofBits_of_ofFloat? hb).2.2.1 hm)
      rw [htext]
      exact Decimal.solid_numeral hw hf e
  | string text =>
    have hquoted := isSolid_quoted.2 fun c hc => by simpa using List.all_eq_true.1 hsolid c hc
    rwa [← toList_render_string] at hquoted

theorem solid_render (h : value.Legible) (hsolid : value.isSolid = true) :
    ∀ c ∈ value.render.toList, isBlank c = false := by
  rw [toList_render h]
  refine List.forall_mem_append.2 ⟨?_, solid_magnitude h hsolid⟩
  split
  · exact List.forall_mem_singleton.2 (by decide)
  · simp

/-- A literal is one token, and a minus before it if it is negative. -/
theorem kinds_render (h : value.Legible) : kinds value.render.toList =
    (if value.isNegative then [.operator .sub] else []) ++ [value.magnitude.1] := by
  have hlexes := lexesAs_magnitude h
  rw [toList_render h]
  cases value.isNegative with
  | false => exact hlexes.kinds_eq
  | true =>
    obtain ⟨c, hhead, hne⟩ := hlexes.head_ne_equals (by cases value <;> rfl)
      (by cases value <;> simp [magnitude])
    have hsign : value.magnitude.2.toList.head? ≠ some '=' := by
      rw [hhead, Ne, Option.some.injEq]
      exact hne
    exact (Lexer.kinds_sign (.inr rfl) hsign).trans (congrArg _ hlexes.kinds_eq)

theorem isNumber_of_isNegative (h : value.isNegative = true) : value.isNumber = true := by
  cases value with
  | string text => cases h
  | _ => rfl

theorem areNumber_magnitude (value : Literal) : TokenKind.areNumber [value.magnitude.1] = value.isNumber := by
  cases value <;> rfl

/-- **A literal is one word.** -/
theorem isLexicalWord_render (h : value.Legible) : IsLexicalWord value.render := by
  rw [isLexicalWord_iff, kinds_render h]
  cases hnegative : value.isNegative with
  | true => exact (areNumber_magnitude value).trans (isNumber_of_isNegative hnegative)
  | false => cases value <;> rfl

/-- A string with a blank in it is cut before the blank, and so it is not closed. -/
theorem head?_kinds_lead (h : value.Legible) (hblank : value.isSolid = false) :
    (kinds (lead value.render.toList)).head? = some .invalid := by
  cases value with
  | string text =>
    have hinside : ¬∀ c ∈ text.toList, isBlank c = false := by simpa [isSolid] using hblank
    rw [toList_render_string, List.cons_append, lead_cons (by decide), lead_append_of_not_solid hinside]
    exact head?_kinds_unclosed fun hmem => h.1 ((List.takeWhile_sublist _).subset hmem)
  | _ => cases hblank

end Literal

/-! ### What an argument starts with -/

/-- The operand at the left end of the operations. -/
def Expr.firstOperand : Expr → Expr
  | .binary _ lhs _ => lhs.firstOperand
  | e => e

/-- The first operand is a number. -/
def Expr.opensNumber (e : Expr) : Bool :=
  match e.firstOperand with
  | .literal value => value.isNumber
  | _ => false

/-- The first operand is a name, a literal with no blank in it, or a sign with a number. -/
def Expr.opensWord (e : Expr) : Bool :=
  match e.firstOperand with
  | .literal value => value.isSolid
  | .ident name => name != uniqueMark
  | .unary _ operand => operand.opensNumber
  | _ => false

/-- The argument is a marked place, or an expression that starts with a word. -/
def Argument.opensWord : Argument → Bool
  | .parameter _ => true
  | .expr e => e.opensWord
  | .hole | .equation _ => false

namespace Expr

variable {v : Vocabulary} {j : Bool} {e : Expr}

theorem firstOperand_ne_binary {op : BinaryOp} {lhs rhs : Expr} :
    (e : Expr) → e.firstOperand ≠ .binary op lhs rhs
  | .binary _ l _ => firstOperand_ne_binary l
  | .literal _ | .ident _ | .call .. | .unary .. | .paren _ => by simp [firstOperand]

theorem Grammatical.firstOperand : {e : Expr} → e.Grammatical v j → e.firstOperand.Grammatical v j
  | .binary _ lhs _, h => Grammatical.firstOperand (e := lhs) h.2.1
  | .literal _, h | .ident _, h | .call .., h | .unary .., h | .paren _, h => h

/-- Only a power binds as tightly as the operand of a sign has to, and its base binds so too. -/
theorem rank_firstOperand : (e : Expr) → e.Grammatical v j → 5 ≤ e.rank → 5 ≤ e.firstOperand.rank
  | .binary op lhs _, h, hr => by
    have hgroups := h.1
    have hlevel : 5 ≤ op.level := hr
    refine rank_firstOperand lhs h.2.1 ?_
    cases op with
    | pow => exact hgroups.1
    | _ => exact absurd hlevel (by decide)
  | .literal _, _, hr | .ident _, _, hr | .call .., _, hr | .unary .., _, hr | .paren _, _, hr => hr

/-- **Up to the first blank** the expression is written as its first operand. -/
theorem lead_render : (e : Expr) → lead e.render.toList = lead e.firstOperand.render.toList
  | .binary op lhs rhs => by
    have hspaced : op.spaced.toList.head? = some ' ' := by cases op <;> rfl
    rw [firstOperand, ← lead_render lhs, render, String.toList_append, String.toList_append,
      List.append_assoc]
    refine lead_append_of_head _ fun c hc => ?_
    rw [List.head?_append, hspaced, Option.some_or, Option.mem_some_iff] at hc
    exact hc ▸ by decide
  | .literal _ | .ident _ | .call .. | .unary .. | .paren _ => rfl

/-! ### The first word of an operand -/

theorem lead_name {name : String} (h : IsName name) : lead (ident name).render.toList = name.toList := by
  rw [render]
  exact lead_of_solid h.solid

theorem lead_uniqueMark : lead (ident uniqueMark).render.toList = uniqueMark.toList := by
  rw [render]
  exact lead_of_solid (by simp [uniqueMark, isBlank, blankRanges])

theorem lead_call {name : String} (h : IsName name) (as : List Argument) (range : Extent) :
    ∃ cs, lead (call name as range).render.toList = name.toList ++ '(' :: cs := by
  refine ⟨lead ((Argument.renderFirst as).toList ++ [')']), ?_⟩
  have htext : (call name as range).render.toList =
      name.toList ++ '(' :: ((Argument.renderFirst as).toList ++ [')']) := by simp [render]
  rw [htext, lead_append h.solid, lead_cons (by decide)]

theorem lead_paren (inner : Expr) : ∃ cs, lead (paren inner).render.toList = '(' :: cs := by
  refine ⟨lead (inner.render.toList ++ [')']), ?_⟩
  have htext : (paren inner).render.toList = '(' :: (inner.render.toList ++ [')']) := by simp [render]
  rw [htext, lead_cons (by decide)]

theorem lead_unary (op : UnaryOp) (operand : Expr) : ∃ c, (c = '-' ∨ c = '+') ∧
    lead (unary op operand).render.toList = c :: lead operand.render.toList := by
  cases op with
  | plus =>
    refine ⟨'+', .inr rfl, ?_⟩
    rw [render, String.toList_append]
    exact lead_cons (by decide) _
  | minus =>
    refine ⟨'-', .inl rfl, ?_⟩
    rw [render, String.toList_append]
    exact lead_cons (by decide) _

end Expr

/-! ### The tokens of a first word -/

open TokenKind

/-- A sign touches what follows it. -/
theorem Expr.Legible.kinds_sign {e : Expr} (h : e.Legible) {c : Char} (hc : c = '-' ∨ c = '+') :
    kinds (c :: lead e.render.toList) = single c :: kinds (lead e.render.toList) := by
  obtain ⟨d, hd, hne⟩ := h.writes.starts
  refine Lexer.kinds_sign hc.symm fun hequals => hne ?_
  obtain ⟨ds, htext⟩ := List.head?_eq_some_iff.1 hd
  rw [htext, lead] at hequals
  by_cases hblank : isBlank d = true
  · simp [hblank] at hequals
  · simpa [hblank] using hequals

namespace Expr

variable {v : Vocabulary} {j : Bool} {e : Expr}

theorem kinds_name {name : String} (h : IsName name) :
    kinds (lead (ident name).render.toList) = [.ident] := by
  rw [lead_name h, LexesAs.kinds_eq h]

theorem kinds_uniqueMark : kinds (lead (ident uniqueMark).render.toList) = [.directive .unique] := by
  rw [lead_uniqueMark, lexesAs_uniqueMark.kinds_eq]

theorem kinds_call {name : String} (h : IsName name) (as : List Argument) (range : Extent) :
    ∃ ks, kinds (lead (call name as range).render.toList) = .ident :: .mark .openParen :: ks := by
  obtain ⟨cs, htext⟩ := lead_call h as range
  refine ⟨kinds cs, ?_⟩
  rw [htext, LexesAs.kinds_append h rfl (by simp) (closed_cons cs (by decide)), kinds_mark (by decide)]
  rfl

theorem kinds_paren (inner : Expr) :
    ∃ ks, kinds (lead (paren inner).render.toList) = .mark .openParen :: ks := by
  obtain ⟨cs, htext⟩ := lead_paren inner
  refine ⟨kinds cs, ?_⟩
  rw [htext, kinds_mark (by decide)]
  rfl

/-- **The operand of a sign** has one number as its first word exactly if it starts with a number. -/
theorem areNumber_lead (hg : e.Grammatical v j) (hr : 5 ≤ e.rank) :
    areNumber (kinds (lead e.render.toList)) = e.opensNumber := by
  have hfirst := hg.firstOperand
  have hrank := rank_firstOperand e hg hr
  rw [lead_render, opensNumber]
  generalize hf : e.firstOperand = f at hfirst hrank ⊢
  cases f with
  | literal value =>
    rw [render]
    cases hsolid : value.isSolid with
    | true =>
      have hpositive : value.isNegative = false := by
        refine Bool.eq_false_iff.2 fun hnegative => ?_
        rw [rank, if_pos hnegative] at hrank
        exact absurd hrank (by decide)
      rw [lead_of_solid (Literal.solid_render hfirst hsolid), Literal.kinds_render hfirst, hpositive]
      exact value.areNumber_magnitude
    | false =>
      rw [areNumber_of_head (Literal.head?_kinds_lead hfirst hsolid) rfl]
      cases value with
      | string text => rfl
      | _ => cases hsolid
  | ident name =>
    rcases hfirst with rfl | hname
    · rw [kinds_uniqueMark]
      rfl
    · rw [kinds_name hname]
      rfl
  | call name as range =>
    obtain ⟨ks, hks⟩ := kinds_call hfirst.1 as range
    rw [hks]
    rfl
  | paren inner =>
    obtain ⟨ks, hks⟩ := kinds_paren inner
    rw [hks]
    exact areNumber_of_head rfl rfl
  | unary op operand => exact absurd (show 5 ≤ 4 from hrank) (by decide)
  | binary op lhs rhs => exact absurd hf (firstOperand_ne_binary e)

/-- **The first word of an expression** is one word exactly if the first operand starts with one. -/
theorem areWord_lead (hg : e.Grammatical v j) :
    areWord (kinds (lead e.render.toList)) = e.opensWord := by
  have hfirst := hg.firstOperand
  rw [lead_render, opensWord]
  generalize hf : e.firstOperand = f at hfirst ⊢
  cases f with
  | literal value =>
    rw [render]
    cases hsolid : value.isSolid with
    | true =>
      rw [lead_of_solid (Literal.solid_render hfirst hsolid)]
      exact (Literal.isLexicalWord_render hfirst).trans hsolid.symm
    | false =>
      rw [areWord_invalid (Literal.head?_kinds_lead hfirst hsolid)]
      exact hsolid.symm
  | ident name =>
    rcases hfirst with rfl | hname
    · rw [kinds_uniqueMark]
      rfl
    · rw [kinds_name hname]
      simpa [areWord] using IsName.ne_uniqueMark hname
  | call name as range =>
    obtain ⟨ks, hks⟩ := kinds_call hfirst.1 as range
    rw [hks]
    rfl
  | paren inner =>
    obtain ⟨ks, hks⟩ := kinds_paren inner
    rw [hks]
    cases ks <;> rfl
  | unary op operand =>
    obtain ⟨c, hc, htext⟩ := lead_unary op operand
    rw [htext, hfirst.2.legible.kinds_sign hc, areWord_sign hc, areNumber_lead hfirst.2 hfirst.1]
  | binary op lhs rhs => exact absurd hf (firstOperand_ne_binary e)

end Expr

/-! ### First words that are no numbers -/

namespace Expr

variable {v : Vocabulary} {j : Bool} {e : Expr}

open Decimal

/-- What a first operand is: a sign with its operand, a number, a name, or something that shows a character
that numbers are not written with. -/
theorem firstOperand_cases (hg : e.Grammatical v j) :
    (∃ op operand, e.firstOperand = .unary op operand) ∨
    (∃ value, e.firstOperand = .literal value ∧ value.isNumber = true) ∨
    (∃ name, e.firstOperand = .ident name ∧ IsName name) ∨
    ∃ c ∈ lead e.firstOperand.render.toList, isNumeric c = false := by
  have hfirst := hg.firstOperand
  generalize hf : e.firstOperand = f at hfirst ⊢
  cases f with
  | literal value =>
    cases value with
    | string text =>
      refine .inr (.inr (.inr ⟨'\x22', ?_, by decide⟩))
      rw [render, Literal.toList_render_string, List.cons_append, lead_cons (by decide)]
      exact List.mem_cons_self
    | _ => exact .inr (.inl ⟨_, rfl, rfl⟩)
  | ident name =>
    rcases hfirst with rfl | hname
    · refine .inr (.inr (.inr ⟨'#', ?_, by decide⟩))
      rw [lead_uniqueMark]
      exact List.mem_cons_self
    · exact .inr (.inr (.inl ⟨name, rfl, hname⟩))
  | call name as range =>
    obtain ⟨cs, htext⟩ := lead_call hfirst.1 as range
    exact .inr (.inr (.inr ⟨'(', by simp [htext], by decide⟩))
  | paren inner =>
    obtain ⟨cs, htext⟩ := lead_paren inner
    exact .inr (.inr (.inr ⟨'(', by simp [htext], by decide⟩))
  | unary op operand => exact .inl ⟨op, operand, rfl⟩
  | binary op lhs rhs => exact absurd hf (firstOperand_ne_binary e)

theorem lead_ne_nil (hg : e.Grammatical v j) : lead e.render.toList ≠ [] := by
  have hfirst := hg.firstOperand
  rw [lead_render]
  rcases firstOperand_cases hg with ⟨op, operand, h⟩ | ⟨value, h, hvalue⟩ | ⟨name, h, hname⟩ | ⟨c, hmem, -⟩
  · obtain ⟨c, -, htext⟩ := lead_unary op operand
    rw [h, htext]
    exact List.cons_ne_nil c _
  · rw [h] at hfirst ⊢
    have hsolid : value.isSolid = true := by
      cases value with
      | string text => cases hvalue
      | _ => rfl
    intro hnil
    have hkinds := Literal.kinds_render hfirst
    rw [← lead_of_solid (Literal.solid_render hfirst hsolid), ← render, hnil, kinds_nil] at hkinds
    exact List.append_ne_nil_of_right_ne_nil _ (List.cons_ne_nil _ _) hkinds.symm
  · obtain ⟨c, cs, htext, -⟩ := hname.exists_cons
    rw [h, lead_name hname, htext]
    exact List.cons_ne_nil c cs
  · exact List.ne_nil_of_mem hmem

/-- A sign before anything but a number is not read as a number. -/
theorem refused_sign_lead (hg : e.Grammatical v j) (hr : 5 ≤ e.rank) (hn : e.opensNumber = false)
    {sign : Char} (hsign : sign = '-' ∨ sign = '+') : Refused (sign :: lead e.render.toList) := by
  have hrank := rank_firstOperand e hg hr
  rw [opensNumber] at hn
  rw [lead_render]
  rcases firstOperand_cases hg with ⟨op, operand, h⟩ | ⟨value, h, hvalue⟩ | ⟨name, h, hname⟩ | ⟨c, hmem, hc⟩
  · rw [h] at hrank
    exact absurd (show 5 ≤ 4 from hrank) (by decide)
  · rw [h] at hn
    exact absurd hvalue (Bool.eq_false_iff.1 hn)
  · obtain ⟨c, cs, htext, hc, hcs⟩ := hname.exists_cons
    rw [h, lead_name hname, htext]
    exact refused_signed hsign hc fun hpoint => absurd (hcs '.' hpoint) (by decide)
  · exact refused_of_mem (List.mem_cons_of_mem sign hmem) hc

/-- What does not start with a word is not read as a number. -/
theorem refused_lead (hg : e.Grammatical v j) (hn : e.opensWord = false) :
    Refused (lead e.render.toList) := by
  have hfirst := hg.firstOperand
  rw [opensWord] at hn
  rw [lead_render]
  rcases firstOperand_cases hg with ⟨op, operand, h⟩ | ⟨value, h, hvalue⟩ | ⟨name, h, hname⟩ | ⟨c, hmem, hc⟩
  · rw [h] at hn hfirst
    obtain ⟨c, hc, htext⟩ := lead_unary op operand
    rw [h, htext]
    exact refused_sign_lead hfirst.2 hfirst.1 hn hc
  · rw [h] at hn
    cases value with
    | string text => cases hvalue
    | _ => cases hn
  · rw [h] at hn
    exact absurd (by simpa using hn) hname.ne_uniqueMark
  · exact refused_of_mem hmem hc

end Expr

/-! ### Reading a word back -/

theorem ItemKind.render_literal (value : Literal) :
    (ItemKind.expr (.literal value)).render = value.render := by
  rw [ItemKind.render, Expr.render]

/-- **A word that is read back** is written as it was, unless it is a number. -/
theorem ItemKind.render_ofWord (word : String) : (ofWord word).render = word ∨
    ¬Decimal.Refused word.toList ∧ ∃ value : Literal, value.Legible ∧ (ofWord word).render = value.render := by
  rcases ofWord_cases word with ⟨mark, rfl, h⟩ | ⟨value, h, -, hvalue, hread⟩ | ⟨cs, hcs, h⟩ | h
  · rw [h]
    exact .inl (by cases mark <;> rfl)
  · rw [h, render_literal]
    refine .inr ⟨fun hrefused => ?_, value, hvalue, rfl⟩
    exact hread.elim (fun hne => hne hrefused.1) fun hne => hne hrefused.2
  · rw [h, render_literal]
    refine .inl (String.toList_injective ?_)
    rw [Literal.toList_render_string, String.toList_ofList, hcs]
  · rw [h, ItemKind.render, Expr.render]
    exact .inl rfl

theorem ItemKind.render_ofWord_refused {word : String} (h : Decimal.Refused word.toList) :
    (ofWord word).render = word := by
  rcases render_ofWord word with hsame | ⟨hread, -⟩
  · exact hsame
  · exact absurd h hread

/-- What is one word stays one word when it is read back. -/
theorem IsLexicalWord.ofWord {word : String} (h : IsLexicalWord word) :
    IsLexicalWord (ItemKind.ofWord word).render := by
  rcases ItemKind.render_ofWord word with hsame | ⟨-, value, hvalue, hrender⟩
  · rwa [hsame]
  · rw [hrender]
    exact Literal.isLexicalWord_render hvalue

/-! ### First words of arguments -/

/-- The parser made the argument of tokens of a text, wherever in it they stand. -/
def Argument.IsParsed (a : Argument) : Prop :=
  ∃ (text : String) (v : Vocabulary) (levels : Nat) (c c' : Cursor),
    c.rest <:+ (TokenStream.ofText text).tokens ∧
      Parser.argument v (Parser.expression v levels true) c = .ok a c'

namespace Argument

variable {v : Vocabulary} {a : Argument}

theorem IsParsed.grammatical (h : a.IsParsed) : ∃ v, a.Grammatical v := by
  obtain ⟨text, v, levels, c, c', hc, hrun⟩ := h
  have hgenuine : c.Genuine := (Cursor.genuine_ofText text 0 0).of_suffix (hc.map Token.lexeme)
  have hparsed := Parser.ensures_argument (Parser.soundInner_expression v levels) hgenuine a c' hrun
  exact ⟨v, hparsed.1⟩

/-- A text has an argument behind the first of its tokens. -/
theorem isParsed_of_run (text : String) {a : Argument} {ts us : List Token} {c' : Cursor}
    (htokens : (TokenStream.ofText text).tokens = ts ++ us)
    (hrun : Parser.argument .empty (Parser.expression .empty 3 true) ⟨us, 0, 0⟩ = .ok a c') : a.IsParsed :=
  ⟨text, .empty, 3, ⟨us, 0, 0⟩, c', htokens ▸ List.suffix_append ts us, hrun⟩

/-- A marked place starts with its mark. -/
theorem lead_parameter {p : Parameter} (h : p.refinement ≠ .plain) :
    lead p.render.toList = p.refinement.symbol.toList := by
  obtain ⟨mark, name, value⟩ := p
  have hmarked : (mark != .plain) = true := by simpa using h
  have hsolid : ∀ c ∈ mark.symbol.toList, isBlank c = false := by
    obtain ⟨c, hsymbol, hc⟩ := mark.toList_symbol h
    rw [hsymbol]
    exact List.forall_mem_singleton.2 (not_isBlank_of_isSign hc)
  have hblank : isBlank ' ' = true := by decide
  rw [Parameter.render.eq_def]
  dsimp only
  rw [String.toList_append, String.toList_append, String.toList_append, List.append_assoc, List.append_assoc,
    lead_append_of_head, lead_of_solid hsolid]
  cases name <;> cases value <;> simp [hmarked, Value.separator, Value.render, hblank]

/-- An equation starts with its operator. -/
theorem lead_equation (e : Equation) : lead e.render.toList = e.op.symbol.toList := by
  obtain ⟨op, body, uncertainty⟩ := e
  have hsolid : op.symbol.toList.all (!isBlank ·) = true := by cases op <;> rfl
  have hblank : isBlank ' ' = true := by decide
  rw [Equation.render.eq_def]
  dsimp only
  rw [String.toList_append, String.toList_append, String.toList_append, String.toList_append, List.append_assoc,
    List.append_assoc, List.append_assoc, lead_append_of_head, lead_of_solid]
  · simpa using hsolid
  · simp [hblank]

/-- **The first word of an argument** is one word exactly if the argument starts with one. -/
theorem areWord_lead (hg : a.Grammatical v) : areWord (kinds (lead a.render.toList)) = a.opensWord := by
  cases a with
  | hole =>
    have hnil : lead (hole.render).toList = [] := rfl
    rw [hnil, kinds_nil]
    rfl
  | parameter p =>
    rw [render, lead_parameter hg.1]
    cases hmark : p.refinement with
    | plain => exact absurd hmark hg.1
    | refined =>
      have hsymbol : Refinement.refined.symbol.toList = ['@'] := rfl
      rw [hsymbol, kinds_singleton rfl]
      rfl
    | unrefined =>
      have hsymbol : Refinement.unrefined.symbol.toList = ['!'] := rfl
      rw [hsymbol, kinds_singleton rfl]
      rfl
  | expr e => exact Expr.areWord_lead hg
  | equation e =>
    rw [render, lead_equation, (lexesAs_assign e.op).kinds_eq]
    rfl

theorem refused_lead (hg : a.Grammatical v) (hn : a.opensWord = false) :
    Decimal.Refused (lead a.render.toList) := by
  cases a with
  | hole => exact ⟨rfl, rfl⟩
  | parameter p => cases hn
  | expr e => exact Expr.refused_lead hg hn
  | equation e =>
    rw [render, lead_equation]
    refine Decimal.refused_of_mem (c := '=') ?_ (by decide)
    cases e.op <;> decide

/-- The first word of an argument stands at its start. -/
theorem firstWord?_eq (hg : a.Grammatical v) (hvisible : ∃ c ∈ a.render.toList, isBlank c = false) :
    a.firstWord? = some (.ofWord (String.ofList (lead a.render.toList))) := by
  have hlead : lead a.render.toList ≠ [] := by
    cases a with
    | hole =>
      obtain ⟨c, hc, -⟩ := hvisible
      exact absurd hc List.not_mem_nil
    | parameter p =>
      obtain ⟨c, hsymbol, -⟩ := p.refinement.toList_symbol hg.1
      rw [render, lead_parameter hg.1, hsymbol]
      exact List.cons_ne_nil c []
    | expr e => exact Expr.lead_ne_nil hg
    | equation e =>
      obtain ⟨c, cs, hsymbol, -⟩ := e.op.toList_symbol
      rw [render, lead_equation, hsymbol]
      exact List.cons_ne_nil c cs
  rw [firstWord?, wordsOf, List.head?_map, head?_words hlead]
  rfl

/-- **The item that the first word becomes** is written as one word exactly if the argument starts with
one. -/
theorem isLexicalWord_ofWord_iff (hg : a.Grammatical v) :
    IsLexicalWord (ItemKind.ofWord (String.ofList (lead a.render.toList))).render ↔ a.opensWord = true := by
  have hword : IsLexicalWord (String.ofList (lead a.render.toList)) ↔ a.opensWord = true := by
    rw [isLexicalWord_iff, String.toList_ofList, areWord_lead hg]
  cases hopens : a.opensWord with
  | true => exact iff_of_true (hword.2 hopens).ofWord rfl
  | false =>
    have hrefused : Decimal.Refused (String.ofList (lead a.render.toList)).toList := by
      rw [String.toList_ofList]
      exact refused_lead hg hopens
    rw [ItemKind.render_ofWord_refused hrefused, hword, hopens]

end Argument

theorem BodyOp.substitute_firstWord {s : Substitution} {param : String} {a : Argument}
    (h : s.lookup param = some a) (n : Nat) :
    BodyOp.firstWord.substitute s param n = .ok a.firstWord? n := by
  rw [BodyOp.substitute, h]
  rfl

/-- **The first word of an argument.**  What is emitted for it is written as one word if the argument is a
marked place, or if it is an expression whose first operand is a name, a number, a sign with a number, or a
string with no blank in it; and otherwise it is not. -/
theorem BodyOp.firstWord_isLexicalWord_iff {a : Argument} (ha : a.IsParsed)
    (hvisible : ∃ c ∈ a.render.toList, isBlank c = false) {s : Substitution} {param : String}
    (hparam : s.lookup param = some a) :
    ∃ kind : ItemKind, (∀ n, BodyOp.firstWord.substitute s param n = .ok (some kind) n) ∧
      (IsLexicalWord kind.render ↔ a.opensWord = true) := by
  obtain ⟨v, hg⟩ := ha.grammatical
  refine ⟨_, fun n => ?_, Argument.isLexicalWord_ofWord_iff hg⟩
  rw [BodyOp.substitute_firstWord hparam, Argument.firstWord?_eq hg hvisible]

/-- Of a power with a sign before it, the sign and the base are emitted. -/
theorem BodyOp.firstWord_isLexicalWord_power :
    let a : Argument := .expr (.unary .minus (.binary .pow (.literal (.integer 2)) (.ident "x")))
    a.IsParsed ∧ (∃ c ∈ a.render.toList, isBlank c = false) ∧
      ∃ kind : ItemKind, (∀ n, BodyOp.firstWord.substitute ⟨[("p", a)], "u"⟩ "p" n = .ok (some kind) n) ∧
        IsLexicalWord kind.render := by
  intro a
  have htokens : (TokenStream.ofText "m(- 2 ^ x)").tokens =
      [⟨.ident, "m", ⟨0, 1⟩, true⟩, ⟨.mark .openParen, "(", ⟨1, 2⟩, false⟩] ++
      [⟨.operator .sub, "-", ⟨2, 3⟩, false⟩, ⟨.integer, "2", ⟨4, 5⟩, true⟩,
       ⟨.operator .pow, "^", ⟨6, 7⟩, true⟩, ⟨.ident, "x", ⟨8, 9⟩, true⟩,
       ⟨.mark .closeParen, ")", ⟨9, 10⟩, false⟩] := by decide +kernel
  have ha : a.IsParsed := Argument.isParsed_of_run _ htokens rfl
  have hvisible : ∃ c ∈ a.render.toList, isBlank c = false := ⟨'-', by decide +kernel, by decide⟩
  have hparam : Substitution.lookup ⟨[("p", a)], "u"⟩ "p" = some a := rfl
  obtain ⟨kind, hrun, hword⟩ := BodyOp.firstWord_isLexicalWord_iff ha hvisible hparam
  exact ⟨ha, hvisible, kind, hrun, hword.2 rfl⟩

/-- A string with a blank in it is cut in two, and its first half is no word. -/
theorem BodyOp.not_firstWord_isLexicalWord :
    ¬∀ (a : Argument) (s : Substitution) (param : String), a.IsParsed →
      (∃ c ∈ a.render.toList, isBlank c = false) → s.lookup param = some a →
        ∃ kind : ItemKind, (∀ n, BodyOp.firstWord.substitute s param n = .ok (some kind) n) ∧
          IsLexicalWord kind.render := by
  intro h
  have htokens : (TokenStream.ofText "m(\"s t\")").tokens =
      [⟨.ident, "m", ⟨0, 1⟩, true⟩, ⟨.mark .openParen, "(", ⟨1, 2⟩, false⟩] ++
      [⟨.string, "\"s t\"", ⟨2, 7⟩, false⟩, ⟨.mark .closeParen, ")", ⟨7, 8⟩, false⟩] := by decide +kernel
  have ha : (Argument.expr (.literal (.string "s t"))).IsParsed := Argument.isParsed_of_run _ htokens rfl
  have hvisible : ∃ c ∈ (Argument.expr (.literal (.string "s t"))).render.toList, isBlank c = false :=
    ⟨'s', by decide +kernel, by decide⟩
  have hparam : Substitution.lookup ⟨[("p", .expr (.literal (.string "s t")))], "u"⟩ "p" =
      some (.expr (.literal (.string "s t"))) := rfl
  have hfirst : (Argument.expr (.literal (.string "s t"))).firstWord? = some (.expr (.ident "\"s")) := by
    obtain ⟨v, hg⟩ := ha.grammatical
    rw [Argument.firstWord?_eq hg hvisible]
    rfl
  obtain ⟨kind, hrun, hword⟩ := h _ _ "p" ha hvisible hparam
  have hkind := hrun 0
  rw [BodyOp.substitute_firstWord hparam, hfirst] at hkind
  cases hkind
  exact absurd hword (by decide +kernel)

end ControlFile
