import ControlFile.Proofs.Expr.Grouping
import ControlFile.Proofs.Macro.Words
import ControlFile.Proofs.Number.ReadBack

/-!
# Words that are no unique names

A unique name starts with `_`, and there are letters and digits behind it.  A text is *ordinary* if it
starts with something else, blanks and quotes apart, or if there is a sign of an operation in it and no
blank.  So no unique name is ordinary (`not_isOrdinary_uniqueName`).

What words are made of ordinary texts are ordinary again: the text of an argument without its blanks
(`Argument.isOrdinary_word`), unless the argument is a row of words, and its first word
(`Argument.isOrdinary_firstWord`), unless it is one of the names in the argument.
-/

namespace ControlFile

namespace Text

/-! ### Words of a text -/

variable {as bs cs w : List Char}

theorem words_of_solid (h : ∀ c ∈ cs, isBlank c = false) (hne : cs ≠ []) : words cs = [cs] := by
  obtain ⟨c, cs, rfl⟩ := List.exists_cons_of_ne_nil hne
  obtain ⟨hc, hcs⟩ := List.forall_mem_cons.1 h
  have hall : ∀ d ∈ cs, (!isBlank d) = true := fun d hd => by rw [hcs d hd]; rfl
  rw [words_cons_other cs hc, List.takeWhile_eq_self_iff.2 hall, List.dropWhile_eq_nil_iff.2 hall,
    words_nil]

/-- **The first word**: it has no blanks in it, and nothing but blanks stand before it. -/
theorem exists_of_head?_words (h : (words cs).head? = some w) :
    ∃ blanks rest, cs = blanks ++ (w ++ rest) ∧ (∀ c ∈ blanks, isBlank c = true) ∧
      (∀ c ∈ w, isBlank c = false) ∧ ∀ c ∈ rest.head?, isBlank c = true := by
  induction cs with
  | nil => simp at h
  | cons c cs ih =>
    by_cases hc : isBlank c = true
    · rw [words_cons_blank cs hc] at h
      obtain ⟨blanks, rest, rfl, hblanks, hw⟩ := ih h
      exact ⟨c :: blanks, rest, rfl, List.forall_mem_cons.2 ⟨hc, hblanks⟩, hw⟩
    · rw [words_cons_other cs (by simpa using hc), List.head?_cons, Option.some.injEq] at h
      subst h
      refine ⟨[], cs.dropWhile (!isBlank ·), ?_, by simp, ?_, ?_⟩
      · rw [List.nil_append, List.cons_append, List.takeWhile_append_dropWhile]
      · refine List.forall_mem_cons.2 ⟨by simpa using hc, fun d hd => ?_⟩
        simpa using List.all_eq_true.1 List.all_takeWhile d hd
      · intro d hd
        have hnot := List.head?_dropWhile_not (!isBlank ·) cs
        rw [Option.mem_def.1 hd] at hnot
        simpa using hnot

theorem words_append_blank (as bs : List Char) {c : Char} (hc : isBlank c = true) :
    words (as ++ c :: bs) = words as ++ words bs := by
  match as with
  | [] => rw [List.nil_append, words_cons_blank bs hc, words_nil, List.nil_append]
  | a :: as =>
    by_cases ha : isBlank a = true
    · rw [List.cons_append, words_cons_blank _ ha, words_cons_blank _ ha,
        words_append_blank as bs hc]
    · have ha : isBlank a = false := by simpa using ha
      have hstop : (!isBlank c) ≠ true := by simp [hc]
      have hsplit : ∀ p : Char → Bool, p c ≠ true →
          (as ++ c :: bs).takeWhile p = as.takeWhile p ∧
            (as ++ c :: bs).dropWhile p = as.dropWhile p ++ c :: bs := by
        intro p hp
        induction as with
        | nil => simp [hp]
        | cons b as ih =>
          by_cases hb : p b = true
          · simp [hb, ih]
          · simp [hb]
      have hsame := hsplit (!isBlank ·) hstop
      have hlength := (List.dropWhile_sublist (l := as) (!isBlank ·)).length_le
      rw [List.cons_append, words_cons_other _ ha, words_cons_other _ ha, hsame.1, hsame.2,
        words_append_blank (as.dropWhile (!isBlank ·)) bs hc, List.cons_append]
termination_by as.length
decreasing_by
  · simp
  · simp only [List.length_cons]
    omega

/-- The words, one directly behind the other, are the text without its blanks. -/
theorem flatten_words (cs : List Char) : (words cs).flatten = cs.filter (!isBlank ·) := by
  match cs with
  | [] => simp
  | c :: cs =>
    by_cases hc : isBlank c = true
    · rw [words_cons_blank cs hc, flatten_words cs, List.filter_cons_of_neg (by simp [hc])]
    · have hc : isBlank c = false := by simpa using hc
      have hlength := (List.dropWhile_sublist (l := cs) (!isBlank ·)).length_le
      rw [words_cons_other cs hc, List.flatten_cons, flatten_words (cs.dropWhile (!isBlank ·)),
        List.filter_cons_of_pos (by simp [hc]), List.cons_append]
      congr 1
      conv_rhs => rw [← List.takeWhile_append_dropWhile (p := (!isBlank ·)) (l := cs),
        List.filter_append]
      congr 1
      exact (List.filter_eq_self.2 fun d hd => List.all_eq_true.1 List.all_takeWhile d hd).symm
termination_by cs.length
decreasing_by
  · simp
  · simp only [List.length_cons]
    omega

/-! ### Ordinary texts -/

/-- Blanks and quotes. -/
def isEdge (c : Char) : Bool := isBlank c || c == '\x22'

/-- The first character that is neither a blank nor a quote. -/
def firstVisible? (cs : List Char) : Option Char := cs.find? (!isEdge ·)

/-- The characters of operations, the opening parenthesis and the marks of parameters. -/
def isSign (c : Char) : Bool :=
  ['+', '-', '*', '/', '%', '^', '<', '>', '=', '(', '@', '!'].contains c

/-- Something other than `_` is what the text starts with; or there is a sign in it, and no blank. -/
def IsOrdinary (cs : List Char) : Prop :=
  firstVisible? cs ≠ some '_' ∨ (∀ c ∈ cs, isBlank c = false) ∧ ∃ c ∈ cs, isSign c = true

instance : DecidablePred IsOrdinary := fun _ => inferInstanceAs (Decidable (_ ∨ _ ∧ _))

theorem firstVisible?_append (as bs : List Char) :
    firstVisible? (as ++ bs) = (firstVisible? as).or (firstVisible? bs) := List.find?_append

theorem firstVisible?_eq_none (h : ∀ c ∈ cs, isEdge c = true) : firstVisible? cs = none :=
  List.find?_eq_none.2 fun c hc => by simp [h c hc]

theorem isEdge_of_isBlank {c : Char} (h : isBlank c = true) : isEdge c = true := by simp [isEdge, h]

/-- Without its blanks a text starts with the same. -/
theorem firstVisible?_filter (cs : List Char) :
    firstVisible? (cs.filter (!isBlank ·)) = firstVisible? cs := by
  induction cs with
  | nil => rfl
  | cons c cs ih =>
    unfold firstVisible? at ih ⊢
    by_cases hc : isBlank c = true
    · simp [hc, isEdge_of_isBlank hc, ih]
    · by_cases he : isEdge c = true
      · simp [hc, he, ih]
      · simp [hc, he]

/-- What starts with something else than `_` has a first word that does. -/
theorem firstVisible?_word (h : firstVisible? cs ≠ some '_') (hw : (words cs).head? = some w) :
    firstVisible? w ≠ some '_' := by
  obtain ⟨blanks, rest, rfl, hblanks, -⟩ := exists_of_head?_words hw
  rw [firstVisible?_append, firstVisible?_eq_none fun c hc => isEdge_of_isBlank (hblanks c hc),
    Option.none_or, firstVisible?_append] at h
  intro hfirst
  rw [hfirst] at h
  exact h rfl

/-- The first word of an ordinary text is ordinary. -/
theorem IsOrdinary.word (h : IsOrdinary cs) (hw : (words cs).head? = some w) : IsOrdinary w := by
  rcases h with h | ⟨hsolid, c, hc, hsign⟩
  · exact .inl (firstVisible?_word h hw)
  · rw [words_of_solid hsolid (List.ne_nil_of_mem hc), List.head?_cons, Option.some.injEq] at hw
    exact hw ▸ .inr ⟨hsolid, c, hc, hsign⟩

/-- A text between quotes is as ordinary as without them. -/
theorem firstVisible?_quoted (cs : List Char) :
    firstVisible? ('\x22' :: cs ++ ['\x22']) = firstVisible? cs := by
  rw [List.cons_append, ← List.singleton_append, firstVisible?_append, firstVisible?_append]
  cases hcs : firstVisible? cs <;> rfl

theorem isSolid_quoted {cs : List Char} :
    (∀ c ∈ '\x22' :: cs ++ ['\x22'], isBlank c = false) ↔ ∀ c ∈ cs, isBlank c = false := by
  have hquote : isBlank '\x22' = false := by decide
  simp [or_imp, forall_and, hquote]

theorem isOrdinary_quoted {cs : List Char} : IsOrdinary ('\x22' :: cs ++ ['\x22']) ↔ IsOrdinary cs := by
  have hquote : isSign '\x22' = false := by decide
  unfold IsOrdinary
  rw [firstVisible?_quoted, isSolid_quoted]
  simp [hquote]

/-- Where a text starts with no blank, its first word goes on up to the next one. -/
theorem head?_words_append (h : ∀ c ∈ as, isBlank c = false) (hne : as ≠ []) (bs : List Char) :
    (words (as ++ bs)).head? = some (as ++ bs.takeWhile (!isBlank ·)) := by
  obtain ⟨a, as, rfl⟩ := List.exists_cons_of_ne_nil hne
  obtain ⟨ha, has⟩ := List.forall_mem_cons.1 h
  rw [List.cons_append, words_cons_other _ ha, List.head?_cons,
    List.takeWhile_append_of_pos fun c hc => by rw [has c hc]; rfl, List.cons_append]

theorem not_isBlank_of_isSign {c : Char} (h : isSign c = true) : isBlank c = false := by
  simp only [isSign, List.contains_eq_mem, List.mem_cons, List.not_mem_nil, or_false,
    decide_eq_true_eq] at h
  rcases h with rfl | rfl | rfl | rfl | rfl | rfl | rfl | rfl | rfl | rfl | rfl | rfl <;> decide

/-- A sign at the start. -/
theorem firstVisible?_sign {c : Char} (h : isSign c = true) (cs : List Char) :
    firstVisible? (c :: cs) ≠ some '_' := by
  simp only [isSign, List.contains_eq_mem, List.mem_cons, List.not_mem_nil, or_false,
    decide_eq_true_eq] at h
  rcases h with rfl | rfl | rfl | rfl | rfl | rfl | rfl | rfl | rfl | rfl | rfl | rfl <;>
    simp [firstVisible?, isEdge, isBlank, blankRanges]

/-- No character of ASCII above the space is blank. -/
theorem not_isBlank_of_toNat {c : Char} (hlow : 0x20 < c.toNat) (hhigh : c.toNat < 0x80) :
    isBlank c = false := by
  simp only [isBlank, blankRanges, List.any_cons, List.any_nil, Bool.or_false, Bool.or_eq_false_iff,
    Bool.and_eq_false_iff, decide_eq_false_iff_not]
  omega

theorem not_isBlank_of_isDigit {c : Char} (h : c.isDigit = true) : isBlank c = false := by
  have hrange := Lexer.toNat_of_isDigit h
  exact not_isBlank_of_toNat (by omega) (by omega)

theorem not_isBlank_of_isAlpha {c : Char} (h : c.isAlpha = true) : isBlank c = false := by
  have hrange := Lexer.toNat_of_isAlpha h
  exact not_isBlank_of_toNat (by omega) (by omega)

theorem not_isSign_of_isDigit {c : Char} (h : c.isDigit = true) : isSign c = false := by
  simp only [isSign, List.contains_eq_mem, List.mem_cons, List.not_mem_nil, or_false,
    decide_eq_false_iff_not]
  rintro (rfl | rfl | rfl | rfl | rfl | rfl | rfl | rfl | rfl | rfl | rfl | rfl) <;> cases h

end Text

/-! ### Unique names -/

open Text

theorem toList_uniqueName (n : Nat) :
    (uniqueName n).toList = "_unique_".toList ++ Nat.toDigits 10 n := by
  rw [uniqueName, String.toList_append, Nat.toString_eq_ofList_toDigits,
    String.toList_ofList (l := Nat.toDigits 10 n)]

theorem uniqueName_inj {n m : Nat} (h : uniqueName n = uniqueName m) : n = m := by
  have hdigits := congrArg String.toList h
  rw [toList_uniqueName, toList_uniqueName, List.append_cancel_left_eq] at hdigits
  rw [← Decimal.digitsValue_toDigits n, hdigits, Decimal.digitsValue_toDigits]

theorem not_isBlank_uniqueName (n : Nat) : ∀ c ∈ (uniqueName n).toList, isBlank c = false := by
  rw [toList_uniqueName]
  refine List.forall_mem_append.2 ⟨by simp [isBlank, blankRanges], fun c hc => ?_⟩
  exact not_isBlank_of_isDigit (Decimal.isDigits_toDigits n c hc)

/-- **No unique name is ordinary.** -/
theorem not_isOrdinary_uniqueName (n : Nat) : ¬IsOrdinary (uniqueName n).toList := by
  rintro (h | ⟨-, c, hc, hsign⟩)
  · have hletters : firstVisible? "_unique_".toList = some '_' :=
      List.find?_cons_of_pos (a := '_') (l := ['u', 'n', 'i', 'q', 'u', 'e', '_']) (by decide)
    rw [toList_uniqueName, firstVisible?_append, hletters] at h
    exact h rfl
  · rw [toList_uniqueName] at hc
    have hletters : ∀ c ∈ "_unique_".toList, isSign c = false := by simp [isSign]
    have hnone : isSign c = false := (List.mem_append.1 hc).elim (hletters c) fun hdigit =>
      not_isSign_of_isDigit (Decimal.isDigits_toDigits n c hdigit)
    rw [hsign] at hnone
    cases hnone

/-- One of the first `k` unique names. -/
def IsGiven (k : Nat) (name : String) : Prop := ∃ i, i < k ∧ name = uniqueName (i + 1)

/-! ### First words -/

/-- The first word is one of the first `k` unique names, or it is ordinary. -/
def IsLed (k : Nat) (cs : List Char) : Prop :=
  ∀ w, (words cs).head? = some w → IsGiven k (String.ofList w) ∨ IsOrdinary w

section Led

variable {k : Nat} {as bs cs : List Char}

theorem IsLed.of_firstVisible (h : firstVisible? cs ≠ some '_') : IsLed k cs :=
  fun _ hw => .inr (.inl (firstVisible?_word h hw))

theorem isLed_of_isOrdinary (h : IsOrdinary cs) : IsLed k cs := fun _ hw => .inr (h.word hw)

theorem isLed_name {n : String} (h : IsGiven k n ∨ IsOrdinary n.toList) : IsLed k n.toList := by
  rcases h with ⟨i, hi, rfl⟩ | h
  · intro w hw
    have hne : (uniqueName (i + 1)).toList ≠ [] := by simp [toList_uniqueName]
    rw [words_of_solid (not_isBlank_uniqueName (i + 1)) hne, List.head?_cons, Option.some.injEq] at hw
    subst hw
    exact .inl ⟨i, hi, String.ofList_toList⟩
  · exact isLed_of_isOrdinary h

theorem IsLed.append_blank (ha : IsLed k as) (hb : IsLed k bs) {c : Char} (hc : isBlank c = true) :
    IsLed k (as ++ c :: bs) := by
  intro w hw
  rw [words_append_blank as bs hc] at hw
  cases has : words as with
  | nil => exact hb w (by simpa [has] using hw)
  | cons v vs => exact ha w (by simpa [has] using hw)

/-- A sign that touches what stands before it is in the first word. -/
theorem isLed_touching (h : ∀ c ∈ as, isBlank c = false) {c : Char} (hc : isSign c = true)
    (bs : List Char) : IsLed k (as ++ c :: bs) := by
  intro w hw
  have hsolid : ∀ d ∈ as ++ [c], isBlank d = false :=
    List.forall_mem_append.2 ⟨h, List.forall_mem_singleton.2 (not_isBlank_of_isSign hc)⟩
  rw [show as ++ c :: bs = (as ++ [c]) ++ bs by simp, head?_words_append hsolid (by simp),
    Option.some.injEq] at hw
  subst hw
  refine .inr (.inr ⟨List.forall_mem_append.2 ⟨hsolid, fun d hd => ?_⟩, c, by simp, hc⟩)
  simpa using List.all_eq_true.1 List.all_takeWhile d hd

/-- The name of a call, and the parenthesis behind it. -/
theorem isLed_call {n : String} (h : IsGiven k n ∨ IsOrdinary n.toList) (bs : List Char) :
    IsLed k (n.toList ++ '(' :: bs) := by
  rcases h with ⟨i, -, rfl⟩ | hfirst | ⟨hsolid, -⟩
  · exact isLed_touching (not_isBlank_uniqueName (i + 1)) rfl bs
  · refine .of_firstVisible ?_
    rw [firstVisible?_append]
    cases hn : firstVisible? n.toList with
    | none => exact firstVisible?_sign rfl bs
    | some c => rwa [hn] at hfirst
  · exact isLed_touching hsolid rfl bs

end Led

/-! ### The writing of arguments -/

/-- A number is written with a digit, a minus or a letter at its start. -/
theorem Literal.exists_firstVisible {value : Literal} (h : value.isNumber = true) :
    ∃ c, firstVisible? value.render.toList = some c ∧ c ≠ '_' := by
  have hdigits : ∀ {ds : List Char} (rest : List Char), Decimal.IsDigits ds → ds ≠ [] →
      ∃ c, firstVisible? (ds ++ rest) = some c ∧ c ≠ '_' := by
    intro ds rest hds hne
    obtain ⟨d, ds, rfl⟩ := List.exists_cons_of_ne_nil hne
    have hd := hds d List.mem_cons_self
    refine ⟨d, List.find?_cons_of_pos ?_, by rintro rfl; cases hd⟩
    rw [isEdge, not_isBlank_of_isDigit hd, Bool.false_or, Bool.not_eq_true', beq_eq_false_iff_ne]
    rintro rfl
    cases hd
  have hminus : ∀ cs, ∃ c, firstVisible? ('-' :: cs) = some c ∧ c ≠ '_' := fun cs =>
    ⟨'-', List.find?_cons_of_pos (by decide), by decide⟩
  cases value with
  | string text => cases h
  | integer n =>
    rw [Literal.render, Decimal.toList_toString_int]
    split
    · exact hminus _
    · simpa using hdigits [] (Decimal.isDigits_toDigits n.natAbs) Nat.toDigits_ne_nil
  | decimal x =>
    rw [Literal.render, floatText]
    cases hx : Binary.ofFloat? x with
    | none =>
      dsimp only
      split
      · exact ⟨'N', List.find?_cons_of_pos (l := ['a', 'N']) (by decide), by decide⟩
      · split
        · exact hminus ['i', 'n', 'f']
        · exact ⟨'i', List.find?_cons_of_pos (l := ['n', 'f']) (by decide), by decide⟩
    | some b =>
      dsimp only
      rw [String.toList_ofList]
      split
      · exact hminus _
      · rw [List.nil_append]
        by_cases hm : b.mantissa = 0
        · rw [Shortest.magnitudeText_zero hm]
          exact hdigits _ Shortest.isDigits_zero (by simp)
        · obtain ⟨whole, fraction, e, htext, hw, hne, -⟩ :=
            Shortest.magnitudeText_eq_numeral ((Binary.eq_ofBits_of_ofFloat? hx).2.2.1 hm)
          rw [htext]
          exact hdigits _ hw hne

/-- A string is written between quotes. -/
theorem Literal.toList_render_string (text : String) :
    (Literal.string text).render.toList = '\x22' :: text.toList ++ ['\x22'] := by
  rw [Literal.render, String.toList_append, String.toList_append]
  rfl

theorem UnaryOp.toList_symbol (op : UnaryOp) : ∃ c, op.symbol.toList = [c] ∧ isSign c = true := by
  cases op <;> exact ⟨_, rfl, rfl⟩

theorem AssignOp.toList_symbol (op : AssignOp) :
    ∃ c cs, op.symbol.toList = c :: cs ∧ isSign c = true := by
  cases op <;> exact ⟨_, _, rfl, rfl⟩

/-- Between two operands there is a blank, and the sign of the operation if it has one. -/
theorem BinaryOp.toList_spaced (op : BinaryOp) (h : op ≠ .juxtaposed) :
    ∃ c cs, op.spaced.toList = ' ' :: c :: cs ∧ isSign c = true := by
  cases op
  case juxtaposed => exact absurd rfl h
  all_goals exact ⟨_, _, rfl, rfl⟩

/-- The first `k` unique names may be in it besides the given names and texts of strings, and no argument
is a row of words. -/
def Demands.given (callee name text : String → Prop) (k : Nat) : Demands where
  name n := IsGiven k n ∨ name n
  text := text
  argument e := e.isWordRow = false
  operation _ := True
  callee := callee

/-- Names, texts and arguments so that the words made of them are ordinary. -/
abbrev Demands.ordinary (callee : String → Prop) : Nat → Demands :=
  .given callee (fun n => IsOrdinary n.toList) fun t => IsOrdinary t.toList

section Writing

variable {callee : String → Prop} {k : Nat}

theorem Literal.isLed_render {value : Literal} (h : value.Meets (.ordinary callee k)) :
    IsLed k value.render.toList := by
  have hnumber : ∀ {value : Literal}, value.isNumber = true → IsLed k value.render.toList := by
    intro value hvalue
    obtain ⟨c, hc, hne⟩ := exists_firstVisible hvalue
    exact .of_firstVisible (by simp [hc, hne])
  cases value with
  | string text =>
    rw [toList_render_string]
    exact isLed_of_isOrdinary (isOrdinary_quoted.2 h)
  | integer n => exact hnumber rfl
  | decimal x => exact hnumber rfl

/-- **The first word of an expression** is ordinary, or it is a unique name. -/
theorem Expr.isLed_render : ∀ e : Expr, e.Meets (.ordinary callee k) True → IsLed k e.render.toList
  | .literal value, h => by
    rw [Expr.render]
    exact Literal.isLed_render (h trivial)
  | .ident n, h => by
    rw [Expr.render]
    exact isLed_name h
  | .call n as range, h => by
    rw [Expr.render, String.toList_append, String.toList_append, String.toList_append,
      List.append_assoc, List.append_assoc]
    exact isLed_call h.1 _
  | .unary op operand, _ => by
    obtain ⟨c, hop, hc⟩ := op.toList_symbol
    rw [Expr.render, String.toList_append, hop]
    exact .of_firstVisible (firstVisible?_sign hc _)
  | .binary op lhs rhs, h => by
    have hlhs := Expr.isLed_render lhs h.2.1
    rw [Expr.render, String.toList_append, String.toList_append, List.append_assoc]
    by_cases hop : op = .juxtaposed
    · subst hop
      exact hlhs.append_blank (Expr.isLed_render rhs h.2.2) (c := ' ') (by decide)
    · obtain ⟨c, cs, hspaced, hc⟩ := op.toList_spaced hop
      rw [hspaced]
      exact hlhs.append_blank (.of_firstVisible (firstVisible?_sign hc _)) (by decide)
  | .paren inner, _ => by
    rw [Expr.render, String.toList_append, String.toList_append, List.append_assoc]
    exact .of_firstVisible (firstVisible?_sign (c := '(') rfl _)

theorem Equation.isLed_render (e : Equation) : IsLed k e.render.toList := by
  obtain ⟨op, body, uncertainty⟩ := e
  obtain ⟨c, cs, hop, hc⟩ := op.toList_symbol
  rw [Equation.render.eq_def]
  simp only [String.toList_append, hop, List.append_assoc, List.cons_append]
  exact .of_firstVisible (firstVisible?_sign hc _)

theorem Value.isLed_render {w : Value} (h : w.Meets (.ordinary callee k) True) :
    IsLed k w.render.toList := by
  cases w with
  | absent => exact .of_firstVisible (by simp [Value.render, firstVisible?])
  | literal value =>
    rw [Value.render]
    exact Literal.isLed_render (h trivial)
  | equation e =>
    rw [Value.render]
    exact e.isLed_render

theorem Refinement.toList_symbol {r : Refinement} (h : r ≠ .plain) :
    ∃ c, r.symbol.toList = [c] ∧ isSign c = true := by
  cases r
  case plain => exact absurd rfl h
  all_goals exact ⟨_, rfl, rfl⟩

theorem Parameter.isLed_render {p : Parameter} (h : p.Meets (.ordinary callee k) True) :
    IsLed k p.render.toList := by
  obtain ⟨mark, n, w⟩ := p
  obtain ⟨hn, hw⟩ := h
  rw [Parameter.render.eq_def]
  by_cases hmark : mark = .plain
  · subst hmark
    cases n with
    | none =>
      have hseparator : w.separator false = "" := by cases w <;> rfl
      simpa [Refinement.symbol, hseparator] using Value.isLed_render hw
    | some n =>
      cases w with
      | absent => simpa [Refinement.symbol, Value.separator, Value.render] using isLed_name (hn n rfl)
      | literal value =>
        simpa [Refinement.symbol, Value.separator, List.append_assoc] using
          (isLed_name (hn n rfl)).append_blank (Value.isLed_render hw) (c := ' ') (by decide)
      | equation e =>
        simpa [Refinement.symbol, Value.separator, List.append_assoc] using
          (isLed_name (hn n rfl)).append_blank (Value.isLed_render hw) (c := ' ') (by decide)
  · obtain ⟨c, hsymbol, hc⟩ := mark.toList_symbol hmark
    simp only [String.toList_append, hsymbol, List.append_assoc, List.singleton_append]
    exact .of_firstVisible (firstVisible?_sign hc _)

theorem Argument.isLed_render {a : Argument} (h : a.Meets (.ordinary callee k) True) :
    IsLed k a.render.toList := by
  cases a <;> rw [Argument.render]
  case hole => exact .of_firstVisible (by simp [firstVisible?])
  case parameter p => exact Parameter.isLed_render h
  case expr e => exact e.isLed_render h.2
  case equation e => exact e.isLed_render

/-! ### Words of arguments -/

/-- **The first word of an argument** is a name in it that is a unique name, or it is ordinary. -/
theorem Argument.meets_firstWord? {a : Argument} (ha : a.Meets (.ordinary callee k) True)
    {l : ItemKind} (hl : a.firstWord? = some l) : l.Meets (.ordinary callee k) := by
  obtain ⟨word, hword, rfl⟩ := Option.map_eq_some_iff.1 hl
  rw [wordsOf, List.head?_map, Option.map_eq_some_iff] at hword
  obtain ⟨w, hw, rfl⟩ := hword
  have hled := Argument.isLed_render ha w hw
  rcases ItemKind.ofWord_cases (String.ofList w) with
    ⟨mark, -, h⟩ | ⟨value, h, hnumber, -⟩ | ⟨cs, hcs, h⟩ | h
  · rw [h]
    exact ⟨by simp, trivial⟩
  · rw [h]
    intro _
    cases value with
    | string text => cases hnumber
    | _ => trivial
  · rw [h]
    rw [String.toList_ofList] at hcs
    subst hcs
    intro _
    change IsOrdinary (String.ofList cs).toList
    rw [String.toList_ofList]
    refine hled.elim (fun hgiven => ?_) isOrdinary_quoted.1
    obtain ⟨i, -, hi⟩ := hgiven
    have hfirst := congrArg (fun text => text.toList.head?) hi
    simp [toList_uniqueName] at hfirst
  · rw [h]
    refine hled.imp id fun hordinary => ?_
    change IsOrdinary (String.ofList w).toList
    rwa [String.toList_ofList]

/-- Without its blanks, a text with a sign in it is ordinary. -/
theorem isOrdinary_filter {cs : List Char}
    (h : firstVisible? cs ≠ some '_' ∨ ∃ c ∈ cs, isSign c = true) :
    IsOrdinary (cs.filter (!isBlank ·)) := by
  rcases h with hfirst | ⟨c, hmem, hc⟩
  · exact .inl (by rwa [firstVisible?_filter])
  · refine .inr ⟨fun d hd => by simpa using (List.mem_filter.1 hd).2, c, ?_, hc⟩
    exact List.mem_filter.2 ⟨hmem, by simp [not_isBlank_of_isSign hc]⟩

/-- What does not start with a word starts with a number, or there is a sign in it. -/
theorem Expr.signed_of_not_startsWord : ∀ e : Expr, e.startsWord = false →
    (∃ c, firstVisible? e.render.toList = some c ∧ c ≠ '_') ∨
      ∃ c ∈ e.render.toList, isSign c = true
  | .literal value, h => by
    rw [Expr.render]
    refine .inl (Literal.exists_firstVisible ?_)
    cases value with
    | string text => cases h
    | _ => rfl
  | .ident n, h => by cases h
  | .call .., h => by cases h
  | .unary op operand, _ => by
    obtain ⟨c, hop, hc⟩ := op.toList_symbol
    exact .inr ⟨c, by simp [Expr.render, hop], hc⟩
  | .binary op lhs rhs, h => by
    rw [Expr.render, String.toList_append, String.toList_append, List.append_assoc]
    by_cases hop : op = .juxtaposed
    · subst hop
      rcases Expr.signed_of_not_startsWord lhs h with ⟨c, hfirst, hc⟩ | ⟨c, hmem, hc⟩
      · exact .inl ⟨c, by rw [firstVisible?_append, hfirst, Option.some_or], hc⟩
      · exact .inr ⟨c, List.mem_append_left _ hmem, hc⟩
    · obtain ⟨c, cs, hspaced, hc⟩ := op.toList_spaced hop
      exact .inr ⟨c, by simp [hspaced], hc⟩
  | .paren inner, _ => .inr ⟨'(', by simp [Expr.render], rfl⟩

/-- **The text of an argument without its blanks** is ordinary. -/
theorem Argument.isOrdinary_joinedWords? {a : Argument} {w : String} (h : a.joinedWords? = some w)
    (hsigned : firstVisible? a.render.toList ≠ some '_' ∨ ∃ c ∈ a.render.toList, isSign c = true) :
    IsOrdinary w.toList := by
  unfold joinedWords? at h
  dsimp only at h
  split at h
  · cases h
  · cases h
    have hjoin : (String.join (wordsOf a.render)).toList = a.render.toList.filter (!isBlank ·) := by
      rw [String.toList_join, wordsOf, ← flatten_words]
      simp [List.flatMap, Function.comp_def]
    rw [hjoin]
    exact isOrdinary_filter hsigned

theorem Value.signed_render {w : Value} (h : w.Meets (.ordinary callee k) True) :
    firstVisible? w.render.toList ≠ some '_' ∨ ∃ c ∈ w.render.toList, isSign c = true := by
  cases w <;> rw [Value.render]
  case absent => exact .inl (by simp [firstVisible?])
  case literal value =>
    cases hvalue : value.isNumber with
    | true =>
      obtain ⟨c, hfirst, hc⟩ := Literal.exists_firstVisible hvalue
      exact .inl (by simp [hfirst, hc])
    | false =>
      cases value with
      | string text =>
        rw [Literal.toList_render_string]
        exact (isOrdinary_quoted.2 (h trivial)).imp id And.right
      | integer n => cases hvalue
      | decimal x => cases hvalue
  case equation e =>
    obtain ⟨op, body, uncertainty⟩ := e
    obtain ⟨c, cs, hop, hc⟩ := op.toList_symbol
    rw [Equation.render.eq_def]
    exact .inr ⟨c, by simp [hop], hc⟩

/-- **The word that an argument becomes** is ordinary, unless the argument is a name. -/
theorem Argument.isOrdinary_toWord? {a : Argument} (ha : a.Meets (.ordinary callee k) True)
    (hname : a.isName = false) {w : String} (h : a.toWord? = some w) : IsOrdinary w.toList := by
  cases a with
  | hole => cases h
  | equation e => cases h
  | expr e =>
    obtain ⟨hrow, hmeets⟩ := ha
    have hjoined : (e.startsWord = false ∨ ∃ c ∈ e.render.toList, isSign c = true) →
        (Argument.expr e).joinedWords? = some w → IsOrdinary w.toList := by
      intro hsigned hword
      refine isOrdinary_joinedWords? hword ?_
      rw [Argument.render]
      refine hsigned.elim (fun h => (e.signed_of_not_startsWord h).imp ?_ id) .inr
      rintro ⟨c, hfirst, hc⟩
      simp [hfirst, hc]
    cases e with
    | ident n => cases hname
    | literal value =>
      cases value with
      | string text =>
        cases h
        exact hmeets trivial
      | integer n => exact hjoined (.inl rfl) h
      | decimal x => exact hjoined (.inl rfl) h
    | call n as range => exact hjoined (.inr ⟨'(', by simp [Expr.render], rfl⟩) h
    | unary op operand => exact hjoined (.inl rfl) h
    | binary op lhs rhs =>
      refine hjoined (.inl ?_) h
      cases op with
      | juxtaposed => exact hrow trivial
      | _ => rfl
    | paren inner => exact hjoined (.inl rfl) h
  | parameter p =>
    obtain ⟨mark, n, value⟩ := p
    cases n with
    | some n => cases hname
    | none =>
      refine isOrdinary_joinedWords? (a := .parameter ⟨mark, none, value⟩) h ?_
      rw [Argument.render, Parameter.render.eq_def]
      by_cases hmark : mark = .plain
      · subst hmark
        have hseparator : value.separator false = "" := by cases value <;> rfl
        simpa [Refinement.symbol, hseparator] using Value.signed_render ha.2
      · obtain ⟨c, hsymbol, hc⟩ := mark.toList_symbol hmark
        exact .inr ⟨c, by simp [hsymbol], hc⟩

end Writing

end ControlFile
