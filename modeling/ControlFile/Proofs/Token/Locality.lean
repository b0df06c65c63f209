import ControlFile.Token.Lexer

/-!
# Where a token ends

The lexer takes the longest token that can start at a place.  What it takes is decided by the
characters of the token and by what stands directly behind them; so a token that ends inside a
text `w` does not change when what follows `w` is replaced by something that no token runs into.

* `Closed cs`: `cs` is empty, or starts with a blank, a parenthesis, a semicolon or a comma.
* `first_append`: the first token of `c :: w ++ a`, if it ends inside `w`, is the first token of
  `c :: w ++ b` for every closed `b`.

The proof goes through the parts of a number one by one: each of them ends inside `w` as well.
-/

namespace ControlFile.Lexer

/-- A character that no token goes on with. -/
def isDelimiter (c : Char) : Bool := isSpace c || c == '(' || c == ')' || c == ';' || c == ','

/-- A text that no token before it runs into. -/
def Closed (cs : List Char) : Prop := ∀ c, cs.head? = some c → isDelimiter c = true

theorem closed_nil : Closed [] := by
  intro c h
  simp at h

theorem closed_cons {c : Char} (cs : List Char) (h : isDelimiter c = true) : Closed (c :: cs) := by
  intro d hd
  simp only [List.head?_cons, Option.some.injEq] at hd
  exact hd ▸ h

theorem Closed.append {as : List Char} (h : Closed as) (hne : as ≠ []) (bs : List Char) :
    Closed (as ++ bs) := by
  cases as with
  | nil => exact absurd rfl hne
  | cons a as => exact closed_cons _ (h a rfl)

/-- The delimiters, one by one. -/
def delimiters : List Char := [' ', '\t', '\r', '\n', '\x0c', '(', ')', ';', ',']

theorem isDelimiter_iff {c : Char} : isDelimiter c = true ↔ c ∈ delimiters := by
  simp [isDelimiter, isSpace, delimiters, or_assoc]

/-- A delimiter is in no class of characters that has none of them. -/
theorem not_of_isDelimiter {p : Char → Bool} {c : Char} (hc : isDelimiter c = true)
    (hp : delimiters.all (!p ·) = true) : p c = false := by
  have := List.all_eq_true.1 hp c (isDelimiter_iff.1 hc)
  simpa using this

theorem Closed.head_not {p : Char → Bool} {b : List Char} (hb : Closed b)
    (hp : delimiters.all (!p ·) = true) : ∀ c, b.head? = some c → p c = false :=
  fun c hc => not_of_isDelimiter (hb c hc) hp

theorem Closed.head_ne {b : List Char} (hb : Closed b) {d : Char} (hd : isDelimiter d = false) :
    b.head? ≠ some d := by
  intro h
  rw [hb d h] at hd
  exact Bool.noConfusion hd

/-! ### Stretches of one class -/

theorem countWhile_cons (p : Char → Bool) (c : Char) (cs : List Char) :
    countWhile p (c :: cs) = if p c then countWhile p cs + 1 else 0 := by
  by_cases h : p c <;> simp [countWhile, h]

@[simp] theorem countWhile_nil (p : Char → Bool) : countWhile p [] = 0 := rfl

theorem countWhile_eq_zero {p : Char → Bool} {b : List Char}
    (hb : ∀ c, b.head? = some c → p c = false) : countWhile p b = 0 := by
  cases b with
  | nil => rfl
  | cons c cs => simp [countWhile_cons, hb c rfl]

theorem countWhile_append {p : Char → Bool} {a b : List Char}
    (hb : ∀ c, b.head? = some c → p c = false) : ∀ w : List Char,
    countWhile p (w ++ a) ≤ w.length → countWhile p (w ++ b) = countWhile p (w ++ a) := by
  intro w
  induction w with
  | nil =>
    intro h
    rw [List.nil_append] at h ⊢
    rw [List.nil_append, countWhile_eq_zero hb]
    simp only [List.length_nil] at h
    omega
  | cons c w ih =>
    intro h
    rw [List.cons_append, countWhile_cons] at h
    rw [List.cons_append, List.cons_append, countWhile_cons, countWhile_cons]
    by_cases hc : p c
    · rw [if_pos hc] at h ⊢
      rw [if_pos hc, ih (by simp only [List.length_cons] at h; omega)]
    · rw [if_neg hc, if_neg hc]

/-- A stretch that ends inside `w` does not depend on what is behind `w`. -/
theorem countWhile_append_of_lt {p : Char → Bool} {a w : List Char} (b : List Char)
    (h : countWhile p (w ++ a) < w.length) : countWhile p (w ++ b) = countWhile p (w ++ a) := by
  induction w with
  | nil => cases h
  | cons c w ih =>
    rw [List.cons_append, countWhile_cons, List.length_cons] at h
    rw [List.cons_append, List.cons_append, countWhile_cons, countWhile_cons]
    by_cases hc : p c = true
    · rw [if_pos hc] at h ⊢
      rw [if_pos hc, ih (by omega)]
    · rw [if_neg hc, if_neg hc]

/-- A stretch of one class, and then something that is not in it. -/
theorem countWhile_of_all {p : Char → Bool} {w b : List Char} (hw : ∀ c ∈ w, p c = true)
    (hb : ∀ c, b.head? = some c → p c = false) : countWhile p (w ++ b) = w.length := by
  induction w with
  | nil => exact countWhile_eq_zero hb
  | cons c w ih =>
    rw [List.cons_append, countWhile_cons, if_pos (hw c (List.mem_cons_self ..)),
      ih (fun d hd => hw d (List.mem_cons_of_mem _ hd)), List.length_cons]

/-! ### Numbers -/

theorem fractionLength_cons_ne {c : Char} (hc : c ≠ '.') (cs : List Char) :
    fractionLength (c :: cs) = 0 := by
  simp [fractionLength, hc]

theorem fractionLength_point (cs : List Char) : fractionLength ('.' :: cs) =
    if countWhile Char.isDigit cs = 0 then 0 else countWhile Char.isDigit cs + 1 := rfl

theorem fractionLength_closed {b : List Char} (hb : Closed b) : fractionLength b = 0 := by
  cases b with
  | nil => rfl
  | cons c cs =>
    refine fractionLength_cons_ne ?_ cs
    rintro rfl
    exact hb.head_ne rfl rfl

theorem fractionLength_append {a b : List Char} (hb : Closed b) (w : List Char)
    (h : fractionLength (w ++ a) ≤ w.length) :
    fractionLength (w ++ b) = fractionLength (w ++ a) := by
  cases w with
  | nil =>
    rw [List.nil_append] at h ⊢
    rw [List.nil_append, fractionLength_closed hb]
    simp only [List.length_nil] at h
    omega
  | cons c w =>
    by_cases hc : c = '.'
    · subst hc
      rw [List.cons_append, fractionLength_point] at h
      have hle : countWhile Char.isDigit (w ++ a) ≤ w.length := by
        simp only [List.length_cons] at h
        split at h <;> omega
      rw [List.cons_append, List.cons_append, fractionLength_point, fractionLength_point,
        countWhile_append (hb.head_not rfl) w hle]
    · rw [List.cons_append, List.cons_append, fractionLength_cons_ne hc, fractionLength_cons_ne hc]

/-- The length of at least one digit and an optional fraction, or `0`. -/
def decimalLength (cs : List Char) : Nat :=
  if countWhile Char.isDigit cs = 0 then 0
  else countWhile Char.isDigit cs + fractionLength (cs.drop (countWhile Char.isDigit cs))

theorem drop_append_of_le {α : Type} {n : Nat} {w a : List α} (h : n ≤ w.length) :
    (w ++ a).drop n = w.drop n ++ a := List.drop_append_of_le_length h

theorem decimalLength_append {a b : List Char} (hb : Closed b) (w : List Char)
    (h : decimalLength (w ++ a) ≤ w.length) : decimalLength (w ++ b) = decimalLength (w ++ a) := by
  unfold decimalLength at h ⊢
  have hw : countWhile Char.isDigit (w ++ a) ≤ w.length := by
    split at h <;> omega
  rw [countWhile_append (hb.head_not rfl) w hw]
  by_cases h0 : countWhile Char.isDigit (w ++ a) = 0
  · rw [if_pos h0, if_pos h0]
  · rw [if_neg h0, drop_append_of_le hw] at h
    rw [if_neg h0, if_neg h0, drop_append_of_le hw, drop_append_of_le hw,
      fractionLength_append (a := a) hb _ (by rw [List.length_drop]; omega)]

theorem powerLength_minus (cs : List Char) : powerLength ('-' :: cs) =
    if decimalLength cs = 0 then 0 else decimalLength cs + 1 := by
  simp only [powerLength, List.head?_cons, if_true, List.drop_succ_cons, List.drop_zero,
    decimalLength, Nat.add_comm 1]
  split
  · rfl
  · rw [if_neg (by omega)]
    omega

theorem powerLength_of_head_ne {cs : List Char} (h : cs.head? ≠ some '-') :
    powerLength cs = decimalLength cs := by
  simp [powerLength, decimalLength, h]

theorem powerLength_closed {b : List Char} (hb : Closed b) : powerLength b = 0 := by
  have hd : countWhile Char.isDigit b = 0 := countWhile_eq_zero (hb.head_not rfl)
  rw [powerLength_of_head_ne (hb.head_ne rfl), decimalLength, if_pos hd]

theorem powerLength_append {a b : List Char} (hb : Closed b) (w : List Char)
    (h : powerLength (w ++ a) ≤ w.length) : powerLength (w ++ b) = powerLength (w ++ a) := by
  cases w with
  | nil =>
    rw [List.nil_append] at h ⊢
    rw [List.nil_append, powerLength_closed hb]
    simp only [List.length_nil] at h
    omega
  | cons c w =>
    by_cases hc : c = '-'
    · subst hc
      rw [List.cons_append, powerLength_minus] at h
      have hle : decimalLength (w ++ a) ≤ w.length := by
        simp only [List.length_cons] at h
        split at h <;> omega
      rw [List.cons_append, List.cons_append, powerLength_minus, powerLength_minus,
        decimalLength_append hb w hle]
    · have hne : ∀ x, ((c :: w) ++ x).head? ≠ some '-' := by
        intro x
        simpa using hc
      rw [powerLength_of_head_ne (hne a)] at h ⊢
      rw [powerLength_of_head_ne (hne b), decimalLength_append hb _ h]

theorem exponentLength_closed {b : List Char} (hb : Closed b) : exponentLength b = 0 := by
  cases b with
  | nil => rfl
  | cons c cs =>
    have he : c ≠ 'e' := by
      rintro rfl
      exact hb.head_ne rfl rfl
    have hE : c ≠ 'E' := by
      rintro rfl
      exact hb.head_ne rfl rfl
    simp [exponentLength, he, hE]

theorem exponentLength_append {a b : List Char} (hb : Closed b) (w : List Char)
    (h : exponentLength (w ++ a) ≤ w.length) :
    exponentLength (w ++ b) = exponentLength (w ++ a) := by
  cases w with
  | nil =>
    rw [List.nil_append] at h ⊢
    rw [List.nil_append, exponentLength_closed hb]
    simp only [List.length_nil] at h
    omega
  | cons c w =>
    simp only [exponentLength, List.cons_append, List.length_cons] at h ⊢
    by_cases hc : (c == 'e' || c == 'E') = true
    · simp only [hc, Bool.true_and] at h ⊢
      have hle : powerLength (w ++ a) ≤ w.length := by
        split at h
        · omega
        · simp_all
      rw [powerLength_append hb w hle]
    · rw [if_neg (by simp_all), if_neg (by simp_all)]

theorem number_append {a b : List Char} (hb : Closed b) (w : List Char)
    (h : (number (w ++ a)).2 ≤ w.length) : number (w ++ b) = number (w ++ a) := by
  simp only [number] at h ⊢
  have hw : countWhile Char.isDigit (w ++ a) ≤ w.length := by omega
  rw [countWhile_append (hb.head_not rfl) w hw]
  rw [drop_append_of_le hw] at h ⊢
  rw [drop_append_of_le hw]
  have hf : fractionLength (w.drop (countWhile Char.isDigit (w ++ a)) ++ a)
      ≤ (w.drop (countWhile Char.isDigit (w ++ a))).length := by
    rw [List.length_drop]
    omega
  rw [fractionLength_append hb _ hf]
  have hd : countWhile Char.isDigit (w ++ a)
      + fractionLength (w.drop (countWhile Char.isDigit (w ++ a)) ++ a) ≤ w.length := by omega
  rw [drop_append_of_le hd] at h ⊢
  rw [drop_append_of_le hd, exponentLength_append (a := a) hb _ (by rw [List.length_drop]; omega)]

/-! ### The other tokens -/

theorem take_append_of_le {α : Type} {n : Nat} {w a : List α} (h : n ≤ w.length) :
    (w ++ a).take n = w.take n := List.take_append_of_le_length h

theorem word_append {c : Char} {a b : List Char} (hb : Closed b) (w : List Char)
    (h : (word c (w ++ a)).2 ≤ w.length) : word c (w ++ b) = word c (w ++ a) := by
  have hw : countWhile isWordChar (w ++ a) ≤ w.length := by
    simp only [word] at h
    split at h <;> exact h
  simp only [word]
  rw [countWhile_append (hb.head_not rfl) w hw, take_append_of_le hw, take_append_of_le hw]

theorem directive_of_head_not {cs : List Char}
    (h : ∀ c, cs.head? = some c → (c.isAlpha || c == '_') = false) : directive cs = (.invalid, 0) := by
  cases cs with
  | nil => rfl
  | cons c cs => simp [directive, h c rfl]

theorem directive_append {a b : List Char} (hb : Closed b) (w : List Char)
    (h : (directive (w ++ a)).2 ≤ w.length) : directive (w ++ b) = directive (w ++ a) := by
  cases w with
  | nil =>
    -- the word behind `#` has a first character, which would have to be in `w`
    have ha : ∀ c, a.head? = some c → (c.isAlpha || c == '_') = false := by
      intro c hc
      obtain ⟨a, rfl⟩ := List.head?_eq_some_iff.1 hc
      rw [← Bool.not_eq_true]
      intro hstart
      have : isWordChar c = true := by
        simp only [isWordChar, Char.isAlphanum, Bool.or_eq_true] at hstart ⊢
        rcases hstart with hstart | hstart
        · exact Or.inl (Or.inl hstart)
        · exact Or.inr hstart
      simp [directive, hstart, countWhile_cons, this] at h
    rw [List.nil_append, List.nil_append, directive_of_head_not ha,
      directive_of_head_not (hb.head_not rfl)]
  | cons c w =>
    simp only [List.cons_append, directive] at h ⊢
    by_cases hc : (c.isAlpha || c == '_') = true
    · rw [if_pos hc] at h
      rw [if_pos hc, if_pos hc]
      rw [← List.cons_append] at h
      have hw : countWhile isWordChar ((c :: w) ++ a) ≤ (c :: w).length := h
      rw [← List.cons_append, ← List.cons_append, countWhile_append (hb.head_not rfl) _ hw,
        take_append_of_le hw, take_append_of_le hw]
    · rw [if_neg hc, if_neg hc]

theorem string_append {a b : List Char} (w : List Char) (h : (string (w ++ a)).2 ≤ w.length)
    (hi : (string (w ++ a)).1 ≠ .invalid) : string (w ++ b) = string (w ++ a) := by
  simp only [string] at h hi ⊢
  by_cases hq : ((w ++ a).drop
      (countWhile (fun c => c != '\x22' && c != '\n') (w ++ a))).head? = some '\x22'
  · -- the closing quote is inside `w`
    rw [if_pos hq] at h
    have hlt : countWhile (fun c => c != '\x22' && c != '\n') (w ++ a) < w.length := h
    rw [countWhile_append_of_lt b hlt]
    rw [drop_append_of_le (Nat.le_of_lt hlt)] at hq ⊢
    rw [drop_append_of_le (Nat.le_of_lt hlt)]
    cases hd : w.drop (countWhile (fun c => c != '\x22' && c != '\n') (w ++ a)) with
    | nil =>
      have := congrArg List.length hd
      rw [List.length_drop] at this
      simp only [List.length_nil] at this
      omega
    | cons d ds => rfl
  · rw [if_neg hq] at hi
    exact absurd rfl hi

theorem punctuation_append {c : Char} {a b : List Char} (hb : Closed b) (w : List Char)
    (h : (punctuation c (w ++ a)).2 ≤ w.length) :
    punctuation c (w ++ b) = punctuation c (w ++ a) := by
  unfold punctuation at h ⊢
  cases hc : withEquals c with
  | none => rfl
  | some kind =>
    simp only [hc] at h ⊢
    cases w with
    | nil =>
      have ha : a.head? ≠ some '=' := by
        intro ha
        simp [ha] at h
      have hb' : b.head? ≠ some '=' := hb.head_ne rfl
      simp [ha, hb']
    | cons d w => simp

/-! ### The first token -/

/-- **Tokens are local.**  A token that ends inside `w` is the same whatever closed text follows.  It
may be a character at which no token starts, but no string that is not closed. -/
theorem first_append {c : Char} {a b : List Char} (hb : Closed b) (w : List Char)
    (h : (first c (w ++ a)).2 ≤ w.length) (ht : (first c (w ++ a)).1.isTrivia = false)
    (hi : c = '\x22' → (first c (w ++ a)).1 ≠ .invalid) : first c (w ++ b) = first c (w ++ a) := by
  unfold first at h ht hi ⊢
  by_cases h1 : isSpace c = true
  · simp [h1, TokenKind.isTrivia] at ht
  by_cases h2 : (c == '\x27') = true
  · simp [h1, h2, TokenKind.isTrivia] at ht
  simp only [if_neg h1, if_neg h2] at h ht hi ⊢
  by_cases h3 : c.isAlpha = true
  · simp only [if_pos h3] at h ⊢
    exact word_append hb w h
  simp only [if_neg h3] at h ht hi ⊢
  by_cases h4 : c.isDigit = true
  · simp only [if_pos h4] at h ⊢
    exact number_append hb w h
  simp only [if_neg h4] at h ht hi ⊢
  by_cases h5 : c = '.'
  · subst h5
    -- a point is a token only as the start of a fraction
    have hfrac : fractionLength ('.' :: (w ++ a)) ≤ ('.' :: w).length := by
      rw [fractionLength_point]
      by_cases h0 : countWhile Char.isDigit (w ++ a) = 0
      · simp [h0]
      · simp only [beq_self_eq_true, fractionLength_point, if_neg h0] at h ⊢
        simpa using h
    have heq := fractionLength_append (a := a) hb ('.' :: w) hfrac
    rw [List.cons_append, List.cons_append] at heq
    by_cases h0 : countWhile Char.isDigit (w ++ a) = 0
    · simp [heq, fractionLength_point, h0, punctuation, withEquals]
    · have hle : countWhile Char.isDigit (w ++ a) ≤ w.length := by
        rw [fractionLength_point, if_neg h0] at hfrac
        simpa using hfrac
      rw [heq, countWhile_append (hb.head_not rfl) w hle]
      simp [fractionLength_point, h0]
  have h5' : (c == '.') = false := by simpa using h5
  simp only [h5', Bool.false_and, Bool.false_eq_true, if_false] at h ht hi ⊢
  by_cases h6 : (c == '\x22') = true
  · simp only [if_pos h6] at h hi ⊢
    exact string_append w h (hi (eq_of_beq h6))
  simp only [if_neg h6] at h ht hi ⊢
  by_cases h7 : (c == '#') = true
  · simp only [if_pos h7] at h ⊢
    exact directive_append hb w h
  simp only [if_neg h7] at h ht hi ⊢
  by_cases h8 : (c == '/' && decide ((w ++ a).head? = some '*')) = true
  · -- a block comment is trivia, closed or not
    simp only [if_pos h8] at ht
    split at ht <;> simp [TokenKind.isTrivia] at ht
  · have h9 : ¬(c == '/' && decide ((w ++ b).head? = some '*')) = true := by
      cases w with
      | nil =>
        have := hb.head_ne (d := '*') rfl
        simp [this]
      | cons d w => simpa using h8
    simp only [if_neg h8, if_neg h9] at h ⊢
    exact punctuation_append hb w h

/-! ### What starts with a letter or a digit -/

section Classes

variable {p : Char → Bool} {c : Char}

theorem isSpace_of_class (hc : p c = true) (hp : delimiters.all (!p ·) = true) : ¬isSpace c = true := by
  intro hspace
  rw [not_of_isDelimiter (by simp [isDelimiter, hspace]) hp] at hc
  cases hc

theorem beq_of_class {d : Char} (hc : p c = true) (hd : p d = false) : ¬(c == d) = true := by
  intro h
  rw [eq_of_beq h, hd] at hc
  cases hc

theorem toNat_of_isAlpha (hc : c.isAlpha = true) :
    (65 ≤ c.toNat ∧ c.toNat ≤ 90) ∨ (97 ≤ c.toNat ∧ c.toNat ≤ 122) := by
  have hletter : (c.isUpper || c.isLower) = true := hc
  rcases Bool.or_eq_true .. |>.mp hletter with hupper | hlower
  · have hrange : 'A'.val ≤ c.val ∧ c.val ≤ 'Z'.val := of_decide_eq_true hupper
    exact .inl hrange
  · have hrange : (decide ('a'.val ≤ c.val) && decide (c.val ≤ 'z'.val)) = true := hlower
    rw [Bool.and_eq_true, decide_eq_true_eq, decide_eq_true_eq] at hrange
    exact .inr hrange

theorem toNat_of_isDigit (hc : c.isDigit = true) : 48 ≤ c.toNat ∧ c.toNat ≤ 57 := by
  simp only [Char.isDigit, Bool.and_eq_true, decide_eq_true_eq, UInt32.le_iff_toNat_le] at hc
  exact hc

theorem isAlpha_of_isDigit (hc : c.isDigit = true) : ¬c.isAlpha = true := by
  intro hletter
  have hdigit := toNat_of_isDigit hc
  rcases toNat_of_isAlpha hletter with hupper | hlower
  · omega
  · omega

theorem first_of_isAlpha (hc : c.isAlpha = true) (cs : List Char) : first c cs = word c cs := by
  rw [first, if_neg (isSpace_of_class hc rfl), if_neg (beq_of_class hc rfl), if_pos hc]

theorem first_of_isDigit (hc : c.isDigit = true) (cs : List Char) : first c cs = number cs := by
  rw [first, if_neg (isSpace_of_class hc rfl), if_neg (beq_of_class hc rfl),
    if_neg (isAlpha_of_isDigit hc), if_pos hc]

end Classes

end ControlFile.Lexer
