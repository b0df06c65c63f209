import ControlFile.Proofs.Number.Numeral

/-!
# Texts that are no numbers

Numbers are written with letters, digits, points and signs, so a text with any other character in it is not
read as one (`refused_of_mem`).  Nor is a name with a sign before it (`refused_signed`): the names of numbers
that are not finite are read, and what they stand for is refused.
-/

namespace ControlFile.Decimal

/-- The characters that numbers are written with. -/
def isNumeric (c : Char) : Bool := c.isAlphanum || c == '.' || c == '+' || c == '-'

section Numeric

variable {cs : List Char}

theorem isNumeric_of_isDigit {c : Char} (h : c.isDigit = true) : isNumeric c = true := by
  simp [isNumeric, Char.isAlphanum, h]

theorem isNumeric_of_isDigits (h : IsDigits cs) : ∀ c ∈ cs, isNumeric c = true := fun c hc =>
  isNumeric_of_isDigit (h c hc)

/-! ### Whole numbers -/

/-- A whole number is written with digits and signs. -/
theorem isDigit_or_sign_of_readInt? {n : Int} (h : readInt? cs = some n) :
    ∀ c ∈ cs, c.isDigit = true ∨ c = '-' ∨ c = '+' := by
  cases cs with
  | nil => cases h
  | cons c cs =>
    simp only [readInt?, Bool.or_eq_true, decide_eq_true_eq, Option.ite_none_left_eq_some] at h
    obtain ⟨hdigits, -⟩ := h
    rw [not_or, Bool.not_eq_true', Bool.not_eq_false, List.all_eq_true] at hdigits
    intro d hd
    by_cases hsign : c = '-' ∨ c = '+'
    · rw [if_pos hsign] at hdigits
      rcases List.mem_cons.1 hd with rfl | hd
      · exact .inr hsign
      · exact .inl (hdigits.2 d hd)
    · rw [if_neg hsign] at hdigits
      exact .inl (hdigits.2 d hd)

theorem isNumeric_of_readInt? {n : Int} (h : readInt? cs = some n) : ∀ c ∈ cs, isNumeric c = true := by
  intro c hc
  rcases isDigit_or_sign_of_readInt? h c hc with hdigit | rfl | rfl
  · exact isNumeric_of_isDigit hdigit
  · rfl
  · rfl

theorem isNumeric_of_readExponent? {e : Int} (h : readExponent? cs = some e) :
    ∀ c ∈ cs, isNumeric c = true := by
  cases cs with
  | nil => simp
  | cons c cs =>
    simp only [readExponent?, Bool.or_eq_true, decide_eq_true_eq, Option.ite_none_right_eq_some] at h
    obtain ⟨hmark, hread⟩ := h
    refine List.forall_mem_cons.2 ⟨?_, isNumeric_of_readInt? hread⟩
    rcases hmark with rfl | rfl <;> rfl

/-! ### Decimals -/

/-- A decimal without a sign is digits, with a point among or beside them if there are any behind it, and
something else; one digit is there. -/
structure IsDecimal (cs whole fraction rest : List Char) : Prop where
  isDigits_whole : IsDigits whole
  isDigits_fraction : IsDigits fraction
  nonempty : ¬(whole = [] ∧ fraction = [])
  isNumeric_rest : ∀ c ∈ rest, isNumeric c = true
  text : cs = whole ++ '.' :: (fraction ++ rest) ∨ fraction = [] ∧ cs = whole ++ rest

theorem exists_isDecimal {negative : Bool} {x : Float} (h : readUnsigned? negative cs = some x) :
    ∃ whole fraction rest, IsDecimal cs whole fraction rest := by
  have hdigits : ∀ ds : List Char, IsDigits (ds.takeWhile Char.isDigit) := fun ds d hd =>
    List.all_eq_true.1 List.all_takeWhile d hd
  have hsplit := List.takeWhile_append_dropWhile (p := Char.isDigit) (l := cs)
  -- what is behind the whole digits is a point with digits and the rest, or only the rest
  obtain ⟨fraction, rest, hfraction, htext, h⟩ : ∃ fraction rest, IsDigits fraction ∧
      (cs.dropWhile Char.isDigit = '.' :: (fraction ++ rest) ∨
        fraction = [] ∧ cs.dropWhile Char.isDigit = rest) ∧
      (if (cs.takeWhile Char.isDigit).isEmpty && fraction.isEmpty then none
        else (readExponent? rest).map fun e => Binary.ofBits negative
          (nearestBits (cs.takeWhile Char.isDigit ++ fraction) (e - fraction.length))) = some x := by
    unfold readUnsigned? at h
    dsimp only at h
    split at h
    · rename_i r hpoint
      exact ⟨_, _, hdigits r, .inl (by rw [hpoint, List.takeWhile_append_dropWhile]), h⟩
    · exact ⟨[], _, fun _ hd => absurd hd List.not_mem_nil, .inr ⟨rfl, rfl⟩, h⟩
  obtain ⟨hempty, h⟩ := Option.ite_none_left_eq_some.1 h
  obtain ⟨e, he, -⟩ := Option.map_eq_some_iff.1 h
  refine ⟨_, fraction, rest, hdigits cs, hfraction, by simpa using hempty,
    isNumeric_of_readExponent? he, ?_⟩
  refine htext.imp (fun h => ?_) fun h => ⟨h.1, ?_⟩
  · rw [← h, hsplit]
  · rw [← h.2, hsplit]

theorem IsDecimal.isNumeric {whole fraction rest : List Char} (h : IsDecimal cs whole fraction rest) :
    ∀ c ∈ cs, isNumeric c = true := by
  have hwhole := isNumeric_of_isDigits h.isDigits_whole
  rcases h.text with rfl | ⟨-, rfl⟩
  · have hfraction := isNumeric_of_isDigits h.isDigits_fraction
    exact List.forall_mem_append.2 ⟨hwhole, List.forall_mem_cons.2 ⟨rfl,
      List.forall_mem_append.2 ⟨hfraction, h.isNumeric_rest⟩⟩⟩
  · exact List.forall_mem_append.2 ⟨hwhole, h.isNumeric_rest⟩

/-- A decimal starts with a digit or with the point. -/
theorem IsDecimal.head {c : Char} {whole fraction rest : List Char}
    (h : IsDecimal (c :: cs) whole fraction rest) : c.isDigit = true ∨ c = '.' := by
  have htext := h.text
  cases hwhole : whole with
  | nil =>
    rw [hwhole, List.nil_append, List.nil_append] at htext
    rcases htext with htext | ⟨hfraction, -⟩
    · exact .inr (List.cons.inj htext).1
    · exact absurd ⟨hwhole, hfraction⟩ h.nonempty
  | cons d ds =>
    have hd := h.isDigits_whole d (by simp [hwhole])
    rw [hwhole, List.cons_append, List.cons_append, List.cons.injEq, List.cons.injEq] at htext
    rcases htext with ⟨rfl, -⟩ | ⟨-, rfl, -⟩ <;> exact .inl hd

theorem isNumeric_of_isAlpha {c : Char} (h : c.isAlpha = true) : isNumeric c = true := by
  simp [isNumeric, Char.isAlphanum, h]

/-- What a text without a sign is read as: the name of a number that is not finite, or a decimal. -/
theorem readMagnitude?_cases {negative : Bool} {x : Float} (h : readMagnitude? negative cs = some x) :
    (x.isFinite = false ∧ ∀ c ∈ cs, isNumeric c = true) ∨
      ∃ whole fraction rest, IsDecimal cs whole fraction rest := by
  have hname : ∀ name : List Char, name.all Char.isAlpha = true →
      String.ofList (cs.map Char.toLower) = String.ofList name → ∀ c ∈ cs, isNumeric c = true := by
    intro name hletters hsame c hc
    have hlower : c.toLower ∈ name := by
      rw [← String.ofList_injective hsame]
      exact List.mem_map_of_mem hc
    refine isNumeric_of_isAlpha ?_
    rw [← Char.isAlpha_toLower_eq_isAlpha]
    exact List.all_eq_true.1 hletters _ hlower
  unfold readMagnitude? at h
  split at h
  · rename_i hinf
    cases h
    exact .inl ⟨by cases negative <;> rfl, hname ['i', 'n', 'f'] rfl hinf⟩
  · rename_i hinfinity
    cases h
    exact .inl ⟨by cases negative <;> rfl, hname ['i', 'n', 'f', 'i', 'n', 'i', 't', 'y'] rfl hinfinity⟩
  · rename_i hnan
    cases h
    exact .inl ⟨by cases negative <;> rfl, hname ['n', 'a', 'n'] rfl hnan⟩
  · exact .inr (exists_isDecimal h)

theorem isNumeric_of_readMagnitude? {negative : Bool} {x : Float}
    (h : readMagnitude? negative cs = some x) : ∀ c ∈ cs, isNumeric c = true := by
  rcases readMagnitude?_cases h with ⟨-, hnumeric⟩ | ⟨whole, fraction, rest, hdecimal⟩
  · exact hnumeric
  · exact hdecimal.isNumeric

theorem isNumeric_of_read? {x : Float} (h : read? cs = some x) : ∀ c ∈ cs, isNumeric c = true := by
  unfold read? at h
  split at h
  · exact List.forall_mem_cons.2 ⟨rfl, isNumeric_of_readMagnitude? h⟩
  · exact List.forall_mem_cons.2 ⟨rfl, isNumeric_of_readMagnitude? h⟩
  · exact isNumeric_of_readMagnitude? h

/-! ### Numbers of a control file -/

/-- **Numbers are written with letters, digits, points and signs.** -/
theorem isNumeric_of_readNumber? {x : Float} (h : readNumber? cs = some x) :
    ∀ c ∈ cs, isNumeric c = true := by
  have hsplit := List.takeWhile_append_dropWhile (p := (!isExponentMark ·)) (l := cs)
  obtain ⟨hread, -⟩ := Option.filter_eq_some_iff.1 h
  split at hread
  · -- both parts are read, and the mark between them is a letter
    obtain ⟨m, hm, hrest⟩ := Option.bind_eq_some_iff.1 hread
    obtain ⟨e, he, -⟩ := Option.bind_eq_some_iff.1 hrest
    rw [← hsplit]
    refine List.forall_mem_append.2 ⟨isNumeric_of_read? hm, ?_⟩
    have hexponent := isNumeric_of_read? he
    have hmark := List.head?_dropWhile_not (!isExponentMark ·) cs
    cases hdrop : cs.dropWhile (!isExponentMark ·) with
    | nil => simp
    | cons d ds =>
      rw [hdrop, List.drop_one, List.tail_cons] at hexponent
      rw [hdrop] at hmark
      refine List.forall_mem_cons.2 ⟨?_, hexponent⟩
      have hd : isExponentMark d = true := by simpa using hmark
      rw [isExponentMark, Bool.or_eq_true, beq_iff_eq, beq_iff_eq] at hd
      rcases hd with rfl | rfl <;> rfl
  · exact isNumeric_of_read? hread

/-- **A name with a sign before it is no number.** -/
theorem readNumber?_signed {sign c : Char} (hsign : sign = '-' ∨ sign = '+') (hc : c.isAlpha = true)
    (hpoint : '.' ∉ cs) : readNumber? (sign :: c :: cs) = none := by
  have hne : '.' ∉ sign :: c :: cs := by
    rw [List.mem_cons, List.mem_cons, not_or, not_or]
    refine ⟨?_, ?_, hpoint⟩
    · rcases hsign with rfl | rfl <;> decide
    · rintro rfl
      cases hc
  have hexponent : ¬(((sign :: c :: cs).dropWhile (!isExponentMark ·)).drop 1).contains '.' = true := by
    rw [List.contains_iff_mem]
    exact fun hmem => hne ((List.dropWhile_sublist _).subset (List.mem_of_mem_drop hmem))
  have hread : ∃ negative, read? (sign :: c :: cs) = readMagnitude? negative (c :: cs) := by
    rcases hsign with rfl | rfl <;> exact ⟨_, rfl⟩
  obtain ⟨negative, hread⟩ := hread
  rw [readNumber?, if_neg hexponent, hread]
  refine Option.eq_none_iff_forall_ne_some.2 fun x hx => ?_
  obtain ⟨hx, hfinite⟩ := Option.filter_eq_some_iff.1 hx
  rcases readMagnitude?_cases hx with ⟨hinfinite, -⟩ | ⟨whole, fraction, rest, hdecimal⟩
  · rw [hinfinite] at hfinite
    cases hfinite
  · rcases hdecimal.head with hdigit | rfl
    · exact Lexer.isAlpha_of_isDigit hdigit hc
    · cases hc

/-! ### Refused texts -/

/-- The text is read neither as a whole number nor as a decimal. -/
def Refused (cs : List Char) : Prop := readInt? cs = none ∧ readNumber? cs = none

theorem refused_of_mem {c : Char} (hc : c ∈ cs) (hforeign : isNumeric c = false) : Refused cs := by
  refine ⟨Option.eq_none_iff_forall_ne_some.2 fun n hn => ?_,
    Option.eq_none_iff_forall_ne_some.2 fun x hx => ?_⟩
  · exact Bool.noConfusion (hforeign.symm.trans (isNumeric_of_readInt? hn c hc))
  · exact Bool.noConfusion (hforeign.symm.trans (isNumeric_of_readNumber? hx c hc))

theorem refused_signed {sign c : Char} (hsign : sign = '-' ∨ sign = '+') (hc : c.isAlpha = true)
    (hpoint : '.' ∉ cs) : Refused (sign :: c :: cs) := by
  refine ⟨Option.eq_none_iff_forall_ne_some.2 fun n hn => ?_, readNumber?_signed hsign hc hpoint⟩
  rcases isDigit_or_sign_of_readInt? hn c (by simp) with hdigit | rfl | rfl
  · exact Lexer.isAlpha_of_isDigit hdigit hc
  · cases hc
  · cases hc

end Numeric

end ControlFile.Decimal
