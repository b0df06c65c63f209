import ControlFile.Proofs.Number.Numeral
import ControlFile.Proofs.Number.Shortest

/-!
# Numbers read back

The text of a finite double without its sign is one token (`lexesAs_magnitudeText`), and with the
sign put before it again it is read as the same double (`readNumber?_magnitudeText`).  It is a
numeral that stands for a number in the interval of the double.

In the other direction, a number that has been read is finite and has no sign of its own
(`unsigned_of_readNumber?`).
-/

namespace ControlFile

/-! ### Whole numbers -/

theorem lexesAs_integer (n : Nat) : LexesAs .integer (toString n) := by
  have hnil : Decimal.IsDigits [] := fun _ hd => (List.not_mem_nil hd).elim
  have h := Decimal.lexesAs_numeral (Decimal.isDigits_toDigits n) Nat.toDigits_ne_nil hnil none
  rw [if_pos ⟨rfl, rfl⟩] at h
  rwa [Nat.toString_eq_ofList_toDigits, ← List.append_nil (Nat.toDigits 10 n)]

/-! ### The parts of a finite double -/

namespace Binary

theorem exists_ofFloat? {x : Float} (h : x.isFinite = true) : ∃ b, ofFloat? x = some b := by
  obtain ⟨negative, bits, hbits, rfl⟩ := exists_ofBits h
  exact ⟨_, ofFloat?_ofBits hbits negative⟩

theorem isFinite_of_ofFloat? {x : Float} {b : Binary} (h : ofFloat? x = some b) :
    x.isFinite = true := by
  rw [isFinite_iff]
  intro hfield
  have hfield' : x.toBits.toNat / 2 ^ 52 % 2048 = 2047 := hfield
  simp only [ofFloat?, Nat.pow_eq, hfield', if_true] at h
  cases h

/-- A finite double is its sign and the bits of its mantissa and exponent. -/
theorem eq_ofBits_of_ofFloat? {x : Float} {b : Binary} (h : ofFloat? x = some b) :
    IsMagnitude (bitsOf b.mantissa b.exponent) ∧
      x = ofBits b.negative (bitsOf b.mantissa b.exponent) ∧
      (b.mantissa ≠ 0 → IsCanonical b.mantissa b.exponent) ∧
      (b.mantissa = 0 → bitsOf b.mantissa b.exponent = 0) := by
  obtain ⟨negative, bits, hbits, rfl⟩ := exists_ofBits (isFinite_of_ofFloat? h)
  have hlt : bits < 2047 * 2 ^ 52 := hbits
  rw [ofFloat?_ofBits hbits negative] at h
  split at h <;> cases h
  · have : bitsOf bits leastExponent = bits := by simp [bitsOf]
    rw [this]
    exact ⟨hbits, rfl, fun hne => ⟨by omega, by simp only; omega, by simp, by simp [leastExponent],
      fun hl => absurd hl (by simp)⟩, id⟩
  · rename_i hfield
    have : bitsOf (2 ^ 52 + bits % 2 ^ 52) (leastExponent + (bits / 2 ^ 52 - 1 : Nat)) = bits := by
      have : (leastExponent + (bits / 2 ^ 52 - 1 : Nat) - leastExponent).toNat = bits / 2 ^ 52 - 1 := by
        omega
      rw [bitsOf, this]
      omega
    rw [this]
    exact ⟨hbits, rfl, fun hne => ⟨by simp only; omega, by simp only; omega,
      by simp only [leastExponent]; omega, by simp only [leastExponent]; omega, fun _ => by simp only; omega⟩,
      fun hzero => absurd hzero (by simp only; omega)⟩

end Binary

theorem isFinite_neg {x : Float} (h : x.isFinite = true) : (-x).isFinite = true := by
  obtain ⟨negative, bits, hbits, rfl⟩ := Binary.exists_ofBits h
  rw [Binary.neg_ofBits hbits]
  exact Binary.isFinite_ofBits hbits _

/-! ### The text of a double -/

namespace Shortest

open Decimal

/-- The digits of a number are those without the zeros at the end, and the zeros. -/
theorem exists_zeros (n : Nat) : ∃ t, Nat.toDigits 10 n = digitRow n ++ zeros t := by
  have hzeros : (Nat.toDigits 10 n).reverse.takeWhile (· == '0') =
      zeros ((Nat.toDigits 10 n).reverse.takeWhile (· == '0')).length :=
    List.eq_replicate_iff.2 ⟨rfl, fun c hc => by
      simpa using List.all_eq_true.1 List.all_takeWhile c hc⟩
  refine ⟨((Nat.toDigits 10 n).reverse.takeWhile (· == '0')).length, ?_⟩
  have hsplit := congrArg List.reverse
    (List.takeWhile_append_dropWhile (p := (· == '0')) (l := (Nat.toDigits 10 n).reverse))
  rw [List.reverse_append, List.reverse_reverse, hzeros, zeros, List.reverse_replicate] at hsplit
  exact hsplit.symm

theorem isDigits_digitRow (n : Nat) : IsDigits (digitRow n) := by
  obtain ⟨t, ht⟩ := exists_zeros n
  intro d hd
  exact isDigits_toDigits n d (ht ▸ List.mem_append_left _ hd)

/-- The text stands for the decimal that was found. -/
theorem digitsValue_digitRow (n : Nat) (k : Int) :
    (digitsValue (digitRow n) : ℚ) * 10 ^ ((Nat.toDigits 10 n).length + k - (digitRow n).length : Int) =
      n * 10 ^ k := by
  obtain ⟨t, ht⟩ := exists_zeros n
  have hvalue := digitsValue_toDigits n
  rw [ht, digitsValue_append, digitsValue_zeros, Nat.add_zero, zeros, List.length_replicate] at hvalue
  have hpower : ((Nat.toDigits 10 n).length + k - (digitRow n).length : Int) = t + k := by
    have := congrArg List.length ht
    rw [List.length_append, zeros, List.length_replicate] at this
    omega
  have hcast : (n : ℚ) = 10 ^ t * digitsValue (digitRow n) := by exact_mod_cast hvalue.symm
  rw [hpower, hcast, zpow_add₀ (by norm_num), zpow_natCast]
  ring

/-- **The text of a double is a numeral in its interval.** -/
theorem magnitudeText_eq_numeral {b : Binary} (hb : Binary.IsCanonical b.mantissa b.exponent) :
    ∃ whole fraction e, magnitudeText b = numeral whole fraction e ∧ IsDigits whole ∧ whole ≠ [] ∧
      IsDigits fraction ∧ ¬(fraction = [] ∧ e = none) ∧
      Binary.Rounds b.mantissa b.exponent
        (digitsValue (whole ++ fraction) * 10 ^ (e.getD 0 - fraction.length : Int)) := by
  have hrounds := rounds_digits hb
  have hmantissa : b.mantissa ≠ 0 := by
    have := hb.pos
    omega
  have hne : digitRow (digits b).1 ≠ [] := by
    intro hnil
    have hvalue := digitsValue_digitRow (digits b).1 (digits b).2
    rw [hnil, show digitsValue [] = 0 from rfl, Nat.cast_zero, zero_mul] at hvalue
    have := hrounds.pos hb
    linarith
  obtain ⟨whole, fraction, e, htext, hw, hwne, hf, hdecimal, hvalue⟩ :=
    layout_eq_numeral (isDigits_digitRow (digits b).1) hne
      ((Nat.toDigits 10 (digits b).1).length + (digits b).2)
  refine ⟨whole, fraction, e, ?_, hw, hwne, hf, hdecimal, ?_⟩
  · rw [magnitudeText, if_neg hmantissa]
    exact htext
  · rw [hvalue, digitsValue_digitRow]
    exact hrounds

theorem magnitudeText_zero {b : Binary} (h : b.mantissa = 0) :
    magnitudeText b = numeral ['0'] ['0'] none := by
  rw [magnitudeText, if_pos h]
  rfl

theorem isDigits_zero : IsDigits ['0'] := isDigits_zeros 1

/-- **The text of a double is one token.** -/
theorem lexesAs_magnitudeText {x : Float} {b : Binary} (h : Binary.ofFloat? x = some b) :
    LexesAs .decimal (String.ofList (magnitudeText b)) := by
  by_cases hm : b.mantissa = 0
  · rw [magnitudeText_zero hm]
    exact lexesAs_numeral isDigits_zero (by simp) isDigits_zero none
  · obtain ⟨whole, fraction, e, htext, hw, hwne, hf, hdecimal, -⟩ :=
      magnitudeText_eq_numeral ((Binary.eq_ofBits_of_ofFloat? h).2.2.1 hm)
    have := lexesAs_numeral hw hwne hf e
    rwa [if_neg hdecimal, ← htext] at this

/-- **The text of a double reads back.** -/
theorem readNumber?_magnitudeText {x : Float} {b : Binary} (h : Binary.ofFloat? x = some b) :
    ∃ y, readNumber? (magnitudeText b) = some y ∧ (if b.negative then -y else y) = x := by
  obtain ⟨hmag, hx, hcanonical, hzero⟩ := Binary.eq_ofBits_of_ofFloat? h
  refine ⟨Binary.ofBits false (Binary.bitsOf b.mantissa b.exponent), ?_, ?_⟩
  · by_cases hm : b.mantissa = 0
    · rw [magnitudeText_zero hm, hzero hm]
      exact readNumber?_numeral isDigits_zero (by simp) isDigits_zero none rfl (hzero hm ▸ hmag)
    · obtain ⟨whole, fraction, e, htext, hw, hwne, hf, -, hrounds⟩ :=
        magnitudeText_eq_numeral (hcanonical hm)
      rw [htext]
      exact readNumber?_numeral hw hwne hf e
        (nearestBits_of_rounds (hw.append hf) (hcanonical hm) hrounds) hmag
  · rw [Binary.neg_ofBits hmag, hx]
    cases b.negative <;> rfl

end Shortest

/-! ### Numbers that have been read -/

namespace Decimal

theorem nearestBits_le (num den : Nat) : Binary.nearestBits num den ≤ Binary.infinityBits := by
  unfold Binary.nearestBits
  split
  · exact Nat.zero_le _
  · exact Nat.min_le_right ..

theorem isUnsigned_of_le {bits : Nat} (h : bits ≤ Binary.infinityBits + 2 ^ 51) :
    Binary.IsUnsigned (Binary.ofBits false bits) := by
  have hlt : bits < 2 ^ 63 := by
    simp only [Binary.infinityBits, Nat.pow_eq] at h
    omega
  refine Binary.isUnsigned_ofBits ?_
  rw [if_neg Bool.false_ne_true, UInt64.toNat_ofNat_of_lt' (Nat.lt_of_lt_of_le hlt (by decide))]
  exact hlt

theorem isUnsigned_nearest (ds : List Char) (scale : Int) :
    Binary.IsUnsigned (Binary.ofBits false (nearestBits ds scale)) := by
  refine isUnsigned_of_le (Nat.le_trans ?_ (Nat.le_add_right _ _))
  unfold nearestBits
  simp only
  split
  · exact Nat.zero_le _
  · split
    · exact Nat.le_refl _
    · exact nearestBits_le ..

theorem isUnsigned_of_readUnsigned? {cs : List Char} {x : Float}
    (h : readUnsigned? false cs = some x) : Binary.IsUnsigned x := by
  have hsome : ∀ ds scale e, Option.map (fun e : Int =>
      Binary.ofBits false (nearestBits ds (e - scale))) e = some x → Binary.IsUnsigned x := by
    intro ds scale e he
    obtain ⟨e, -, rfl⟩ := Option.map_eq_some_iff.1 he
    exact isUnsigned_nearest ..
  unfold readUnsigned? at h
  simp only at h
  split at h <;> split at h
  · cases h
  · exact hsome _ _ _ h
  · cases h
  · exact hsome _ _ _ h

theorem isUnsigned_of_read? {cs : List Char} (hcs : cs.head? ≠ some '-') {x : Float}
    (h : read? cs = some x) : Binary.IsUnsigned x := by
  have hmagnitude : ∀ ds, readMagnitude? false ds = some x → Binary.IsUnsigned x := by
    intro ds hds
    unfold readMagnitude? at hds
    split at hds
    · cases hds
      exact isUnsigned_of_le (Nat.le_add_right _ _)
    · cases hds
      exact isUnsigned_of_le (Nat.le_add_right _ _)
    · cases hds
      exact isUnsigned_of_le (Nat.le_refl _)
    · exact isUnsigned_of_readUnsigned? hds
  unfold read? at h
  split at h
  · exact absurd rfl hcs
  · exact hmagnitude _ h
  · exact hmagnitude _ h

theorem head_ne_of_lexesAs {text : String} (h : LexesAs .decimal text) :
    text.toList.head? ≠ some '-' := by
  obtain ⟨c, cs, htext, hfirst⟩ := h
  rw [htext, List.head?_cons, Ne, Option.some.injEq]
  rintro rfl
  have hpunct : Lexer.punctuation '-' cs = (.decimal, cs.length) := hfirst
  unfold Lexer.punctuation at hpunct
  simp only [Lexer.withEquals] at hpunct
  split at hpunct <;> cases hpunct

/-- No power of ten has a sign. -/
def PowersUnsigned : Prop := ∀ e, Binary.IsUnsigned (Float.pow 10.0 e)

/-- A power of ten that has no sign is not changed. -/
theorem powerOfTen_eq (h : PowersUnsigned) (e : Float) : powerOfTen e = Float.pow 10.0 e :=
  Binary.abs_of_isUnsigned (h e)

/-- **A number that has been read is finite and has no sign.** -/
theorem unsigned_of_readNumber? {text : String} (h : LexesAs .decimal text) {x : Float}
    (hx : readNumber? text.toList = some x) :
    x.isFinite = true ∧ ∃ b, Binary.ofFloat? x = some b ∧ b.negative = false := by
  have hhead := head_ne_of_lexesAs h
  unfold readNumber? at hx
  obtain ⟨hread, hfinite⟩ := Option.filter_eq_some_iff.1 hx
  refine ⟨hfinite, ?_⟩
  have hunsigned : Binary.IsUnsigned x := by
    split at hread
    · obtain ⟨m, hm, hrest⟩ := Option.bind_eq_some_iff.1 hread
      obtain ⟨e, he, hvalue⟩ := Option.bind_eq_some_iff.1 hrest
      cases hvalue
      refine (isUnsigned_of_read? ?_ hm).mul (Binary.isUnsigned_abs _)
      intro hminus
      cases hcs : text.toList with
      | nil => rw [hcs] at hminus; cases hminus
      | cons c cs =>
        rw [hcs, List.takeWhile_cons] at hminus
        rw [hcs] at hhead
        split at hminus
        · exact hhead hminus
        · cases hminus
    · exact isUnsigned_of_read? hhead hread
  obtain ⟨b, hb⟩ := Binary.exists_ofFloat? hfinite
  exact ⟨b, hb, Binary.negative_of_isUnsigned hunsigned hb⟩

end Decimal

end ControlFile
