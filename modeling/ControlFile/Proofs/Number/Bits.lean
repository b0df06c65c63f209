import ControlFile.Number.Binary
import Mathlib

/-!
# Doubles and their bits

A finite double is its sign and the bits below it, and `Binary.ofBits` puts them together again
(`exists_ofBits`).  What `Binary.ofFloat?` reads off a double made of such bits is the fields of the
bits (`ofFloat?_ofBits`), and the negated double has the other sign and the same bits (`neg_ofBits`).
-/

namespace ControlFile.Binary

open Float.Model Float.Model.UnpackedFloat

/-! ### The fields of a word -/

/-- Sixty-four bits, as a double has them. -/
abbrev Word := BitVec (1 + 11 + 52)

theorem toNat_mantissa (b : Word) :
    (@unpackMantissa Format.binary64 b).toNat = b.toNat % 2 ^ 52 := by
  simp [unpackMantissa]

theorem toNat_exponent (b : Word) :
    (@unpackExponent Format.binary64 b).toNat = b.toNat / 2 ^ 52 % 2 ^ 11 := by
  simp [unpackExponent, Nat.shiftRight_eq_div_pow]

theorem toNat_sign (b : Word) :
    (@unpackSign Format.binary64 b).toNat = b.toNat / 2 ^ 63 % 2 := by
  simp [unpackSign, Nat.shiftRight_eq_div_pow]

theorem toNat_packComponents (s : Sign) (e : BitVec 11) (m : BitVec 52) :
    (packComponents Format.binary64 s e m).toNat
      = s.toBitVec.toNat * 2 ^ 63 + e.toNat * 2 ^ 52 + m.toNat := by
  have he : s.toBitVec.toNat <<< 11 ||| e.toNat = s.toBitVec.toNat * 2 ^ 11 + e.toNat := by
    rw [← Nat.shiftLeft_add_eq_or_of_lt e.isLt, Nat.shiftLeft_eq]
  have hm : (s.toBitVec.toNat * 2 ^ 11 + e.toNat) <<< 52 ||| m.toNat
      = (s.toBitVec.toNat * 2 ^ 11 + e.toNat) * 2 ^ 52 + m.toNat := by
    rw [← Nat.shiftLeft_add_eq_or_of_lt m.isLt, Nat.shiftLeft_eq]
  unfold packComponents
  rw [BitVec.toNat_append, BitVec.toNat_append, he, hm]
  omega

theorem toBitVec_ofBitVec (b : BitVec 1) : (Sign.ofBitVec b).toBitVec = b := by
  have : b = 0#1 ∨ b = 1#1 := by
    have := b.isLt
    rcases Nat.lt_or_ge b.toNat 1 with h | h
    · exact Or.inl (BitVec.eq_of_toNat_eq (by simp; omega))
    · exact Or.inr (BitVec.eq_of_toNat_eq (by simp; omega))
  rcases this with rfl | rfl <;> rfl

/-- A word is put together from its fields. -/
theorem packComponents_fields (b : Word) :
    packComponents Format.binary64 (Sign.ofBitVec (@unpackSign Format.binary64 b))
      (@unpackExponent Format.binary64 b) (@unpackMantissa Format.binary64 b) = b := by
  apply BitVec.eq_of_toNat_eq
  rw [toNat_packComponents, toBitVec_ofBitVec, toNat_sign, toNat_exponent, toNat_mantissa]
  have := b.isLt
  omega

/-- The word of a finite double: its exponent is not all ones. -/
def IsFiniteWord (b : Word) : Prop := b.toNat / 2 ^ 52 % 2 ^ 11 ≠ 2047

theorem exponent_ne_of_isFinite {b : Word} (h : IsFiniteWord b) :
    @unpackExponent Format.binary64 b ≠ -1#11 := by
  intro heq
  have := congrArg BitVec.toNat heq
  rw [toNat_exponent] at this
  exact h this

/-- The number with another sign. -/
def withSign (s : Sign) : UnpackedFloat → UnpackedFloat
  | .notANumber => .notANumber
  | .infinity _ => .infinity s
  | .zero _ => .zero s
  | .finite _ m e h => .finite s m e h

theorem log2_eq {n k : Nat} (hlo : 2 ^ k ≤ n) (hhi : n < 2 ^ (k + 1)) : n.log2 = k := by
  have hne : n ≠ 0 := by
    have := Nat.two_pow_pos k
    omega
  have h₁ := (Nat.le_log2 hne).2 hlo
  have h₂ := (Nat.log2_lt hne).2 hhi
  omega

/-- **Unpacking loses nothing.**  Packed again with some sign, a finite word has that sign and the
fields it had. -/
theorem pack_withSign {b : Word} (h : IsFiniteWord b) (s : Sign) :
    pack Format.binary64 (withSign s (unpack Format.binary64 b)) =
      packComponents Format.binary64 s (@unpackExponent Format.binary64 b)
        (@unpackMantissa Format.binary64 b) := by
  have hexp := toNat_exponent b
  have hman := toNat_mantissa b
  unfold UnpackedFloat.unpack
  simp only [if_neg (exponent_ne_of_isFinite h)]
  by_cases h0 : @unpackExponent Format.binary64 b = 0#11
  · rw [if_pos h0]
    have hz : (@unpackExponent Format.binary64 b).toNat = 0 := by rw [h0]; rfl
    by_cases hm0 : @unpackMantissa Format.binary64 b = 0#52
    · rw [dif_pos hm0, h0, hm0]
      rfl
    · rw [dif_neg hm0]
      have hlt : (@unpackMantissa Format.binary64 b).toNat < 2 ^ 52 := BitVec.isLt _
      have hne : (@unpackMantissa Format.binary64 b).toNat ≠ 0 := by
        intro hz
        exact hm0 (BitVec.eq_of_toNat_eq hz)
      have hlog := (Nat.log2_lt hne).2 hlt
      simp only [withSign, UnpackedFloat.pack, hz]
      rw [if_neg (by decide), if_neg (by simp only [Format.mantissaBits]; omega), h0]
      simp
  · rw [if_neg h0]
    have hne : b.toNat / 2 ^ 52 % 2 ^ 11 ≠ 0 := by
      intro hz
      exact h0 (BitVec.eq_of_toNat_eq (by rw [hexp, hz]; rfl))
    have hfin : b.toNat / 2 ^ 52 % 2 ^ 11 ≠ 2047 := h
    have hlt : (@unpackMantissa Format.binary64 b).toNat < 2 ^ 52 := BitVec.isLt _
    have happ : (1#1 ++ @unpackMantissa Format.binary64 b).toNat
        = 2 ^ 52 + (@unpackMantissa Format.binary64 b).toNat := by
      rw [BitVec.toNat_append, ← Nat.shiftLeft_add_eq_or_of_lt (BitVec.isLt _)]
      rfl
    have hlog : (1#1 ++ @unpackMantissa Format.binary64 b).toNat.log2 = 52 := by
      rw [happ]
      exact log2_eq (Nat.le_add_right _ _) (by omega)
    have hbias : (((@unpackExponent Format.binary64 b).toNat : Int)
        - (Format.binary64.exponentBias + (52 : Nat) : Int) + Format.binary64.exponentBias
        + (52 : Nat)).toNat
        = b.toNat / 2 ^ 52 % 2 ^ 11 := by
      rw [hexp]
      omega
    simp only [withSign, UnpackedFloat.pack]
    rw [hbias, hlog, if_neg (by omega), if_pos (by decide), happ]
    congr 1
    · exact BitVec.eq_of_toNat_eq (by rw [BitVec.toNat_ofNat, hexp, Nat.mod_eq_of_lt (by omega)])
    · exact BitVec.eq_of_toNat_eq (by rw [BitVec.toNat_ofNat]; omega)

/-! ### Doubles -/

/-- The bits of a double. -/
def word (x : Float) : Word := x.toBits.toBitVec

theorem eq_of_word {x y : Float} (h : word x = word y) : x = y := by
  obtain ⟨⟨a, ha⟩⟩ := x
  obtain ⟨⟨b, hb⟩⟩ := y
  have hab : a = b := UInt64.toBitVec_inj.1 h
  subst hab
  rfl

theorem word_ofBits {u : UInt64} (h : IsFiniteWord u.toBitVec) : word (Float.ofBits u) = u.toBitVec := by
  change UnpackedFloat.pack Format.binary64 (UnpackedFloat.unpack Format.binary64 u.toBitVec) = _
  have hsign : UnpackedFloat.unpack Format.binary64 u.toBitVec =
      withSign (Sign.ofBitVec (@unpackSign Format.binary64 u.toBitVec))
        (UnpackedFloat.unpack Format.binary64 u.toBitVec) := by
    unfold UnpackedFloat.unpack
    simp only
    split
    · split <;> rfl
    · split
      · split <;> rfl
      · rfl
  rw [hsign, pack_withSign h, packComponents_fields]

theorem isFinite_iff {x : Float} : x.isFinite = true ↔ IsFiniteWord (word x) := by
  change (UnpackedFloat.unpack Format.binary64 (word x)).isFinite = true ↔ _
  unfold UnpackedFloat.unpack
  simp only
  by_cases h : @unpackExponent Format.binary64 (word x) = -1#11
  · rw [if_pos h]
    have hnot : ¬IsFiniteWord (word x) := by
      intro hf
      exact exponent_ne_of_isFinite hf h
    split <;> simp [UnpackedFloat.isFinite, hnot]
  · rw [if_neg h]
    have hf : IsFiniteWord (word x) := by
      intro hf
      exact h (BitVec.eq_of_toNat_eq (by rw [toNat_exponent, hf]; rfl))
    simp only [hf, iff_true]
    split
    · split <;> rfl
    · rfl

/-- The negated double has the other sign and the same fields. -/
theorem word_neg {x : Float} (h : IsFiniteWord (word x)) :
    word (-x) = packComponents Format.binary64
      (-Sign.ofBitVec (@unpackSign Format.binary64 (word x)))
      (@unpackExponent Format.binary64 (word x))
      (@unpackMantissa Format.binary64 (word x)) := by
  rw [← pack_withSign h]
  change UnpackedFloat.pack Format.binary64 (UnpackedFloat.unpack Format.binary64 (word x)).neg = _
  congr 1
  unfold UnpackedFloat.unpack
  simp only
  split
  · split <;> rfl
  · split
    · split <;> rfl
    · rfl

/-! ### Signs and bits below them -/

/-- The bits of a finite double without its sign. -/
def IsMagnitude (bits : Nat) : Prop := bits < infinityBits

theorem toNat_signed {bits : Nat} (h : IsMagnitude bits) (negative : Bool) :
    (UInt64.ofNat (if negative then Nat.pow 2 63 + bits else bits)).toBitVec.toNat
      = (if negative then 2 ^ 63 else 0) + bits := by
  have hlt : bits < 2047 * 2 ^ 52 := h
  cases negative with
  | true =>
    rw [if_pos rfl, if_pos rfl]
    exact Nat.mod_eq_of_lt (by simp only [Nat.pow_eq]; omega)
  | false =>
    rw [if_neg Bool.false_ne_true, if_neg Bool.false_ne_true, Nat.zero_add]
    exact Nat.mod_eq_of_lt (by omega)

theorem isFiniteWord_signed {bits : Nat} (h : IsMagnitude bits) (negative : Bool) :
    IsFiniteWord (UInt64.ofNat (if negative then Nat.pow 2 63 + bits else bits)).toBitVec := by
  have hlt : bits < 2047 * 2 ^ 52 := h
  unfold IsFiniteWord
  rw [toNat_signed h]
  cases negative <;> simp <;> omega

theorem toNat_word_ofBits {bits : Nat} (h : IsMagnitude bits) (negative : Bool) :
    (word (ofBits negative bits)).toNat = (if negative then 2 ^ 63 else 0) + bits := by
  rw [ofBits, word_ofBits (isFiniteWord_signed h negative), toNat_signed h]

theorem isFinite_ofBits {bits : Nat} (h : IsMagnitude bits) (negative : Bool) :
    (ofBits negative bits).isFinite = true := by
  rw [isFinite_iff, ofBits, word_ofBits (isFiniteWord_signed h negative)]
  exact isFiniteWord_signed h negative

/-- Every finite double is a sign and a magnitude. -/
theorem exists_ofBits {x : Float} (h : x.isFinite = true) :
    ∃ negative bits, IsMagnitude bits ∧ x = ofBits negative bits := by
  have hf : (word x).toNat / 2 ^ 52 % 2 ^ 11 ≠ 2047 := isFinite_iff.1 h
  have hlt : (word x).toNat < 2 ^ 64 := (word x).isLt
  have hmag : IsMagnitude ((word x).toNat % 2 ^ 63) := by
    change (word x).toNat % 2 ^ 63 < 2047 * 2 ^ 52
    omega
  refine ⟨decide (2 ^ 63 ≤ (word x).toNat), (word x).toNat % 2 ^ 63, hmag, eq_of_word ?_⟩
  apply BitVec.eq_of_toNat_eq
  rw [toNat_word_ofBits hmag]
  by_cases hs : 2 ^ 63 ≤ (word x).toNat
  · simp only [hs, decide_true, if_true]
    omega
  · simp only [hs, decide_false, Bool.false_eq_true, if_false]
    omega

/-- Negation keeps the magnitude. -/
theorem neg_ofBits {bits : Nat} (h : IsMagnitude bits) (negative : Bool) :
    -ofBits negative bits = ofBits (!negative) bits := by
  have hlt : bits < 2047 * 2 ^ 52 := h
  have hword := toNat_word_ofBits h negative
  apply eq_of_word
  apply BitVec.eq_of_toNat_eq
  rw [word_neg (isFinite_iff.1 (isFinite_ofBits h negative)), toNat_packComponents, toNat_exponent,
    toNat_mantissa, hword, toNat_word_ofBits h]
  have hsign : @unpackSign Format.binary64 (word (ofBits negative bits))
      = if negative then 1#1 else 0#1 := by
    apply BitVec.eq_of_toNat_eq
    rw [toNat_sign, hword]
    cases negative <;> simp <;> omega
  rw [hsign]
  cases negative with
  | true =>
    have : (-Sign.ofBitVec 1#1).toBitVec.toNat = 0 := rfl
    simp only [if_true, this, Bool.not_true, Bool.false_eq_true, if_false]
    omega
  | false =>
    have : (-Sign.ofBitVec 0#1).toBitVec.toNat = 1 := rfl
    simp only [if_true, this, Bool.not_false, Bool.false_eq_true, if_false]
    omega

/-- What is read off a double: its sign, and the fields of its magnitude. -/
theorem ofFloat?_ofBits {bits : Nat} (h : IsMagnitude bits) (negative : Bool) :
    ofFloat? (ofBits negative bits) = some
      (if bits / 2 ^ 52 = 0 then ⟨negative, bits, leastExponent⟩
        else ⟨negative, 2 ^ 52 + bits % 2 ^ 52, leastExponent + (bits / 2 ^ 52 - 1 : Nat)⟩) := by
  have hlt : bits < 2047 * 2 ^ 52 := h
  have hword : (ofBits negative bits).toBits.toNat = (if negative then 2 ^ 63 else 0) + bits :=
    toNat_word_ofBits h negative
  unfold ofFloat?
  simp only [hword, Nat.pow_eq]
  have hfield : ((if negative = true then 2 ^ 63 else 0) + bits) / 2 ^ 52 % 2048 = bits / 2 ^ 52 := by
    cases negative <;> simp <;> omega
  have hfrac : ((if negative = true then 2 ^ 63 else 0) + bits) % 2 ^ 52 = bits % 2 ^ 52 := by
    cases negative <;> simp only [if_true, Bool.false_eq_true, if_false] <;> omega
  have hneg : decide (2 ^ 63 ≤ (if negative = true then 2 ^ 63 else 0) + bits) = negative := by
    cases negative
    · exact decide_eq_false (by simp only [Bool.false_eq_true, if_false]; omega)
    · exact decide_eq_true (by simp only [if_true]; omega)
  rw [hfield, hfrac, hneg, if_neg (by omega)]
  split
  · rw [Nat.mod_eq_of_lt (by omega)]
  · rfl

/-! ### Doubles without a minus -/

/-- The sign bit is not set. -/
def IsUnsigned (x : Float) : Prop := (word x).toNat < 2 ^ 63

/-- A number that is written without a minus, or none at all. -/
def IsPositive : UnpackedFloat → Prop
  | .notANumber => True
  | .infinity s | .zero s | .finite s .. => s = .positive

theorem isPositive_unpack {b : Word} (h : b.toNat < 2 ^ 63) :
    IsPositive (UnpackedFloat.unpack Format.binary64 b) := by
  have hsign : Sign.ofBitVec (@unpackSign Format.binary64 b) = .positive := by
    have hzero : @unpackSign Format.binary64 b = 0#1 :=
      BitVec.eq_of_toNat_eq (by rw [toNat_sign, Nat.div_eq_of_lt h]; rfl)
    rw [hzero]
    rfl
  unfold UnpackedFloat.unpack
  simp only [hsign]
  split
  · split
    · rfl
    · trivial
  · split
    · split <;> rfl
    · rfl

theorem toNat_packComponents_positive (e : BitVec 11) (m : BitVec 52) :
    (packComponents Format.binary64 .positive e m).toNat < 2 ^ 63 := by
  rw [toNat_packComponents]
  have he := e.isLt
  have hm := m.isLt
  have hs : Sign.positive.toBitVec.toNat = 0 := rfl
  omega

theorem toNat_pack_lt {u : UnpackedFloat} (h : IsPositive u) :
    (UnpackedFloat.pack Format.binary64 u).toNat < 2 ^ 63 := by
  cases u with
  | notANumber => exact toNat_packComponents_positive _ _
  | infinity s =>
    cases h
    exact toNat_packComponents_positive _ _
  | zero s =>
    cases h
    exact toNat_packComponents_positive _ _
  | finite s m e hm =>
    cases h
    unfold UnpackedFloat.pack
    simp only
    split
    · exact toNat_packComponents_positive _ _
    · split <;> exact toNat_packComponents_positive _ _

theorem isPositive_mul {u v : UnpackedFloat} (hu : IsPositive u) (hv : IsPositive v) :
    IsPositive (UnpackedFloat.mul Format.binary64 u v) := by
  cases u <;> cases v <;>
    simp only [IsPositive] at hu hv <;> subst_vars <;> unfold UnpackedFloat.mul <;>
    first
    | trivial
    | rfl
    | (unfold roundWithAccuracy
       simp only
       split <;> rfl)

theorem isUnsigned_ofBits {u : UInt64} (h : u.toNat < 2 ^ 63) : IsUnsigned (Float.ofBits u) :=
  toNat_pack_lt (isPositive_unpack h)

theorem isUnsigned_abs (x : Float) : IsUnsigned x.abs := by
  refine toNat_pack_lt (u := (UnpackedFloat.unpack Format.binary64 (word x)).abs) ?_
  cases UnpackedFloat.unpack Format.binary64 (word x) <;> trivial

/-- **A double without a sign is its own magnitude**, also if it is infinite or no number. -/
theorem abs_of_isUnsigned {x : Float} (h : IsUnsigned x) : x.abs = x := by
  apply eq_of_word
  change UnpackedFloat.pack Format.binary64 (UnpackedFloat.unpack Format.binary64 (word x)).abs = word x
  have habs : (UnpackedFloat.unpack Format.binary64 (word x)).abs =
      UnpackedFloat.unpack Format.binary64 (word x) := by
    have hpositive := isPositive_unpack h
    cases hx : UnpackedFloat.unpack Format.binary64 (word x) with
    | notANumber => rfl
    | _ =>
      rw [hx] at hpositive
      cases hpositive
      rfl
  rw [habs, pack_unpack]
  split
  · rename_i hnan
    obtain ⟨hexponent, hmantissa⟩ := of_decide_eq_true hnan
    exact (x.toModel.valid.eq_packedNaN hexponent hmantissa).symm
  · rfl

/-- A product of numbers without a minus has none. -/
theorem IsUnsigned.mul {x y : Float} (hx : IsUnsigned x) (hy : IsUnsigned y) : IsUnsigned (x * y) :=
  toNat_pack_lt (isPositive_mul (isPositive_unpack hx) (isPositive_unpack hy))

theorem negative_of_isUnsigned {x : Float} (h : IsUnsigned x) {b : Binary} (hb : ofFloat? x = some b) :
    b.negative = false := by
  have hneg : decide (Nat.pow 2 63 ≤ x.toBits.toNat) = false := by
    have : x.toBits.toNat < 2 ^ 63 := h
    simp only [Nat.pow_eq, decide_eq_false_iff_not]
    omega
  unfold ofFloat? at hb
  simp only [hneg] at hb
  split at hb
  · cases hb
  · split at hb <;> cases hb <;> rfl

end ControlFile.Binary
