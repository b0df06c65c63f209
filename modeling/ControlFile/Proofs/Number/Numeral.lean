import ControlFile.Number.Decimal
import ControlFile.Number.Shortest
import ControlFile.Proofs.Number.Bits
import ControlFile.Proofs.Number.Nearest
import ControlFile.Proofs.Token.Lexeme

/-!
# Numerals

A numeral is a row of digits, a point with digits behind it or none, and an exponent or none
(`numeral`).  It is one token (`lexesAs_numeral`), and it is read as the double nearest to the number
it stands for: if that number is in the interval of a magnitude, the bits are those of the magnitude
(`nearestBits_of_rounds`, `readNumber?_numeral`).

Every layout of a row of digits is a numeral that stands for the same number (`layout_eq_numeral`).
-/

namespace ControlFile

namespace Decimal

/-! ### Rows of digits -/

/-- All of the row are digits. -/
def IsDigits (ds : List Char) : Prop := ∀ d ∈ ds, d.isDigit = true

theorem IsDigits.append {as bs : List Char} (ha : IsDigits as) (hb : IsDigits bs) :
    IsDigits (as ++ bs) := fun d hd => (List.mem_append.1 hd).elim (ha d) (hb d)

theorem isDigits_toDigits (n : Nat) : IsDigits (Nat.toDigits 10 n) := fun _ hd =>
  Nat.isDigit_of_mem_toDigits (by decide) (by decide) hd

theorem isDigits_zeros (n : Nat) : IsDigits (Shortest.zeros n) := by
  intro d hd
  rw [List.eq_of_mem_replicate hd]
  rfl

theorem digitsValue_append (as bs : List Char) :
    digitsValue (as ++ bs) = 10 ^ bs.length * digitsValue as + digitsValue bs := by
  change Nat.ofDigitChars 10 (as ++ bs) 0 = _
  rw [Nat.ofDigitChars_append, Nat.ofDigitChars_eq_ofDigitChars_zero]
  rfl

theorem digitsValue_zeros (n : Nat) : digitsValue (Shortest.zeros n) = 0 := by
  change Nat.ofDigitChars 10 (List.replicate n '0') 0 = 0
  rw [Nat.ofDigitChars_replicate_zero, Nat.mul_zero]

theorem digitsValue_toDigits (n : Nat) : digitsValue (Nat.toDigits 10 n) = n :=
  Nat.ofDigitChars_ten_toDigits

theorem digitsValue_toString (n : Nat) : digitsValue (toString n).toList = n := by
  rw [Nat.toString_eq_ofList_toDigits, String.toList_ofList, digitsValue_toDigits]

theorem digitsValue_cons (d : Char) (ds : List Char) :
    digitsValue (d :: ds) = 10 ^ ds.length * (d.toNat - 48) + digitsValue ds := by
  rw [← List.singleton_append, digitsValue_append]
  simp [digitsValue]

theorem digitsValue_lt {ds : List Char} (h : IsDigits ds) : digitsValue ds < 10 ^ ds.length := by
  induction ds with
  | nil => exact Nat.one_pos
  | cons d ds ih =>
    have hd := Lexer.toNat_of_isDigit (h d List.mem_cons_self)
    have hds := ih fun c hc => h c (List.mem_cons_of_mem d hc)
    rw [digitsValue_cons, List.length_cons, Nat.pow_succ]
    have : 10 ^ ds.length * (d.toNat - 48) ≤ 10 ^ ds.length * 9 :=
      Nat.mul_le_mul_left _ (by omega)
    omega

theorem le_digitsValue {d : Char} {ds : List Char} (hd : d.isDigit = true) (hne : d ≠ '0') :
    10 ^ ds.length ≤ digitsValue (d :: ds) := by
  have hrange := Lexer.toNat_of_isDigit hd
  have hzero : d.toNat ≠ 48 := fun h => hne (Char.toNat_inj.1 h)
  rw [digitsValue_cons]
  have : 10 ^ ds.length * 1 ≤ 10 ^ ds.length * (d.toNat - 48) := Nat.mul_le_mul_left _ (by omega)
  omega

/-- Zeros at the front do not count. -/
theorem digitsValue_dropWhile (ds : List Char) :
    digitsValue (ds.dropWhile (· == '0')) = digitsValue ds := by
  induction ds with
  | nil => rfl
  | cons d ds ih =>
    by_cases h : d = '0'
    · subst h
      rw [List.dropWhile_cons_of_pos rfl, ih, digitsValue_cons]
      simp
    · rw [List.dropWhile_cons_of_neg (by simpa using h)]

/-! ### The nearest double -/

theorem two_zpow_le_of_rounds {m : Nat} {q : Int} (hq : Binary.IsCanonical m q) {r : ℚ}
    (h : Binary.Rounds m q r) : (2 : ℚ) ^ (-1076 : Int) ≤ r ∧ r < 2 ^ (1025 : Int) := by
  have hm : (1 : ℚ) ≤ m := by exact_mod_cast hq.pos
  have hlt : (m : ℚ) + 1 ≤ 2 ^ (53 : Int) := by
    have : ((m + 1 : Nat) : ℚ) ≤ ((2 ^ 53 : Nat) : ℚ) := by exact_mod_cast hq.lt
    norm_num at this ⊢
    exact this
  have hreach : (Binary.reach m q : ℚ) ≤ 2 := by
    unfold Binary.reach
    split <;> norm_num
  have htwo : (2 : ℚ) ≠ 0 := by norm_num
  have hone : (1 : ℚ) ≤ 2 := by norm_num
  have hleast : -1074 ≤ q := hq.least_le
  have hunit : r * 2 ^ (-q) * 2 ^ q = r := by
    rw [mul_assoc, ← zpow_add₀ htwo, neg_add_cancel, zpow_zero, mul_one]
  have hlow := h.low
  have hhigh := h.high
  generalize r * 2 ^ (-q) = x at *
  rw [← hunit]
  refine ⟨?_, ?_⟩
  · calc (2 : ℚ) ^ (-1076 : Int) ≤ 2 ^ (-2 + q) := zpow_le_zpow_right₀ hone (by omega)
      _ = 2 ^ (-2 : Int) * 2 ^ q := zpow_add₀ htwo _ _
      _ ≤ x * 2 ^ q := mul_le_mul_of_nonneg_right (by norm_num; linarith) (Binary.two_zpow_pos q).le
  · calc x * 2 ^ q < 2 ^ (53 : Int) * 2 ^ q :=
          mul_lt_mul_of_pos_right (by linarith) (Binary.two_zpow_pos q)
      _ = 2 ^ (53 + q) := (zpow_add₀ htwo _ _).symm
      _ ≤ 2 ^ (1025 : Int) := zpow_le_zpow_right₀ hone (by have := hq.le_greatest; omega)

theorem two_pow_lt : 2 ^ 1076 < 10 ^ 400 := by decide +kernel

/-- The number of places before the point is within reach of doubles. -/
theorem places_of_bounds {n len : Nat} {scale : Int} (hn : n < 10 ^ len) (hlen : 10 ^ (len - 1) ≤ n)
    (hpos : 0 < len) (hlo : (2 : ℚ) ^ (-1076 : Int) ≤ n * 10 ^ scale)
    (hhi : (n : ℚ) * 10 ^ scale < 2 ^ (1025 : Int)) : -400 ≤ len + scale ∧ len + scale ≤ 400 := by
  have hten : (10 : ℚ) ≠ 0 := by norm_num
  have hone : (1 : ℚ) < 10 := by norm_num
  have hscale : (0 : ℚ) < 10 ^ scale := zpow_pos (by norm_num) scale
  have hnq : (n : ℚ) < 10 ^ (len : Int) := by
    rw [zpow_natCast]
    exact_mod_cast hn
  have hlenq : (10 : ℚ) ^ ((len : Int) - 1) ≤ n := by
    rw [show (len : Int) - 1 = ((len - 1 : Nat) : Int) by omega, zpow_natCast]
    exact_mod_cast hlen
  have hreach : (2 : ℚ) ^ 1076 < 10 ^ 400 := by exact_mod_cast two_pow_lt
  have hbelow : (10 : ℚ) ^ (-400 : Int) < 2 ^ (-1076 : Int) := by
    rw [zpow_neg, zpow_neg]
    exact (inv_lt_inv₀ (by positivity) (by positivity)).2 hreach
  have habove : (2 : ℚ) ^ (1025 : Int) < 10 ^ (400 : Int) := by
    refine lt_trans ?_ hreach
    exact (zpow_lt_zpow_iff_right₀ (by norm_num)).2 (by norm_num : (1025 : Int) < (1076 : Nat))
  have hup : (10 : ℚ) ^ (-400 : Int) < 10 ^ ((len : Int) + scale) := by
    rw [zpow_add₀ hten]
    exact lt_trans (lt_of_lt_of_le hbelow hlo) (mul_lt_mul_of_pos_right hnq hscale)
  have hdown : (10 : ℚ) ^ ((len : Int) - 1 + scale) < 10 ^ (400 : Int) := by
    rw [zpow_add₀ hten]
    exact lt_trans (lt_of_le_of_lt (mul_le_mul_of_nonneg_right hlenq hscale.le) hhi) habove
  have h₁ := (zpow_lt_zpow_iff_right₀ hone).1 hup
  have h₂ := (zpow_lt_zpow_iff_right₀ hone).1 hdown
  omega

/-- A number in the interval of a magnitude has the bits of that magnitude. -/
theorem nearestBits_of_rounds {ds : List Char} (hds : IsDigits ds) {scale : Int} {m : Nat} {q : Int}
    (hq : Binary.IsCanonical m q) (h : Binary.Rounds m q (digitsValue ds * 10 ^ scale)) :
    nearestBits ds scale = Binary.bitsOf m q := by
  obtain ⟨hlo, hhi⟩ := two_zpow_le_of_rounds hq h
  rw [← digitsValue_dropWhile ds] at h hlo hhi
  unfold nearestBits
  simp only
  cases hsig : ds.dropWhile (· == '0') with
  | nil =>
    rw [hsig] at hlo
    have := Binary.two_zpow_pos (-1076)
    rw [show digitsValue [] = 0 from rfl, Nat.cast_zero, zero_mul] at hlo
    linarith
  | cons d rest =>
    rw [hsig] at h hlo hhi
    have hmem : ∀ c ∈ d :: rest, c ∈ ds := fun c hc =>
      (List.dropWhile_sublist (· == '0')).subset (hsig ▸ hc)
    have hne : d ≠ '0' := by
      have := List.head_dropWhile_not (· == '0') (l := ds) (by rw [hsig]; simp)
      simp only [hsig, List.head_cons] at this
      simpa using this
    have hlt : digitsValue (d :: rest) < 10 ^ (d :: rest).length :=
      digitsValue_lt fun c hc => hds c (hmem c hc)
    have hplaces := places_of_bounds hlt (le_digitsValue (hds d (hmem d List.mem_cons_self)) hne)
      (Nat.succ_pos _) hlo hhi
    have hlow : (decide (((d :: rest).length : Int) + scale < -400)) = false :=
      decide_eq_false (by omega)
    rw [hlow, List.isEmpty_cons, Bool.or_self, if_neg Bool.false_ne_true, if_neg (by omega)]
    have hratio := Binary.ratio_scaleRatio (by norm_num : 0 < 10) scale (digitsValue (d :: rest)) 1
    rw [show Binary.ratio (digitsValue (d :: rest), 1) = digitsValue (d :: rest) by
      simp [Binary.ratio], Nat.cast_ofNat] at hratio
    rw [← hratio] at h
    exact Binary.nearestBits_of_rounds
      (Binary.den_scaleRatio_pos (by norm_num) scale _ Nat.one_pos) hq h

/-! ### Numerals -/

/-- An exponent with its mark. -/
def exponentText : Option Int → List Char
  | none => []
  | some e => 'e' :: (toString e).toList

/-- Digits, a point and digits if there are any, and an exponent if there is one. -/
def numeral (whole fraction : List Char) (exponent : Option Int) : List Char :=
  whole ++ ((if fraction = [] then [] else '.' :: fraction) ++ exponentText exponent)

/-- The digits of a whole number and its sign. -/
theorem toList_toString_int (e : Int) :
    (toString e).toList = (if e < 0 then ['-'] else []) ++ Nat.toDigits 10 e.natAbs := by
  rw [Int.toString_eq_repr, Int.repr_eq_if]
  by_cases h : 0 ≤ e
  · rw [if_pos h, if_neg (by omega), Nat.toList_repr, List.nil_append]
    congr 1
    omega
  · rw [if_neg h, if_pos (by omega), String.toList_append, Nat.toList_repr]
    rw [show (-e).toNat = e.natAbs by omega]
    rfl

theorem readInt?_toString (e : Int) : readInt? (toString e).toList = some e := by
  have hdigits := isDigits_toDigits e.natAbs
  have hvalue := digitsValue_toDigits e.natAbs
  have hne : Nat.toDigits 10 e.natAbs ≠ [] := Nat.toDigits_ne_nil
  rw [toList_toString_int]
  cases hd : Nat.toDigits 10 e.natAbs with
  | nil => exact absurd hd hne
  | cons d ds =>
    rw [hd] at hdigits hvalue
    have hall : (d :: ds).all Char.isDigit = true := List.all_eq_true.2 hdigits
    by_cases h : e < 0
    · rw [if_pos h, List.singleton_append]
      simp only [readInt?, decide_true, Bool.true_or, if_true, hall, List.isEmpty_cons,
        Bool.not_true, Bool.or_self, Bool.false_eq_true, if_false, hvalue]
      congr 1
      omega
    · have hsign : d ≠ '-' ∧ d ≠ '+' := by
        have := hdigits d List.mem_cons_self
        constructor <;> rintro rfl <;> cases this
      rw [if_neg h, List.nil_append]
      simp only [readInt?, hsign.1, hsign.2, decide_false, Bool.or_self, Bool.false_eq_true, if_false,
        hall, List.isEmpty_cons, Bool.not_true, hvalue]
      congr 1
      omega

theorem readExponent?_exponentText (e : Option Int) :
    readExponent? (exponentText e) = some (e.getD 0) := by
  cases e with
  | none => rfl
  | some e => exact readInt?_toString e

theorem takeWhile_digits {ds r : List Char} (hds : IsDigits ds)
    (hr : ∀ c, r.head? = some c → c.isDigit = false) :
    (ds ++ r).takeWhile Char.isDigit = ds ∧ (ds ++ r).dropWhile Char.isDigit = r := by
  have hnone : r.takeWhile Char.isDigit = [] ∧ r.dropWhile Char.isDigit = r := by
    cases r with
    | nil => exact ⟨rfl, rfl⟩
    | cons c r =>
      have := hr c rfl
      exact ⟨List.takeWhile_cons_of_neg (by simp [this]), List.dropWhile_cons_of_neg (by simp [this])⟩
  rw [List.takeWhile_append_of_pos hds, List.dropWhile_append_of_pos hds, hnone.1, hnone.2,
    List.append_nil]
  exact ⟨rfl, rfl⟩

theorem head_exponentText (e : Option Int) :
    ∀ c, (exponentText e).head? = some c → c.isDigit = false := by
  intro c hc
  cases e with
  | none => cases hc
  | some e =>
    cases hc
    rfl

theorem readUnsigned?_numeral {whole fraction : List Char} (hw : IsDigits whole) (hne : whole ≠ [])
    (hf : IsDigits fraction) (e : Option Int) (negative : Bool) :
    readUnsigned? negative (numeral whole fraction e) =
      some (Binary.ofBits negative (nearestBits (whole ++ fraction) (e.getD 0 - fraction.length))) := by
  have hempty : whole.isEmpty = false := by simpa using hne
  by_cases hfrac : fraction = []
  · subst hfrac
    obtain ⟨h₁, h₂⟩ := takeWhile_digits hw (head_exponentText e)
    have hshape : numeral whole [] e = whole ++ exponentText e := rfl
    have hpoint : (exponentText e).head? ≠ some '.' := by cases e <;> simp [exponentText]
    unfold readUnsigned?
    simp only [hshape, h₁, h₂]
    cases hexp : exponentText e with
    | nil =>
      have := readExponent?_exponentText e
      rw [hexp] at this
      simp [hempty, this]
    | cons c cs =>
      have := readExponent?_exponentText e
      rw [hexp] at this hpoint
      have hc : c ≠ '.' := by simpa using hpoint
      split
      · rename_i heq
        cases heq
        exact absurd rfl hc
      · simp [hempty, this]
  · obtain ⟨h₁, h₂⟩ := takeWhile_digits (r := '.' :: (fraction ++ exponentText e)) hw
      (fun c hc => by cases hc; rfl)
    obtain ⟨h₃, h₄⟩ := takeWhile_digits hf (head_exponentText e)
    have hshape : numeral whole fraction e = whole ++ '.' :: (fraction ++ exponentText e) := by
      simp [numeral, hfrac]
    unfold readUnsigned?
    simp only [hshape, h₁, h₂, h₃, h₄, hempty, Bool.false_and, Bool.false_eq_true, if_false,
      readExponent?_exponentText, Option.map_some]

theorem toLower_of_isDigit {d : Char} (hd : d.isDigit = true) : d.toLower = d := by
  have h := Lexer.toNat_of_isDigit hd
  rw [Char.toLower, dif_neg]
  rintro ⟨hle, -⟩
  have : 65 ≤ d.toNat := hle
  omega

/-- What starts with a digit has no sign and is not a name. -/
theorem read?_of_isDigit {d : Char} (hd : d.isDigit = true) (cs : List Char) :
    read? (d :: cs) = readUnsigned? false (d :: cs) := by
  have hread : read? (d :: cs) = readMagnitude? false (d :: cs) := by
    unfold read?
    split
    · rename_i heq
      cases heq
      cases hd
    · rename_i heq
      cases heq
      cases hd
    · rfl
  have hname : ∀ c rest, String.ofList ((d :: cs).map Char.toLower) = String.ofList (c :: rest) →
      d = c := by
    intro c rest heq
    have := String.ofList_injective heq
    rw [List.map_cons, toLower_of_isDigit hd] at this
    exact (List.cons.inj this).1
  rw [hread]
  unfold readMagnitude?
  split
  · rename_i heq
    cases hname 'i' ['n', 'f'] heq
    cases hd
  · rename_i heq
    cases hname 'i' ['n', 'f', 'i', 'n', 'i', 't', 'y'] heq
    cases hd
  · rename_i heq
    cases hname 'n' ['a', 'n'] heq
    cases hd
  · rfl

theorem not_isExponentMark_of_isDigit {d : Char} (hd : d.isDigit = true) :
    isExponentMark d = false := by
  unfold isExponentMark
  rw [Bool.or_eq_false_iff, beq_eq_false_iff_ne, beq_eq_false_iff_ne]
  constructor <;> rintro rfl <;> cases hd

theorem dropWhile_numeral {whole fraction : List Char} (hw : IsDigits whole) (hf : IsDigits fraction)
    (e : Option Int) :
    (numeral whole fraction e).dropWhile (!isExponentMark ·) = exponentText e := by
  have hpre : ∀ c ∈ whole ++ (if fraction = [] then [] else '.' :: fraction),
      (!isExponentMark c) = true := by
    intro c hc
    rw [Bool.not_eq_true']
    rcases List.mem_append.1 hc with hc | hc
    · exact not_isExponentMark_of_isDigit (hw c hc)
    · split at hc
      · cases hc
      · rcases List.mem_cons.1 hc with rfl | hc
        · rfl
        · exact not_isExponentMark_of_isDigit (hf c hc)
  rw [numeral, ← List.append_assoc, List.dropWhile_append_of_pos hpre]
  cases e <;> rfl

theorem not_mem_point_exponent (e : Option Int) : '.' ∉ (exponentText e).drop 1 := by
  intro h
  cases e with
  | none => cases h
  | some e =>
    rw [exponentText, List.drop_one, List.tail_cons, toList_toString_int] at h
    rcases List.mem_append.1 h with h | h
    · split at h
      · simp at h
      · cases h
    · cases isDigits_toDigits _ _ h

/-- **A numeral is read as the double nearest to it.** -/
theorem readNumber?_numeral {whole fraction : List Char} (hw : IsDigits whole) (hne : whole ≠ [])
    (hf : IsDigits fraction) (e : Option Int) {bits : Nat}
    (hbits : nearestBits (whole ++ fraction) (e.getD 0 - fraction.length) = bits)
    (hmag : Binary.IsMagnitude bits) :
    readNumber? (numeral whole fraction e) = some (Binary.ofBits false bits) := by
  obtain ⟨d, ds, rfl⟩ := List.exists_cons_of_ne_nil hne
  have hread : read? (numeral (d :: ds) fraction e) = some (Binary.ofBits false bits) := by
    have hnum := readUnsigned?_numeral hw hne hf e false
    rw [hbits] at hnum
    rw [← hnum]
    exact read?_of_isDigit (hw d List.mem_cons_self) _
  unfold readNumber?
  simp only [dropWhile_numeral hw hf, List.contains_eq_mem, not_mem_point_exponent, decide_false,
    Bool.false_eq_true, if_false, hread]
  rw [Option.filter_some, if_pos (Binary.isFinite_ofBits hmag false)]

/-! ### Numerals are tokens -/

open Lexer

theorem decimalLength_digits {ds : List Char} (h : IsDigits ds) (hne : ds ≠ []) :
    decimalLength ds = ds.length := by
  have hcount : countWhile Char.isDigit ds = ds.length := by
    have := countWhile_of_all (b := []) h (fun _ hc => by cases hc)
    rwa [List.append_nil] at this
  have hpos : 0 < ds.length := List.length_pos_iff.2 hne
  rw [decimalLength, hcount, if_neg (by omega), List.drop_length]
  rfl

theorem powerLength_toString (e : Int) :
    powerLength (toString e).toList = (toString e).toList.length := by
  have hdigits := isDigits_toDigits e.natAbs
  have hne : Nat.toDigits 10 e.natAbs ≠ [] := Nat.toDigits_ne_nil
  have hlen := decimalLength_digits hdigits hne
  have hpos : 0 < (Nat.toDigits 10 e.natAbs).length := List.length_pos_iff.2 hne
  rw [toList_toString_int]
  split
  · rw [List.singleton_append, powerLength_minus, hlen, if_neg (by omega), List.length_cons]
  · rw [List.nil_append, powerLength_of_head_ne, hlen]
    intro h
    cases hdigits '-' (List.mem_of_mem_head? h)

theorem exponentLength_exponentText (e : Option Int) :
    exponentLength (exponentText e) = (exponentText e).length := by
  cases e with
  | none => rfl
  | some e =>
    have hne : (toString e).toList.length ≠ 0 := by
      rw [toList_toString_int, List.length_append]
      have := List.length_pos_iff.2 (Nat.toDigits_ne_nil (b := 10) (n := e.natAbs))
      omega
    simp only [exponentText, exponentLength, beq_self_eq_true, Bool.true_or, Bool.true_and,
      powerLength_toString, bne_iff_ne, ne_eq, hne, not_false_eq_true, if_true, List.length_cons]

/-- The point and the digits behind it. -/
def fractionText (fraction : List Char) : List Char :=
  if fraction = [] then [] else '.' :: fraction

theorem head_fractionText (fraction : List Char) (e : Option Int) :
    ∀ c, (fractionText fraction ++ exponentText e).head? = some c → c.isDigit = false := by
  intro c hc
  unfold fractionText at hc
  split at hc
  · exact head_exponentText e c hc
  · cases hc
    rfl

theorem fractionLength_numeral {fraction : List Char} (hf : IsDigits fraction) (e : Option Int) :
    fractionLength (fractionText fraction ++ exponentText e) = (fractionText fraction).length := by
  unfold fractionText
  split
  · cases e <;> rfl
  · rename_i hne
    have hcount := countWhile_of_all hf (head_exponentText e)
    have hpos : 0 < fraction.length := List.length_pos_iff.2 hne
    rw [List.cons_append, fractionLength_point, hcount, if_neg (by omega), List.length_cons]

theorem number_numeral {whole fraction : List Char} (hw : IsDigits whole) (hf : IsDigits fraction)
    (e : Option Int) :
    number (numeral whole fraction e) =
      (if fraction = [] ∧ e = none then .integer else .decimal, (numeral whole fraction e).length) := by
  have hshape : numeral whole fraction e = whole ++ (fractionText fraction ++ exponentText e) := rfl
  have hwhole := countWhile_of_all hw (head_fractionText fraction e)
  have hkind : (fractionText fraction).length + (exponentText e).length = 0 ↔
      fraction = [] ∧ e = none := by
    unfold fractionText
    cases e <;> by_cases h : fraction = [] <;> simp [h, exponentText]
  unfold number
  simp only [hshape, hwhole, List.drop_left, fractionLength_numeral hf]
  rw [← List.drop_drop, List.drop_left, List.drop_left, exponentLength_exponentText]
  simp only [hkind, List.length_append, Nat.add_assoc]

/-- **A numeral is one token.** -/
theorem lexesAs_numeral {whole fraction : List Char} (hw : IsDigits whole) (hne : whole ≠ [])
    (hf : IsDigits fraction) (e : Option Int) :
    LexesAs (if fraction = [] ∧ e = none then .integer else .decimal)
      (String.ofList (numeral whole fraction e)) := by
  obtain ⟨d, ds, rfl⟩ := List.exists_cons_of_ne_nil hne
  refine ⟨d, numeral ds fraction e, String.toList_ofList .., ?_⟩
  rw [first_of_isDigit (hw d List.mem_cons_self),
    number_numeral (fun c hc => hw c (List.mem_cons_of_mem d hc)) hf]

/-! ### Layouts -/

/-- **Every layout of a row of digits is a numeral that stands for the same number.** -/
theorem layout_eq_numeral {ds : List Char} (hds : IsDigits ds) (hne : ds ≠ []) (point : Int) :
    ∃ whole fraction e, Shortest.layout ds point = numeral whole fraction e ∧ IsDigits whole ∧
      whole ≠ [] ∧ IsDigits fraction ∧ ¬(fraction = [] ∧ e = none) ∧
      (digitsValue (whole ++ fraction) : ℚ) * 10 ^ (e.getD 0 - fraction.length : Int) =
        digitsValue ds * 10 ^ (point - ds.length : Int) := by
  have hten : (10 : ℚ) ≠ 0 := by norm_num
  unfold Shortest.layout
  split
  · obtain ⟨d, rest, rfl⟩ := List.exists_cons_of_ne_nil hne
    refine ⟨[d], rest, some (point - 1), ?_, ?_, by simp, ?_, by simp, ?_⟩
    · cases rest <;> simp [numeral, exponentText]
    · intro c hc
      exact hds c (List.mem_cons.2 (Or.inl (List.mem_singleton.1 hc)))
    · exact fun c hc => hds c (List.mem_cons_of_mem d hc)
    · rw [List.singleton_append, Option.getD_some, List.length_cons]
      congr 2
      push_cast
      omega
  · split
    · rename_i hpoint
      refine ⟨['0'], Shortest.zeros (-point).toNat ++ ds, none, ?_, ?_, by simp,
        (isDigits_zeros _).append hds, ?_, ?_⟩
      · simp [numeral, exponentText, hne]
      · exact fun c hc => by rw [List.mem_singleton.1 hc]; rfl
      · exact fun h => hne (List.append_eq_nil_iff.1 h.1).2
      · have hvalue : digitsValue (['0'] ++ (Shortest.zeros (-point).toNat ++ ds)) = digitsValue ds := by
          rw [digitsValue_append, digitsValue_append, digitsValue_zeros]
          simp [digitsValue]
        rw [hvalue, Option.getD_none, List.length_append, Shortest.zeros, List.length_replicate]
        congr 2
        push_cast
        omega
    · split
      · rename_i hlen
        refine ⟨ds ++ Shortest.zeros (point.toNat - ds.length), ['0'], none, ?_,
          hds.append (isDigits_zeros _), by simp [hne], ?_, by simp, ?_⟩
        · simp [numeral, exponentText]
        · exact fun c hc => by rw [List.mem_singleton.1 hc]; rfl
        · rw [digitsValue_append, digitsValue_append, digitsValue_zeros,
            show digitsValue ['0'] = 0 from rfl, Shortest.zeros, List.length_replicate,
            show point - ds.length = ((point.toNat - ds.length : Nat) : Int) by omega, zpow_natCast]
          push_cast
          simp only [List.length_singleton, Option.getD_none]
          norm_num
          ring
      · rename_i hpoint hlen
        refine ⟨ds.take point.toNat, ds.drop point.toNat, none, ?_,
          fun c hc => hds c (List.mem_of_mem_take hc), ?_, fun c hc => hds c (List.mem_of_mem_drop hc),
          ?_, ?_⟩
        · have : ds.drop point.toNat ≠ [] := by
            rw [Ne, List.drop_eq_nil_iff]
            omega
          simp [numeral, exponentText, this]
        · rw [Ne, List.take_eq_nil_iff]
          rintro (h | h)
          · omega
          · exact hne h
        · rintro ⟨h, -⟩
          rw [List.drop_eq_nil_iff] at h
          omega
        · rw [List.take_append_drop, List.length_drop, Option.getD_none]
          congr 2
          omega

end Decimal

end ControlFile
