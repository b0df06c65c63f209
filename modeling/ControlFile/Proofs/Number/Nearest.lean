import ControlFile.Number.Binary
import Mathlib

/-!
# The nearest double

A magnitude is `m · 2 ^ q` with a mantissa of at most 53 bits, and with all of them unless the
exponent is the least one (`IsCanonical`).  The reals that are rounded to it reach half way to its
neighbours, the ends belonging to it if `m` is even; below a power of two the neighbour is nearer
(`Rounds`).

`nearestBits_of_rounds`: the bits that `Binary.nearestBits` computes for a ratio in that interval
are those of the magnitude.  The exponent is found from the ratio alone, and it is the one of the
magnitude with one exception: just below a power of two it is one less, and then the mantissa is
rounded up to twice its least value, whose carry makes the exponent right.
-/

namespace ControlFile.Binary

/-! ### Ratios -/

/-- The ratio of two natural numbers. -/
def ratio (p : Nat × Nat) : ℚ := p.1 / p.2

theorem ratio_scaleRatio {base : Nat} (hb : 0 < base) (k : Int) (num den : Nat) :
    ratio (scaleRatio base k num den) = ratio (num, den) * (base : ℚ) ^ k := by
  have hb' : (base : ℚ) ≠ 0 := by positivity
  simp only [ratio, scaleRatio, Nat.pow_eq, Nat.cast_mul, Nat.cast_pow]
  rcases Int.le_total 0 k with hk | hk
  · obtain ⟨n, rfl⟩ := Int.eq_ofNat_of_zero_le hk
    have h₁ : (-(n : Int)).toNat = 0 := by omega
    simp only [Int.toNat_natCast, h₁, pow_zero, mul_one, zpow_natCast]
    ring
  · obtain ⟨n, hn⟩ := Int.eq_ofNat_of_zero_le (by omega : 0 ≤ -k)
    have hk' : k = -(n : Int) := by omega
    subst hk'
    have h₁ : (-(n : Int)).toNat = 0 := by omega
    simp only [neg_neg, Int.toNat_natCast, h₁, pow_zero, mul_one, zpow_neg, zpow_natCast]
    field_simp

theorem den_scaleRatio_pos {base : Nat} (hb : 0 < base) (k : Int) (num : Nat) {den : Nat}
    (hd : 0 < den) : 0 < (scaleRatio base k num den).2 := by
  simp only [scaleRatio, Nat.pow_eq]
  positivity

theorem ratio_le_iff {p : Nat × Nat} (hp : 0 < p.2) {x : ℚ} : ratio p ≤ x ↔ (p.1 : ℚ) ≤ x * p.2 := by
  have : (0 : ℚ) < p.2 := by exact_mod_cast hp
  rw [ratio, div_le_iff₀ this]

theorem le_ratio_iff {p : Nat × Nat} (hp : 0 < p.2) {x : ℚ} : x ≤ ratio p ↔ x * p.2 ≤ (p.1 : ℚ) := by
  have : (0 : ℚ) < p.2 := by exact_mod_cast hp
  rw [ratio, le_div_iff₀ this]

theorem two_zpow_pos (k : Int) : (0 : ℚ) < 2 ^ k := zpow_pos (by norm_num) k

/-! ### Logarithms -/

theorem log2_spec {n : Nat} (h : 0 < n) :
    (2 : ℚ) ^ (n.log2 : Int) ≤ n ∧ (n : ℚ) < 2 ^ ((n.log2 : Int) + 1) := by
  have hne : n ≠ 0 := by omega
  refine ⟨?_, ?_⟩
  · rw [zpow_natCast]
    exact_mod_cast (Nat.le_log2 hne).1 (Nat.le_refl _)
  · have := (Nat.log2_lt hne).1 (Nat.lt_succ_self _)
    rw [← Nat.cast_succ, zpow_natCast]
    exact_mod_cast this

/-- The logarithm of a ratio is the exponent of the power of two below it. -/
theorem logRatio_spec {num den : Nat} (hn : 0 < num) (hd : 0 < den) :
    (2 : ℚ) ^ logRatio num den ≤ ratio (num, den) ∧
      ratio (num, den) < 2 ^ (logRatio num den + 1) := by
  obtain ⟨hn₁, hn₂⟩ := log2_spec hn
  obtain ⟨hd₁, hd₂⟩ := log2_spec hd
  have hnq : (0 : ℚ) < num := by exact_mod_cast hn
  have hdq : (0 : ℚ) < den := by exact_mod_cast hd
  have htwo : (2 : ℚ) ≠ 0 := by norm_num
  have hupper : ratio (num, den) < 2 ^ ((num.log2 : Int) - den.log2 + 1) := by
    simp only [ratio]
    rw [div_lt_iff₀ hdq]
    calc (num : ℚ) < 2 ^ ((num.log2 : Int) + 1) := hn₂
      _ = 2 ^ ((num.log2 : Int) - den.log2 + 1) * 2 ^ (den.log2 : Int) := by
        rw [← zpow_add₀ htwo]
        congr 1
        omega
      _ ≤ 2 ^ ((num.log2 : Int) - den.log2 + 1) * den :=
        mul_le_mul_of_nonneg_left hd₁ (two_zpow_pos _).le
  have hlower : (2 : ℚ) ^ ((num.log2 : Int) - den.log2 - 1) ≤ ratio (num, den) := by
    simp only [ratio]
    rw [le_div_iff₀ hdq]
    calc (2 : ℚ) ^ ((num.log2 : Int) - den.log2 - 1) * den
        ≤ 2 ^ ((num.log2 : Int) - den.log2 - 1) * 2 ^ ((den.log2 : Int) + 1) :=
          mul_le_mul_of_nonneg_left hd₂.le (two_zpow_pos _).le
      _ = 2 ^ (num.log2 : Int) := by
        rw [← zpow_add₀ htwo]
        congr 1
        omega
      _ ≤ num := hn₁
  have hscale := ratio_scaleRatio Nat.two_pos (-((num.log2 : Int) - den.log2)) num den
  have hpos := den_scaleRatio_pos Nat.two_pos (-((num.log2 : Int) - den.log2)) num hd
  have hiff : (scaleRatio 2 (-((num.log2 : Int) - den.log2)) num den).2
      ≤ (scaleRatio 2 (-((num.log2 : Int) - den.log2)) num den).1 ↔
        (2 : ℚ) ^ ((num.log2 : Int) - den.log2) ≤ ratio (num, den) := by
    rw [← Nat.cast_le (α := ℚ), ← one_mul ((scaleRatio 2 _ num den).2 : ℚ), ← le_ratio_iff hpos,
      hscale, Nat.cast_ofNat, zpow_neg, ← div_eq_mul_inv, le_div_iff₀ (two_zpow_pos _), one_mul]
  unfold logRatio
  simp only
  split
  · rename_i h
    exact ⟨hiff.1 h, hupper⟩
  · rename_i h
    refine ⟨hlower, ?_⟩
    rw [Int.sub_add_cancel]
    exact lt_of_not_ge fun hge => h (hiff.2 hge)

/-! ### Rounding -/

/-- A ratio at most half a unit from `m` is rounded to `m`, if an end of that range counts for
even `m` only. -/
theorem roundRatio_eq {n d m : Nat} (hd : 0 < d) (hlo : 2 * m * d ≤ 2 * n + d)
    (hhi : 2 * n ≤ 2 * m * d + d)
    (hodd : m % 2 = 1 → 2 * m * d < 2 * n + d ∧ 2 * n < 2 * m * d + d) : roundRatio n d = m := by
  have hdiv : d * (n / d) + n % d = n := Nat.div_add_mod n d
  have hmod : n % d < d := Nat.mod_lt n hd
  unfold roundRatio
  simp only
  generalize n / d = low at *
  generalize n % d = r at *
  subst hdiv
  have hle : low ≤ m := by
    by_contra hlt
    have : (m + 1) * d ≤ low * d := Nat.mul_le_mul_right d (by omega)
    rw [Nat.add_mul] at this
    grind
  have hge : m ≤ low + 1 := by
    by_contra hlt
    have : (low + 2) * d ≤ m * d := Nat.mul_le_mul_right d (by omega)
    rw [Nat.add_mul] at this
    grind
  have hcomm : d * low = low * d := Nat.mul_comm d low
  have hassoc : 2 * m * d = 2 * (m * d) := Nat.mul_assoc 2 m d
  rcases Nat.eq_or_lt_of_le hle with rfl | hlt
  · split
    · rfl
    · split
      · omega
      · have : low % 2 = 0 := by
          by_contra h
          have := hodd (by omega)
          omega
        omega
  · obtain rfl : m = low + 1 := by omega
    have hsucc : (low + 1) * d = low * d + d := Nat.succ_mul low d
    split
    · omega
    · split
      · rfl
      · have : low % 2 = 1 := by
          by_contra h
          have := hodd (by omega)
          omega
        omega

theorem roundRatio_of_near {p : Nat × Nat} (hd : 0 < p.2) {m : Nat} (hlo : 2 * (m : ℚ) ≤ 2 * ratio p + 1)
    (hhi : 2 * ratio p ≤ 2 * m + 1)
    (hodd : m % 2 = 1 → 2 * (m : ℚ) < 2 * ratio p + 1 ∧ 2 * ratio p < 2 * m + 1) :
    roundRatio p.1 p.2 = m := by
  have hdq : (0 : ℚ) < p.2 := by exact_mod_cast hd
  have hmul : ratio p * p.2 = p.1 := div_mul_cancel₀ _ hdq.ne'
  refine roundRatio_eq hd ?_ ?_ fun h => ⟨?_, ?_⟩
  · have := mul_le_mul_of_nonneg_right hlo hdq.le
    have : 2 * (m : ℚ) * p.2 ≤ 2 * p.1 + p.2 := by linarith
    exact_mod_cast this
  · have := mul_le_mul_of_nonneg_right hhi hdq.le
    have : 2 * (p.1 : ℚ) ≤ 2 * m * p.2 + p.2 := by linarith
    exact_mod_cast this
  · have := mul_lt_mul_of_pos_right (hodd h).1 hdq
    have : 2 * (m : ℚ) * p.2 < 2 * p.1 + p.2 := by linarith
    exact_mod_cast this
  · have := mul_lt_mul_of_pos_right (hodd h).2 hdq
    have : 2 * (p.1 : ℚ) < 2 * m * p.2 + p.2 := by linarith
    exact_mod_cast this

/-! ### The interval of a magnitude -/

/-- Mantissa and exponent of a finite double other than zero. -/
structure IsCanonical (m : Nat) (q : Int) : Prop where
  pos : 0 < m
  lt : m < 2 ^ 53
  least_le : leastExponent ≤ q
  le_greatest : q ≤ 971
  full : leastExponent < q → 2 ^ 52 ≤ m

/-- How far below `m`, in quarters of a unit, the numbers that are rounded to `m` reach. -/
def reach (m : Nat) (q : Int) : Nat := if m = 2 ^ 52 ∧ leastExponent < q then 1 else 2

/-- The number `r` is in the interval of `m · 2 ^ q`. -/
structure Rounds (m : Nat) (q : Int) (r : ℚ) : Prop where
  low : (4 * m - reach m q : ℚ) ≤ 4 * (r * 2 ^ (-q))
  high : 4 * (r * 2 ^ (-q)) ≤ 4 * m + 2
  odd : m % 2 = 1 → (4 * m - reach m q : ℚ) < 4 * (r * 2 ^ (-q)) ∧ 4 * (r * 2 ^ (-q)) < 4 * m + 2

/-- The bits of a magnitude. -/
def bitsOf (m : Nat) (q : Int) : Nat := (q - leastExponent).toNat * 2 ^ 52 + m

theorem IsCanonical.isMagnitude {m : Nat} {q : Int} (h : IsCanonical m q) : bitsOf m q < infinityBits := by
  have := h.lt
  have := h.le_greatest
  simp only [bitsOf, leastExponent, infinityBits, Nat.pow_eq] at *
  omega

theorem nearestBits_of_exponent {num den m : Nat} {q e : Int} (hn : 0 < num)
    (hq : IsCanonical m q) (he : max (logRatio num den - 52) leastExponent = e)
    (hround : (e - leastExponent).toNat * 2 ^ 52 +
      roundRatio (scaleRatio 2 (-e) num den).1 (scaleRatio 2 (-e) num den).2 = bitsOf m q) :
    nearestBits num den = bitsOf m q := by
  have := hq.isMagnitude
  unfold nearestBits
  rw [if_neg (by omega)]
  simp only [he, Nat.pow_eq]
  rw [hround]
  omega

theorem reach_le_two (m : Nat) (q : Int) : (reach m q : ℚ) ≤ 2 := by
  unfold reach
  split <;> norm_num

theorem Rounds.pos {m : Nat} {q : Int} (hq : IsCanonical m q) {r : ℚ} (h : Rounds m q r) : 0 < r := by
  have hm : (1 : ℚ) ≤ m := by exact_mod_cast hq.pos
  have hx : 0 < r * 2 ^ (-q) := by
    have := h.low
    have := reach_le_two m q
    linarith
  exact (mul_pos_iff_of_pos_right (two_zpow_pos _)).1 hx

theorem Rounds.num_pos {num den m : Nat} {q : Int} (hq : IsCanonical m q)
    (h : Rounds m q (ratio (num, den))) : 0 < num := by
  have hpos := h.pos hq
  rcases Nat.eq_zero_or_pos num with rfl | hn
  · simp [ratio] at hpos
  · exact hn

theorem mul_two_zpow_cancel (r : ℚ) (q : Int) : r * 2 ^ (-q) * 2 ^ q = r := by
  rw [mul_assoc, ← zpow_add₀ two_ne_zero, neg_add_cancel, zpow_zero, mul_one]

/-- The logarithm of a ratio below `2 ^ k` units of the last place. -/
theorem logRatio_lt_of_units {num den : Nat} (hn : 0 < num) (hd : 0 < den) {q k : Int}
    (h : ratio (num, den) * 2 ^ (-q) < 2 ^ k) : logRatio num den < q + k := by
  refine (zpow_lt_zpow_iff_right₀ one_lt_two).1 (lt_of_le_of_lt (logRatio_spec hn hd).1 ?_)
  rw [← mul_two_zpow_cancel (ratio (num, den)) q, zpow_add₀ two_ne_zero, mul_comm ((2 : ℚ) ^ q)]
  exact mul_lt_mul_of_pos_right h (two_zpow_pos q)

/-- The logarithm of a ratio from `2 ^ k` units of the last place on. -/
theorem le_logRatio_of_units {num den : Nat} (hn : 0 < num) (hd : 0 < den) {q k : Int}
    (h : 2 ^ k ≤ ratio (num, den) * 2 ^ (-q)) : q + k ≤ logRatio num den := by
  refine Int.lt_add_one_iff.1 ((zpow_lt_zpow_iff_right₀ one_lt_two).1
    (lt_of_le_of_lt ?_ (logRatio_spec hn hd).2))
  rw [← mul_two_zpow_cancel (ratio (num, den)) q, zpow_add₀ two_ne_zero, mul_comm ((2 : ℚ) ^ q)]
  exact mul_le_mul_of_nonneg_right h (two_zpow_pos q).le

/-- Where the interval of a magnitude reaches below a power of two, the magnitude is that power. -/
theorem Rounds.eq_of_lt {m : Nat} {q : Int} (hq : IsCanonical m q) {r : ℚ} (h : Rounds m q r)
    (hleast : leastExponent < q) (hlt : r * 2 ^ (-q) < 2 ^ (52 : Int)) : m = 2 ^ 52 := by
  by_contra hne
  have hfull := hq.full hleast
  have hgt : 2 ^ 52 + 1 ≤ m := by omega
  have hgt : (4503599627370497 : ℚ) ≤ m := by exact_mod_cast hgt
  have hlow := h.low
  have hreach := reach_le_two m q
  norm_num at hlt hlow
  linarith

/-- Just below a power of two the ratio is cut one exponent lower, and is carried to that power. -/
theorem nearestBits_of_rounds_below {num den m : Nat} {q : Int} (hd : 0 < den) (hq : IsCanonical m q)
    (h : Rounds m q (ratio (num, den))) (hleast : leastExponent < q)
    (hlt : ratio (num, den) * 2 ^ (-q) < 2 ^ (52 : Int)) : nearestBits num den = bitsOf m q := by
  obtain rfl := h.eq_of_lt hq hleast hlt
  have hn := h.num_pos hq
  have hlow := h.low
  rw [show reach (2 ^ 52) q = 1 from if_pos ⟨rfl, hleast⟩] at hlow
  have hlogUpper := logRatio_lt_of_units hn hd hlt
  have hlogLower : q + 51 ≤ logRatio num den := by
    refine le_logRatio_of_units hn hd ?_
    norm_num at hlow ⊢
    linarith
  have hscaled : ratio (scaleRatio 2 (-(q - 1)) num den) = 2 * (ratio (num, den) * 2 ^ (-q)) := by
    rw [ratio_scaleRatio Nat.two_pos, Nat.cast_ofNat, show -(q - 1) = 1 + -q by omega,
      zpow_add₀ two_ne_zero, zpow_one]
    ring
  refine nearestBits_of_exponent (e := q - 1) hn hq (by omega) ?_
  rw [roundRatio_of_near (m := 2 ^ 53) (den_scaleRatio_pos Nat.two_pos _ _ hd)]
  · simp only [bitsOf]
    omega
  · rw [hscaled]
    norm_num at hlow ⊢
    linarith
  · rw [hscaled]
    norm_num at hlt ⊢
    linarith
  · simp

/-- Elsewhere the ratio is cut at the exponent of the magnitude. -/
theorem nearestBits_of_rounds_within {num den m : Nat} {q : Int} (hd : 0 < den) (hq : IsCanonical m q)
    (h : Rounds m q (ratio (num, den)))
    (hge : leastExponent < q → (2 : ℚ) ^ (52 : Int) ≤ ratio (num, den) * 2 ^ (-q)) :
    nearestBits num den = bitsOf m q := by
  have hn := h.num_pos hq
  have hlow := h.low
  have hhigh := h.high
  have hreach := reach_le_two m q
  have hscaled : ratio (scaleRatio 2 (-q) num den) = ratio (num, den) * 2 ^ (-q) := by
    rw [ratio_scaleRatio Nat.two_pos, Nat.cast_ofNat]
  have hupper : ratio (num, den) * 2 ^ (-q) < 2 ^ (53 : Int) := by
    have hm : ((m + 1 : Nat) : ℚ) ≤ ((2 ^ 53 : Nat) : ℚ) := by exact_mod_cast hq.lt
    have hpow : (2 : ℚ) ^ (53 : Int) = 9007199254740992 := by norm_num
    rw [hpow]
    norm_num at hm
    linarith
  have hexp : max (logRatio num den - 52) leastExponent = q := by
    have hlogUpper := logRatio_lt_of_units hn hd hupper
    have hleast := hq.least_le
    by_cases hql : leastExponent < q
    · have hlogLower := le_logRatio_of_units hn hd (hge hql)
      omega
    · omega
  refine nearestBits_of_exponent (e := q) hn hq hexp ?_
  rw [roundRatio_of_near (m := m) (den_scaleRatio_pos Nat.two_pos _ _ hd)]
  · rfl
  · rw [hscaled]
    linarith
  · rw [hscaled]
    linarith
  · intro hodd
    obtain ⟨h₁, h₂⟩ := h.odd hodd
    rw [hscaled]
    exact ⟨by linarith, by linarith⟩

/-- **A ratio in the interval of a magnitude has the bits of that magnitude.** -/
theorem nearestBits_of_rounds {num den m : Nat} {q : Int} (hd : 0 < den) (hq : IsCanonical m q)
    (h : Rounds m q (ratio (num, den))) : nearestBits num den = bitsOf m q := by
  by_cases hcarry : leastExponent < q ∧ ratio (num, den) * 2 ^ (-q) < 2 ^ (52 : Int)
  · exact nearestBits_of_rounds_below hd hq h hcarry.1 hcarry.2
  · exact nearestBits_of_rounds_within hd hq h fun hleast => not_lt.1 fun hlt => hcarry ⟨hleast, hlt⟩

end ControlFile.Binary
