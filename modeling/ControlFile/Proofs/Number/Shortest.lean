import ControlFile.Number.Shortest
import ControlFile.Proofs.Number.Nearest

/-!
# The shortest decimal is in the interval

`Shortest.digits` gives a number `n` and a power `k` such that `n · 10 ^ k` is rounded to the double
it was made from (`rounds_digits`).  Whatever the search takes is in the interval, so the question
is only whether it finds something.  It does with seventeen digits: `10 ^ top` is at most the
double, so the multiples of `10 ^ (top - 16)` are closer than the doubles are, and the nearer of the
two next to the double is in its interval.
-/

namespace ControlFile.Shortest

open Binary

/-! ### Membership -/

theorem ten_zpow_pos (k : Int) : (0 : ℚ) < 10 ^ k := zpow_pos (by norm_num) k

theorem denominator_pos (b : Binary) : 0 < (interval b).denominator := Nat.pow_pos Nat.two_pos

/-- A bound of the interval is compared by clearing both denominators. -/
theorem mul_le_scaled_iff {den : Nat} (hden : 0 < den) (a n : Nat) (k : Int) :
    a * (scaleRatio 10 k (n * den) 1).2 ≤ (scaleRatio 10 k (n * den) 1).1 ↔
      ratio (a, den) ≤ n * 10 ^ k := by
  have hone := den_scaleRatio_pos (by norm_num : 0 < 10) k (n * den) Nat.one_pos
  have hscale := ratio_scaleRatio (by norm_num : 0 < 10) k (n * den) 1
  have hdenq : (0 : ℚ) < den := by exact_mod_cast hden
  rw [← Nat.cast_le (α := ℚ), Nat.cast_mul, ← le_ratio_iff hone, hscale, ratio_le_iff hden]
  simp only [ratio, Nat.cast_mul, Nat.cast_one, div_one, Nat.cast_ofNat]
  rw [mul_right_comm]

theorem scaled_le_mul_iff {den : Nat} (hden : 0 < den) (a n : Nat) (k : Int) :
    (scaleRatio 10 k (n * den) 1).1 ≤ a * (scaleRatio 10 k (n * den) 1).2 ↔
      n * 10 ^ k ≤ ratio (a, den) := by
  have hone := den_scaleRatio_pos (by norm_num : 0 < 10) k (n * den) Nat.one_pos
  have hscale := ratio_scaleRatio (by norm_num : 0 < 10) k (n * den) 1
  rw [← Nat.cast_le (α := ℚ), Nat.cast_mul, ← ratio_le_iff hone, hscale, le_ratio_iff hden]
  simp only [ratio, Nat.cast_mul, Nat.cast_one, div_one, Nat.cast_ofNat]
  rw [mul_right_comm]

theorem Interval.holds_iff (i : Interval) (hden : 0 < i.denominator) (n : Nat) (k : Int) :
    i.holds n k = true ↔
      (ratio (i.low, i.denominator) ≤ n * 10 ^ k ∧ (n : ℚ) * 10 ^ k ≤ ratio (i.high, i.denominator)) ∧
      (i.closed = false →
        ratio (i.low, i.denominator) < n * 10 ^ k ∧
          (n : ℚ) * 10 ^ k < ratio (i.high, i.denominator)) := by
  rw [← mul_le_scaled_iff hden, ← scaled_le_mul_iff hden, ← not_le (b := ratio (i.low, _)),
    ← not_le (a := ratio (i.high, _)), ← mul_le_scaled_iff hden, ← scaled_le_mul_iff hden]
  unfold Interval.holds
  generalize scaleRatio 10 k (n * i.denominator) 1 = p
  cases i.closed
  · simp only [Bool.false_eq_true, if_false, Bool.and_eq_true, decide_eq_true_eq, forall_const]
    omega
  · simp

/-! ### The ends of the interval -/

theorem ratio_interval (b : Binary) (a : Nat) :
    ratio (a * Nat.pow 2 (b.exponent - 2).toNat, (interval b).denominator) =
      a * 2 ^ (b.exponent - 2) := by
  have hscale := ratio_scaleRatio Nat.two_pos (b.exponent - 2) a 1
  have hneg : -(b.exponent - 2) = 2 - b.exponent := by omega
  simp only [scaleRatio, hneg, Nat.one_mul] at hscale
  rw [show (interval b).denominator = Nat.pow 2 (2 - b.exponent).toNat from rfl, hscale]
  simp [ratio]

/-- The double itself. -/
def value (b : Binary) : ℚ := b.mantissa * 2 ^ b.exponent

theorem quarter_zpow (q : Int) : 4 * (2 : ℚ) ^ (q - 2) = 2 ^ q := by
  rw [zpow_sub₀ (by norm_num)]
  norm_num
  ring

theorem ratio_low {b : Binary} (hb : IsCanonical b.mantissa b.exponent) :
    ratio ((interval b).low, (interval b).denominator) =
      value b - reach b.mantissa b.exponent * 2 ^ (b.exponent - 2) := by
  have hreach : (if b.mantissa = Nat.pow 2 52 && leastExponent < b.exponent then 1 else 2) =
      reach b.mantissa b.exponent := by
    simp [reach]
  have hle : reach b.mantissa b.exponent ≤ 4 * b.mantissa := by
    have := hb.pos
    unfold reach
    split <;> omega
  have hlow : (interval b).low =
      (4 * b.mantissa - reach b.mantissa b.exponent) * Nat.pow 2 (b.exponent - 2).toNat := by
    rw [← hreach]
    rfl
  rw [hlow, ratio_interval, Nat.cast_sub hle, value, ← quarter_zpow b.exponent]
  generalize (2 : ℚ) ^ (b.exponent - 2) = u
  push_cast
  ring

theorem ratio_middle (b : Binary) :
    ratio ((interval b).middle, (interval b).denominator) = value b := by
  rw [show (interval b).middle = 4 * b.mantissa * Nat.pow 2 (b.exponent - 2).toNat from rfl,
    ratio_interval, value, ← quarter_zpow b.exponent]
  generalize (2 : ℚ) ^ (b.exponent - 2) = u
  push_cast
  ring

theorem ratio_high (b : Binary) :
    ratio ((interval b).high, (interval b).denominator) = value b + 2 * 2 ^ (b.exponent - 2) := by
  rw [show (interval b).high = (4 * b.mantissa + 2) * Nat.pow 2 (b.exponent - 2).toNat from rfl,
    ratio_interval, value, ← quarter_zpow b.exponent]
  generalize (2 : ℚ) ^ (b.exponent - 2) = u
  push_cast
  ring

theorem closed_eq (b : Binary) : (interval b).closed = false ↔ b.mantissa % 2 = 1 := by
  rw [show (interval b).closed = decide (b.mantissa % 2 = 0) from rfl, decide_eq_false_iff_not]
  omega

/-- What the interval holds is rounded to the double. -/
theorem rounds_of_holds {b : Binary} (hb : IsCanonical b.mantissa b.exponent) {n : Nat} {k : Int}
    (h : (interval b).holds n k = true) : Rounds b.mantissa b.exponent (n * 10 ^ k) := by
  obtain ⟨⟨hlow, hhigh⟩, hodd⟩ := ((interval b).holds_iff (denominator_pos b) n k).1 h
  rw [ratio_low hb] at hlow hodd
  rw [ratio_high] at hhigh hodd
  have hunit : 4 * ((2 : ℚ) ^ (b.exponent - 2) * 2 ^ (-b.exponent)) = 1 := by
    rw [← mul_assoc, quarter_zpow, ← zpow_add₀ (by norm_num), add_neg_cancel, zpow_zero]
  have hpos := two_zpow_pos (-b.exponent)
  have hvalue : value b * 2 ^ (-b.exponent) = b.mantissa := by
    rw [value, mul_assoc, ← zpow_add₀ (by norm_num), add_neg_cancel, zpow_zero, mul_one]
  generalize (n : ℚ) * 10 ^ k = r at *
  generalize (2 : ℚ) ^ (b.exponent - 2) = u at *
  refine ⟨?_, ?_, fun hm => ⟨?_, ?_⟩⟩ <;> generalize (2 : ℚ) ^ (-b.exponent) = w at *
  · have := mul_le_mul_of_nonneg_right hlow hpos.le
    linear_combination 4 * this - 4 * hvalue + (reach b.mantissa b.exponent : ℚ) * hunit
  · have := mul_le_mul_of_nonneg_right hhigh hpos.le
    linear_combination 4 * this + 4 * hvalue + 2 * hunit
  · have := mul_lt_mul_of_pos_right (hodd ((closed_eq b).2 hm)).1 hpos
    linear_combination 4 * this - 4 * hvalue + (reach b.mantissa b.exponent : ℚ) * hunit
  · have := mul_lt_mul_of_pos_right (hodd ((closed_eq b).2 hm)).2 hpos
    linear_combination 4 * this + 4 * hvalue + 2 * hunit

/-! ### The search -/

theorem Interval.holds_of_candidate? {i : Interval} {k : Int} {n : Nat}
    (h : i.candidate? k = some n) : i.holds n k = true := by
  unfold Interval.candidate? at h
  simp only at h
  generalize (scaleRatio 10 (-k) i.middle i.denominator).1 /
    (scaleRatio 10 (-k) i.middle i.denominator).2 = c at h
  cases h₁ : i.holds c k <;> cases h₂ : i.holds (c + 1) k <;> simp only [h₁, h₂] at h
  · cases h
  · cases h
    exact h₂
  · cases h
    exact h₁
  · split at h
    · cases h
      exact h₁
    · cases h
      exact h₂

theorem Interval.isSome_candidate? {i : Interval} {k : Int}
    (h : i.holds ((scaleRatio 10 (-k) i.middle i.denominator).1 /
        (scaleRatio 10 (-k) i.middle i.denominator).2) k = true ∨
      i.holds ((scaleRatio 10 (-k) i.middle i.denominator).1 /
        (scaleRatio 10 (-k) i.middle i.denominator).2 + 1) k = true) :
    ∃ n, i.candidate? k = some n := by
  unfold Interval.candidate?
  simp only
  generalize (scaleRatio 10 (-k) i.middle i.denominator).1 /
    (scaleRatio 10 (-k) i.middle i.denominator).2 = c at *
  cases h₁ : i.holds c k <;> cases h₂ : i.holds (c + 1) k
  · simp [h₁, h₂] at h
  · exact ⟨_, rfl⟩
  · exact ⟨_, rfl⟩
  · exact ⟨_, rfl⟩

/-- The search ends with a candidate, if the last power it tries has one. -/
theorem Interval.holds_search {i : Interval} {top : Int} {n : Nat}
    (hlast : i.candidate? (top - 16) = some n) :
    ∀ left, i.holds (i.search top left).1 (i.search top left).2 = true
  | 0 => by
    simp only [Interval.search, hlast, Option.getD_some]
    exact holds_of_candidate? hlast
  | left + 1 => by
    simp only [Interval.search]
    split
    · exact holds_of_candidate? ‹_›
    · exact holds_search hlast left

/-! ### The power of ten below the double -/

theorem ten_zpow_le_middle_iff (b : Binary) (k : Int) :
    (scaleRatio 10 (-k) (interval b).middle (interval b).denominator).2 ≤
        (scaleRatio 10 (-k) (interval b).middle (interval b).denominator).1 ↔
      (10 : ℚ) ^ k ≤ value b := by
  have hpos := den_scaleRatio_pos (by norm_num : 0 < 10) (-k) (interval b).middle (denominator_pos b)
  rw [← Nat.cast_le (α := ℚ), ← one_mul ((scaleRatio 10 (-k) _ _).2 : ℚ), ← le_ratio_iff hpos,
    ratio_scaleRatio (by norm_num), ratio_middle, Nat.cast_ofNat, zpow_neg, ← div_eq_mul_inv,
    le_div_iff₀ (ten_zpow_pos k), one_mul]

theorem ten_zpow_raise_le {b : Binary} :
    ∀ (steps : Nat) (k : Int), (10 : ℚ) ^ k ≤ value b → (10 : ℚ) ^ (interval b).raise steps k ≤ value b
  | 0, _, h => h
  | steps + 1, k, h => by
    simp only [Interval.raise]
    split
    · rename_i hle
      exact ten_zpow_raise_le steps (k + 1) ((ten_zpow_le_middle_iff b (k + 1)).1 hle)
    · exact h

/-- The first guess of a power of ten below `2 ^ bits`. -/
def guess (bits : Int) : Int := bits * 30103 / 100000 - 1

theorem guess_le : (List.range 2200).all (fun i =>
    let bits : Int := (i : Int) - 1100
    10 ^ (guess bits).toNat * 2 ^ (-bits).toNat ≤ 2 ^ bits.toNat * 10 ^ (-guess bits).toNat) = true := by
  decide +kernel

theorem zpow_eq_div (a : ℚ) (k : Int) : a ^ k = a ^ k.toNat / a ^ (-k).toNat := by
  rcases Int.le_total 0 k with hk | hk
  · rw [show (-k).toNat = 0 by omega, pow_zero, div_one, ← zpow_natCast, Int.toNat_of_nonneg hk]
  · rw [show k.toNat = 0 by omega, pow_zero, ← zpow_natCast, Int.toNat_of_nonneg (by omega), zpow_neg,
      one_div, inv_inv]

theorem ten_zpow_guess_le {bits : Int} (hlo : -1100 ≤ bits) (hhi : bits < 1100) :
    (10 : ℚ) ^ guess bits ≤ 2 ^ bits := by
  have h := List.all_eq_true.1 guess_le (bits + 1100).toNat (List.mem_range.2 (by omega))
  have hbits : (((bits + 1100).toNat : Nat) : Int) - 1100 = bits := by omega
  simp only [hbits, decide_eq_true_eq] at h
  rw [zpow_eq_div 10, zpow_eq_div 2,
    div_le_div_iff₀ (by positivity) (by positivity)]
  exact_mod_cast h

theorem ten_zpow_magnitude_le {b : Binary} (hb : IsCanonical b.mantissa b.exponent) :
    (10 : ℚ) ^ magnitude b ≤ value b := by
  have hlog : b.mantissa.log2 < 53 := (Nat.log2_lt (by have := hb.pos; omega)).2 hb.lt
  have hleast := hb.least_le
  have hgreatest := hb.le_greatest
  simp only [leastExponent] at hleast
  refine ten_zpow_raise_le 3 _ ?_
  calc (10 : ℚ) ^ guess ((b.mantissa.log2 : Int) + b.exponent)
      ≤ 2 ^ ((b.mantissa.log2 : Int) + b.exponent) := ten_zpow_guess_le (by omega) (by omega)
    _ = 2 ^ (b.mantissa.log2 : Int) * 2 ^ b.exponent := zpow_add₀ (by norm_num) _ _
    _ ≤ value b := mul_le_mul_of_nonneg_right (log2_spec hb.pos).1 (two_zpow_pos _).le

/-! ### Seventeen digits -/

theorem div_mul_ten_zpow {b : Binary} (k : Int) :
    let c := (scaleRatio 10 (-k) (interval b).middle (interval b).denominator).1 /
      (scaleRatio 10 (-k) (interval b).middle (interval b).denominator).2
    (c : ℚ) * 10 ^ k ≤ value b ∧ value b < (c + 1 : ℚ) * 10 ^ k := by
  have hpos := den_scaleRatio_pos (by norm_num : 0 < 10) (-k) (interval b).middle (denominator_pos b)
  have hratio := ratio_scaleRatio (by norm_num : 0 < 10) (-k) (interval b).middle
    (interval b).denominator
  rw [ratio_middle, Nat.cast_ofNat, zpow_neg, ← div_eq_mul_inv] at hratio
  generalize scaleRatio 10 (-k) (interval b).middle (interval b).denominator = p at *
  have hposq : (0 : ℚ) < p.2 := by exact_mod_cast hpos
  have hlow : ((p.1 / p.2 : Nat) : ℚ) * p.2 ≤ p.1 := by exact_mod_cast Nat.div_mul_le_self p.1 p.2
  have hhigh : (p.1 : ℚ) < ((p.1 / p.2 : Nat) + 1 : ℚ) * p.2 := by
    have := Nat.lt_mul_div_succ p.1 hpos
    rw [Nat.mul_comm] at this
    exact_mod_cast this
  simp only
  rw [← le_div_iff₀ (ten_zpow_pos k), ← div_lt_iff₀ (ten_zpow_pos k), ← hratio, ratio,
    le_div_iff₀ hposq, div_lt_iff₀ hposq]
  exact ⟨hlow, hhigh⟩

theorem holds_of_lt {b : Binary} (hb : IsCanonical b.mantissa b.exponent) {n : Nat} {k : Int}
    (hlow : value b - reach b.mantissa b.exponent * 2 ^ (b.exponent - 2) < n * 10 ^ k)
    (hhigh : (n : ℚ) * 10 ^ k < value b + 2 * 2 ^ (b.exponent - 2)) :
    (interval b).holds n k = true := by
  rw [← ratio_low hb] at hlow
  rw [← ratio_high] at hhigh
  exact ((interval b).holds_iff (denominator_pos b) n k).2
    ⟨⟨hlow.le, hhigh.le⟩, fun _ => ⟨hlow, hhigh⟩⟩

/-- With seventeen digits one of the two decimals next to the double is in its interval. -/
theorem exists_candidate? {b : Binary} (hb : IsCanonical b.mantissa b.exponent) {top : Int}
    (htop : (10 : ℚ) ^ top ≤ value b) : ∃ n, (interval b).candidate? (top - 16) = some n := by
  have hdiv := div_mul_ten_zpow (b := b) (top - 16)
  refine Interval.isSome_candidate? ?_
  generalize (scaleRatio 10 (-(top - 16)) (interval b).middle (interval b).denominator).1 /
    (scaleRatio 10 (-(top - 16)) (interval b).middle (interval b).denominator).2 = c at *
  obtain ⟨hlow, hhigh⟩ := hdiv
  have hsplit : (10 : ℚ) ^ top = 10 ^ 16 * 10 ^ (top - 16) := by
    rw [zpow_sub₀ (by norm_num)]
    norm_num
    ring
  have hquarter := quarter_zpow b.exponent
  have hu := two_zpow_pos (b.exponent - 2)
  have hcast : ((c + 1 : Nat) : ℚ) = c + 1 := by push_cast; rfl
  by_cases hpower : b.mantissa = 2 ^ 52 ∧ leastExponent < b.exponent
  · -- the neighbour below is near, but the step is smaller than the way up
    have hreach : reach b.mantissa b.exponent = 1 := if_pos hpower
    right
    refine holds_of_lt hb ?_ ?_ <;> rw [hcast]
    · rw [hreach]
      push_cast
      linarith
    · have hvalue : value b = 2 ^ 54 * 2 ^ (b.exponent - 2) := by
        rw [value, ← hquarter, hpower.1]
        norm_num
        ring
      rw [hsplit, hvalue] at htop
      norm_num at htop
      linarith
  · have hreach : reach b.mantissa b.exponent = 2 := if_neg hpower
    have hstep : (10 : ℚ) ^ (top - 16) < 4 * 2 ^ (b.exponent - 2) := by
      have hm : (b.mantissa : ℚ) ≤ 9007199254740992 := by exact_mod_cast hb.lt.le
      have hvalue : value b ≤ 9007199254740992 * (4 * 2 ^ (b.exponent - 2)) := by
        rw [value, ← hquarter]
        exact mul_le_mul_of_nonneg_right hm (by linarith)
      rw [hsplit] at htop
      norm_num at htop
      linarith
    by_cases hnear : value b - c * 10 ^ (top - 16) < 2 * 2 ^ (b.exponent - 2)
    · left
      refine holds_of_lt hb ?_ ?_
      · rw [hreach]
        push_cast
        linarith
      · linarith
    · right
      refine holds_of_lt hb ?_ ?_ <;> rw [hcast]
      · rw [hreach]
        push_cast
        linarith
      · linarith

/-- **The shortest decimal of a double is rounded to that double.** -/
theorem rounds_digits {b : Binary} (hb : IsCanonical b.mantissa b.exponent) :
    Rounds b.mantissa b.exponent ((digits b).1 * 10 ^ (digits b).2) := by
  obtain ⟨n, hn⟩ := exists_candidate? hb (ten_zpow_magnitude_le hb)
  exact rounds_of_holds hb (Interval.holds_search hn 16)

end ControlFile.Shortest
