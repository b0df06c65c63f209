import ControlFile.Proofs.Number.ReadBack

/-!
# Numbers with the other sign

The negation of a finite double has the other sign and the same magnitude (`ofFloat?_neg`).  So negating
twice changes nothing, and a whole number that is not zero may be negated before or after it is made a
double (`ofInt_neg`).  With zero the two differ: there is no whole number `-0`.
-/

namespace ControlFile.Binary

theorem ofFloat?_neg {x : Float} {b : Binary} (h : ofFloat? x = some b) :
    ofFloat? (-x) = some { b with negative := !b.negative } := by
  obtain ⟨negative, bits, hbits, rfl⟩ := exists_ofBits (isFinite_of_ofFloat? h)
  rw [ofFloat?_ofBits hbits] at h
  rw [neg_ofBits hbits, ofFloat?_ofBits hbits]
  by_cases hfield : bits / 2 ^ 52 = 0
  · rw [if_pos hfield] at h ⊢
    cases h
    rfl
  · rw [if_neg hfield] at h ⊢
    cases h
    rfl

theorem neg_neg_of_isFinite {x : Float} (h : x.isFinite = true) : - -x = x := by
  obtain ⟨negative, bits, hbits, rfl⟩ := exists_ofBits h
  rw [neg_ofBits hbits, neg_ofBits hbits, Bool.not_not]

theorem roundRatio_le (n d : Nat) : roundRatio n d ≤ n / d + 1 := by
  unfold roundRatio
  simp only
  split
  · omega
  · split <;> omega

/-- The double of a number of 64 bits is finite. -/
theorem isMagnitude_nearestBits {n : Nat} (h : n < 2 ^ 64) : IsMagnitude (nearestBits n 1) := by
  rcases Nat.eq_zero_or_pos n with rfl | hpos
  · exact show nearestBits 0 1 < infinityBits by decide
  obtain ⟨hlow, hhigh⟩ := logRatio_spec hpos Nat.one_pos
  have hone : (1 : ℚ) < 2 := by norm_num
  have hratio : ratio (n, 1) = n := by simp [ratio]
  rw [hratio] at hlow hhigh
  have hlog₀ : 0 < logRatio n 1 + 1 := by
    refine (zpow_lt_zpow_iff_right₀ hone).1 (lt_of_le_of_lt ?_ hhigh)
    rw [zpow_zero]
    exact_mod_cast hpos
  have hlog₁ : logRatio n 1 < 64 := by
    refine (zpow_lt_zpow_iff_right₀ hone).1 (lt_of_le_of_lt hlow ?_)
    exact_mod_cast h
  have hexponent : max (logRatio n 1 - 52) leastExponent = logRatio n 1 - 52 :=
    max_eq_left (by simp only [leastExponent]; omega)
  -- Scaled, the number has a mantissa of 53 bits, and one more where it is rounded up.
  have hscaled : ratio (scaleRatio 2 (-(logRatio n 1 - 52)) n 1) < 2 ^ (53 : Int) := by
    rw [ratio_scaleRatio Nat.two_pos, hratio, Nat.cast_ofNat,
      show (53 : Int) = (logRatio n 1 + 1) + -(logRatio n 1 - 52) by omega, zpow_add₀ (by norm_num)]
    exact mul_lt_mul_of_pos_right hhigh (two_zpow_pos _)
  have hden := den_scaleRatio_pos Nat.two_pos (-(logRatio n 1 - 52)) n Nat.one_pos
  have hround := roundRatio_le (scaleRatio 2 (-(logRatio n 1 - 52)) n 1).1
    (scaleRatio 2 (-(logRatio n 1 - 52)) n 1).2
  have hdiv : (scaleRatio 2 (-(logRatio n 1 - 52)) n 1).1 / (scaleRatio 2 (-(logRatio n 1 - 52)) n 1).2
      < 2 ^ 53 := by
    rw [Nat.div_lt_iff_lt_mul hden]
    rw [ratio, div_lt_iff₀ (by exact_mod_cast hden)] at hscaled
    exact_mod_cast hscaled
  unfold IsMagnitude nearestBits
  rw [if_neg (Nat.ne_of_gt hpos)]
  simp only [hexponent]
  simp only [leastExponent, infinityBits, Nat.pow_eq]
  omega

/-- A whole number other than zero is negated with its double. -/
theorem ofInt_neg {n : Int} (hpos : 0 < n) (h : n.natAbs < 2 ^ 64) : ofInt (-n) = -ofInt n := by
  have hneg : decide (-n < 0) = true := by simpa using hpos
  have hnot : decide (n < 0) = false := by simpa using Int.le_of_lt hpos
  unfold ofInt ofRatio
  rw [hneg, hnot, Int.natAbs_neg, neg_ofBits (isMagnitude_nearestBits h), Bool.not_false]

end ControlFile.Binary
