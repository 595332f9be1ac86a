import GraphInference.Proofs.Number.Rounding
import Mathlib.Order.Defs.LinearOrder

/-!
# Integers as doubles

Integers below `2^53` lose nothing when they are made doubles: such a double has the place of the integer
among all integers that are made doubles (`Double.compare?_ofInt`). At `2^53` the next integer falls on
the same double.
-/

namespace GraphInference.Double

/-! ## Rounding whole numbers -/

theorem le_roundHalfEven (num den : Nat) : num / den ≤ roundHalfEven num den := by
  unfold roundHalfEven
  dsimp only
  split <;> omega

theorem log2_scale {n : Nat} (hn : n ≠ 0) :
    (n / (1 : Nat) : ℚ) < 2 ^ ((n.log2 : ℤ) - 52 + 53) ∧
      (2 : ℚ) ^ ((n.log2 : ℤ) - 52 + 52) ≤ n / (1 : Nat) := by
  have hlow : (2 : ℚ) ^ n.log2 ≤ n := by exact_mod_cast Nat.log2_self_le hn
  have hhigh : (n : ℚ) < 2 ^ (n.log2 + 1) := by exact_mod_cast Nat.lt_log2_self
  have hsucc : (n.log2 : ℤ) - 52 + 53 = (n.log2 + 1 : ℕ) := by omega
  rw [Nat.cast_one, div_one, hsucc, sub_add_cancel, zpow_natCast, zpow_natCast]
  exact ⟨hhigh, hlow⟩

/-- Below `2^53` the magnitude of an integer has its binary digits. -/
theorem roundRatio_one_of_lt {n : Nat} (hn : n ≠ 0) (hlt : n < 2 ^ 53) :
    roundRatio n 1 = (n.log2 + 1022) * span + n * 2 ^ (52 - n.log2) ∧
      2 ^ 52 ≤ n * 2 ^ (52 - n.log2) ∧ n * 2 ^ (52 - n.log2) < 2 ^ 53 ∧ n.log2 ≤ 52 := by
  have hlog : n.log2 ≤ 52 := Nat.lt_succ_iff.mp ((Nat.log2_lt hn).mpr hlt)
  obtain ⟨hhigh, hlow⟩ := log2_scale hn
  have hexact : (n / (1 : Nat) : ℚ) = (n * 2 ^ (52 - n.log2) : ℕ) * 2 ^ ((n.log2 : ℤ) - 52) := by
    rw [Nat.cast_one, div_one, Nat.cast_mul, Nat.cast_pow, Nat.cast_ofNat, ← zpow_natCast, mul_assoc,
      ← zpow_add₀ two_ne_zero, Nat.cast_sub hlog]
    norm_num
  have hbounds : 2 ^ 52 ≤ n * 2 ^ (52 - n.log2) ∧ n * 2 ^ (52 - n.log2) < 2 ^ 53 := by
    have hpow : 2 ^ n.log2 * 2 ^ (52 - n.log2) = 2 ^ 52 := by
      rw [← pow_add]
      congr 1
      omega
    have h1 := Nat.mul_le_mul_right (2 ^ (52 - n.log2)) (Nat.log2_self_le hn)
    have h2 := Nat.mul_lt_mul_of_pos_right (@Nat.lt_log2_self n) (Nat.two_pow_pos (52 - n.log2))
    rw [hpow] at h1
    rw [pow_succ, Nat.mul_right_comm, hpow] at h2
    exact ⟨h1, h2⟩
  refine ⟨?_, hbounds.1, hbounds.2, hlog⟩
  rw [roundRatio_eq_of_scale hn one_ne_zero (by omega) hhigh (.inr hlow)
    (by rw [← hexact, sub_self, abs_zero]; positivity)]
  have hscale : ((n.log2 : ℤ) - 52 + 1074).toNat = n.log2 + 1022 := by omega
  have hspan : span = 2 ^ 52 := rfl
  have hinfinity : infinityBits = 2047 * 2 ^ 52 := rfl
  rw [hscale, min_eq_left]
  rw [hspan, hinfinity]
  omega

theorem le_roundRatio_one {n : Nat} (hn : 2 ^ 53 ≤ n) : 1076 * span ≤ roundRatio n 1 := by
  have hne : n ≠ 0 := by omega
  have hlog : 53 ≤ n.log2 := (Nat.le_log2 hne).mpr hn
  obtain ⟨hhigh, hlow⟩ := log2_scale hne
  rw [roundRatio_eq hne one_ne_zero (by omega) hhigh (.inr hlow), if_pos (by omega)]
  have hscale : ((n.log2 : ℤ) - 52 + 1074).toNat = n.log2 + 1022 := by omega
  have hshift : ((n.log2 : ℤ) - 52).toNat = n.log2 - 52 := by omega
  have hsignificand : 2 ^ 52 ≤ roundHalfEven n (1 <<< (n.log2 - 52)) := by
    refine le_trans ?_ (le_roundHalfEven _ _)
    rw [Nat.shiftLeft_eq, one_mul, Nat.le_div_iff_mul_le (Nat.two_pow_pos _), ← pow_add]
    have : 52 + (n.log2 - 52) = n.log2 := by omega
    rw [this]
    exact Nat.log2_self_le hne
  have hspan : span = 2 ^ 52 := rfl
  have hinfinity : infinityBits = 2047 * 2 ^ 52 := rfl
  rw [hscale, hshift, hspan, hinfinity]
  omega

/-- Below `2^53` integers are rounded in order. -/
theorem roundRatio_one_lt {a b : Nat} (ha : a < 2 ^ 53) (hab : a < b) :
    roundRatio a 1 < roundRatio b 1 := by
  have hspan : span = 2 ^ 52 := rfl
  by_cases hb : b < 2 ^ 53
  · obtain ⟨hb, hblow, -, -⟩ := roundRatio_one_of_lt (by omega) hb
    by_cases hzero : a = 0
    · rw [hzero, roundRatio_zero, hb]
      omega
    · obtain ⟨ha, -, hahigh, -⟩ := roundRatio_one_of_lt hzero ha
      rw [ha, hb]
      have hlogs : a.log2 ≤ b.log2 :=
        (Nat.le_log2 (by omega)).mpr ((Nat.log2_self_le hzero).trans hab.le)
      rcases hlogs.eq_or_lt with hlog | hlog
      · rw [hlog]
        exact Nat.add_lt_add_left (Nat.mul_lt_mul_of_pos_right hab (Nat.two_pow_pos _)) _
      · rw [hspan]
        omega
  · have hb := le_roundRatio_one (not_lt.mp hb)
    refine lt_of_lt_of_le ?_ hb
    by_cases hzero : a = 0
    · rw [hzero, roundRatio_zero, hspan]
      omega
    · obtain ⟨ha, -, hahigh, halog⟩ := roundRatio_one_of_lt hzero ha
      rw [ha, hspan]
      omega

theorem roundRatio_le (num den : Nat) : roundRatio num den ≤ infinityBits := by
  unfold roundRatio
  split
  · exact Nat.zero_le _
  · exact min_le_right _ _

/-! ## Sign and magnitude -/

section Sign

variable {negative : Bool} {m : Nat}

theorem toNat_bits_ofMagnitude (hm : m < signBit) :
    (ofMagnitude negative m).bits.toNat = if negative then signBit + m else m := by
  have hsign : signBit = 2 ^ 63 := rfl
  rw [hsign] at hm
  unfold ofMagnitude
  rw [UInt64.toNat_ofNat', hsign]
  cases negative <;> simp only [Bool.false_eq_true, if_false, if_true] <;> omega

@[simp] theorem isNegative_ofMagnitude (hm : m < signBit) :
    (ofMagnitude negative m).isNegative = negative := by
  rw [isNegative, toNat_bits_ofMagnitude hm]
  cases negative with
  | true => exact decide_eq_true (Nat.le_add_right _ _)
  | false => exact decide_eq_false (not_le.mpr hm)

@[simp] theorem magnitude_ofMagnitude (hm : m < signBit) : (ofMagnitude negative m).magnitude = m := by
  rw [magnitude, toNat_bits_ofMagnitude hm]
  cases negative with
  | true => rw [if_pos rfl, Nat.add_mod_left, Nat.mod_eq_of_lt hm]
  | false => exact Nat.mod_eq_of_lt hm

end Sign

theorem roundRatio_lt_signBit (num den : Nat) : roundRatio num den < signBit :=
  (roundRatio_le num den).trans_lt (by decide)

theorem isNaN_ofInt (n : ℤ) : (ofInt n).isNaN = false := by
  rw [isNaN, ofInt, magnitude_ofMagnitude (roundRatio_lt_signBit _ _)]
  exact decide_eq_false (not_lt.mpr (roundRatio_le _ _))

theorem rank_ofInt (n : ℤ) :
    (ofInt n).rank = if n < 0 then -(roundRatio n.natAbs 1 : ℤ) else roundRatio n.natAbs 1 := by
  rw [rank, ofInt, magnitude_ofMagnitude (roundRatio_lt_signBit _ _),
    isNegative_ofMagnitude (roundRatio_lt_signBit _ _)]
  simp only [decide_eq_true_eq]

/-- The rounding of whole numbers has the order of the numbers, where one is below `2^53`. -/
theorem roundRatio_one_lt_iff {a n : Nat} (hn : n < 2 ^ 53) :
    (roundRatio a 1 < roundRatio n 1 ↔ a < n) ∧ (roundRatio n 1 < roundRatio a 1 ↔ n < a) := by
  rcases lt_trichotomy a n with h | rfl | h
  · have := roundRatio_one_lt (h.trans hn) h
    omega
  · simp
  · have := roundRatio_one_lt hn h
    omega

/-- An integer below `2^53` has its place among all integers also when all are made doubles. -/
theorem compare?_ofInt (a : ℤ) {n : ℤ} (hn : n.natAbs < 2 ^ 53) :
    (ofInt a).compare? (ofInt n) = some (compare a n) := by
  obtain ⟨hlt, hgt⟩ := @roundRatio_one_lt_iff a.natAbs n.natAbs hn
  have hpos {k : ℤ} (hk : k < 0) : 0 < roundRatio k.natAbs 1 := by
    have := @roundRatio_one_lt 0 k.natAbs (by decide) (by omega)
    omega
  have hrank : ((ofInt a).rank < (ofInt n).rank ↔ a < n) ∧
      ((ofInt n).rank < (ofInt a).rank ↔ n < a) := by
    have ha := @hpos a
    have hn := @hpos n
    rw [rank_ofInt, rank_ofInt]
    generalize roundRatio a.natAbs 1 = x at *
    generalize roundRatio n.natAbs 1 = y at *
    split <;> split <;> omega
  unfold compare?
  rw [isNaN_ofInt, isNaN_ofInt, Bool.or_self, if_neg Bool.false_ne_true]
  congr 1
  rcases lt_trichotomy a n with h | rfl | h
  · rw [compare_lt_iff_lt.mpr h, compare_lt_iff_lt.mpr (hrank.1.mpr h)]
  · rw [compare_eq_iff_eq.mpr rfl, compare_eq_iff_eq.mpr rfl]
  · rw [compare_gt_iff_gt.mpr h, compare_gt_iff_gt.mpr (hrank.2.mpr h)]

/-- From `2^53` on not every integer has a double of its own. -/
example : ofInt (2 ^ 53 + 1) = ofInt (2 ^ 53) := by decide +kernel

end GraphInference.Double
