import GraphInference.Number.Decimal
import Mathlib.Algebra.Order.Archimedean.Basic
import Mathlib.Algebra.Order.Field.Power
import Mathlib.Tactic.Linarith
import Mathlib.Tactic.Ring

/-!
# Rounding to doubles

A finite magnitude stands for a rational number (`Double.value`): a significand of at most fifty-three
binary digits times a power of two. `Double.roundRatio` gives the magnitude to which a number is nearer
than the `2^54`-th part of it (`Double.roundRatio_eq_of_near`), and of a quotient it reads the value only
(`Double.roundRatio_mul_right`).
-/

namespace GraphInference.Double

/-! ## Rounding -/

/-- Rounding gives the whole number that is less than a half away. -/
theorem roundHalfEven_eq {num den m : Nat} (hlow : 2 * m * den < 2 * num + den)
    (hhigh : 2 * num < (2 * m + 1) * den) : roundHalfEven num den = m := by
  have hden : 0 < den := by
    rcases Nat.eq_zero_or_pos den with rfl | h
    · simp at hhigh
    · exact h
  have hdivision := Nat.div_add_mod num den
  have hmod := Nat.mod_lt num hden
  unfold roundHalfEven
  dsimp only
  generalize num / den = s at *
  generalize num % den = r at *
  subst hdivision
  -- the quotient is `m`, or it is one less and the remainder is over a half
  have hs : s ≤ m := by
    by_contra h
    have := Nat.mul_le_mul_right den (show m + 1 ≤ s by omega)
    nlinarith
  have hm : m ≤ s + 1 := by
    by_contra h
    have := Nat.mul_le_mul_right den (show s + 2 ≤ m by omega)
    nlinarith
  obtain rfl | rfl : m = s ∨ m = s + 1 := by omega
  · rw [if_neg]
    have : 2 * r < den := by nlinarith
    omega
  · rw [if_pos]
    left
    nlinarith

theorem roundHalfEven_mul_right (num den : Nat) {c : Nat} (hc : 0 < c) :
    roundHalfEven (num * c) (den * c) = roundHalfEven num den := by
  have hscale {a b : Nat} : a * c = b * c ↔ a = b := mul_left_inj' hc.ne'
  unfold roundHalfEven
  dsimp only
  rw [Nat.mul_div_mul_right _ _ hc, Nat.mul_mod_mul_right, ← mul_assoc]
  simp only [hscale, gt_iff_lt, Nat.mul_lt_mul_right hc]

/-! ## Scales -/

theorem two_pow_bitLength_le {n : Nat} (hn : n ≠ 0) : (2 : ℚ) ^ ((bitLength n : ℤ) - 1) ≤ n := by
  rw [bitLength, if_neg hn, Nat.cast_succ, add_sub_cancel_right, zpow_natCast]
  exact_mod_cast Nat.log2_self_le hn

theorem lt_two_pow_bitLength (n : Nat) : (n : ℚ) < 2 ^ (bitLength n : ℤ) := by
  rw [zpow_natCast, bitLength]
  split
  · next h => simp [h]
  · exact_mod_cast Nat.lt_log2_self

theorem shiftLeft_lt_iff {a b i j : Nat} :
    a <<< i < b <<< j ↔ (a : ℚ) * 2 ^ (i : ℤ) < b * 2 ^ (j : ℤ) := by
  rw [Nat.shiftLeft_eq, Nat.shiftLeft_eq, zpow_natCast, zpow_natCast]
  exact_mod_cast Iff.rfl

/-- The lengths of its parts bound a quotient from below. -/
theorem two_pow_lt_ratio {num den : Nat} (hnum : num ≠ 0) (hden : den ≠ 0) :
    (2 : ℚ) ^ ((bitLength num : ℤ) - bitLength den - 1) < num / den := by
  have hpos : (0 : ℚ) < den := by exact_mod_cast Nat.pos_of_ne_zero hden
  have hlength := lt_two_pow_bitLength den
  rw [lt_div_iff₀ hpos]
  calc (2 : ℚ) ^ ((bitLength num : ℤ) - bitLength den - 1) * den
      < 2 ^ ((bitLength num : ℤ) - bitLength den - 1) * 2 ^ (bitLength den : ℤ) := by gcongr
    _ = 2 ^ ((bitLength num : ℤ) - 1) := by rw [← zpow_add₀ two_ne_zero]; congr 1; omega
    _ ≤ num := two_pow_bitLength_le hnum

/-- The lengths of its parts bound a quotient from above. -/
theorem ratio_lt_two_pow (num : Nat) {den : Nat} (hden : den ≠ 0) :
    (num / den : ℚ) < 2 ^ ((bitLength num : ℤ) - bitLength den + 1) := by
  have hpos : (0 : ℚ) < den := by exact_mod_cast Nat.pos_of_ne_zero hden
  have hlength := two_pow_bitLength_le hden
  rw [div_lt_iff₀ hpos]
  calc (num : ℚ) < 2 ^ (bitLength num : ℤ) := lt_two_pow_bitLength num
    _ = 2 ^ ((bitLength num : ℤ) - bitLength den + 1) * 2 ^ ((bitLength den : ℤ) - 1) := by
      rw [← zpow_add₀ two_ne_zero]; congr 1; omega
    _ ≤ 2 ^ ((bitLength num : ℤ) - bitLength den + 1) * den := by gcongr

/-- The shifts by which a quotient is compared with a power of two. -/
theorem shifted_lt_iff (num : Nat) {den : Nat} (hden : den ≠ 0) (w : ℤ) :
    (if w - 53 ≥ 0 then decide (num < den <<< ((w - 53).toNat + 53))
      else decide (num <<< (-(w - 53)).toNat < den <<< 53)) = true ↔ (num / den : ℚ) < 2 ^ w := by
  have hpos : (0 : ℚ) < den := by exact_mod_cast Nat.pos_of_ne_zero hden
  rw [div_lt_iff₀ hpos]
  split
  · next h =>
    have hcast : (((w - 53).toNat + 53 : ℕ) : ℤ) = w := by omega
    rw [decide_eq_true_eq, Nat.shiftLeft_eq, ← Nat.cast_lt (α := ℚ), Nat.cast_mul, Nat.cast_pow,
      Nat.cast_ofNat, ← zpow_natCast, hcast, mul_comm]
  · next h =>
    have hsplit : (den : ℚ) * 2 ^ ((53 : ℕ) : ℤ) = 2 ^ w * den * 2 ^ (53 - w) := by
      rw [mul_right_comm, ← zpow_add₀ two_ne_zero, mul_comm]
      congr 2
      omega
    have hshift : ((-(w - 53)).toNat : ℤ) = 53 - w := by omega
    rw [decide_eq_true_eq, shiftLeft_lt_iff, hsplit, hshift,
      mul_lt_mul_iff_left₀ (zpow_pos two_pos _)]

/-- The number nearest to a quotient, once its scale is known. -/
theorem roundRatio_eq {num den : Nat} (hnum : num ≠ 0) (hden : den ≠ 0) {q : ℤ} (hq : -1074 ≤ q)
    (hhigh : (num / den : ℚ) < 2 ^ (q + 53)) (hlow : q = -1074 ∨ (2 : ℚ) ^ (q + 52) ≤ num / den) :
    roundRatio num den = min ((q + 1074).toNat * span +
      if q ≥ 0 then roundHalfEven num (den <<< q.toNat) else roundHalfEven (num <<< (-q).toNat) den)
      infinityBits := by
  have hbelow := two_pow_lt_ratio hnum hden
  have habove := ratio_lt_two_pow num hden
  unfold roundRatio
  rw [if_neg hnum]
  dsimp only
  -- the test asks whether the quotient is below the middle of these two bounds
  have hfits := shifted_lt_iff num hden ((bitLength num : ℤ) - bitLength den)
  generalize (bitLength num : ℤ) - bitLength den = w at *
  generalize (if w - 53 ≥ 0 then decide (num < den <<< ((w - 53).toNat + 53))
    else decide (num <<< (-(w - 53)).toNat < den <<< 53)) = fits at *
  have hscale : max (if fits = true then w - 53 else w - 53 + 1) (-1074) = q := by
    have hpow {i j : ℤ} (h : (2 : ℚ) ^ i < 2 ^ j) : i < j := (zpow_lt_zpow_iff_right₀ one_lt_two).mp h
    split
    · next h =>
      have h := hfits.mp h
      rcases hlow with rfl | hlow
      · have := hpow (hbelow.trans hhigh)
        omega
      · have := hpow (hbelow.trans hhigh)
        have := hpow (hlow.trans_lt h)
        omega
    · next h =>
      have h := not_lt.mp (mt hfits.mpr h)
      rcases hlow with rfl | hlow
      · have := hpow (h.trans_lt hhigh)
        omega
      · have := hpow (h.trans_lt hhigh)
        have := hpow (hlow.trans_lt habove)
        omega
  rw [hscale]

/-- A quotient that is less than half a step from a multiple of the step rounds to this multiple. -/
theorem roundRatio_eq_of_scale {num den m : Nat} (hnum : num ≠ 0) (hden : den ≠ 0) {q : ℤ}
    (hq : -1074 ≤ q) (hhigh : (num / den : ℚ) < 2 ^ (q + 53))
    (hlow : q = -1074 ∨ (2 : ℚ) ^ (q + 52) ≤ num / den)
    (hnear : |(num / den : ℚ) - m * 2 ^ q| < 2 ^ q / 2) :
    roundRatio num den = min ((q + 1074).toNat * span + m) infinityBits := by
  have hpos : (0 : ℚ) < den := by exact_mod_cast Nat.pos_of_ne_zero hden
  obtain ⟨hleft, hright⟩ := abs_lt.mp hnear
  have hnum' : (num / den : ℚ) * den = num := div_mul_cancel₀ _ hpos.ne'
  generalize hx : (num / den : ℚ) = x at *
  rw [roundRatio_eq hnum hden hq (hx ▸ hhigh) (hx ▸ hlow)]
  have hbelow : 2 * m * (den * 2 ^ q) < 2 * (num : ℚ) + den * 2 ^ q := by
    rw [← hnum']
    nlinarith
  have habove : 2 * (num : ℚ) < (2 * m + 1) * (den * 2 ^ q) := by
    rw [← hnum']
    nlinarith
  congr 2
  split
  · next h =>
    have hcast : ((den <<< q.toNat : ℕ) : ℚ) = den * 2 ^ q := by
      rw [Nat.shiftLeft_eq, Nat.cast_mul, Nat.cast_pow, Nat.cast_ofNat, ← zpow_natCast,
        Int.toNat_of_nonneg h]
    apply roundHalfEven_eq
    · rw [← Nat.cast_lt (α := ℚ)]
      push_cast
      rwa [hcast]
    · rw [← Nat.cast_lt (α := ℚ)]
      push_cast
      rwa [hcast]
  · next h =>
    have hcast : ((num <<< (-q).toNat : ℕ) : ℚ) * 2 ^ q = num := by
      rw [Nat.shiftLeft_eq, Nat.cast_mul, Nat.cast_pow, Nat.cast_ofNat, ← zpow_natCast,
        Int.toNat_of_nonneg (by omega), mul_assoc, ← zpow_add₀ two_ne_zero, neg_add_cancel, zpow_zero,
        mul_one]
    have hstep : (0 : ℚ) < 2 ^ q := zpow_pos two_pos q
    rw [← hcast] at hbelow habove
    apply roundHalfEven_eq
    · rw [← Nat.cast_lt (α := ℚ)]
      push_cast
      nlinarith
    · rw [← Nat.cast_lt (α := ℚ)]
      push_cast
      nlinarith

/-- Every quotient has a scale. -/
theorem exists_scale {x : ℚ} (hx : 0 < x) :
    ∃ q : ℤ, -1074 ≤ q ∧ x < 2 ^ (q + 53) ∧ (q = -1074 ∨ (2 : ℚ) ^ (q + 52) ≤ x) := by
  obtain ⟨n, hlow, hhigh⟩ := exists_mem_Ico_zpow hx one_lt_two
  refine ⟨max (n - 52) (-1074), le_max_right _ _, hhigh.trans_le ?_, ?_⟩
  · exact zpow_le_zpow_right₀ one_le_two (by omega)
  · rcases le_total (n - 52) (-1074) with h | h
    · exact .inl (max_eq_right h)
    · rw [max_eq_left h, sub_add_cancel]
      exact .inr hlow

theorem roundRatio_zero (den : Nat) : roundRatio 0 den = 0 :=
  if_pos rfl

/-- A factor of both parts of a quotient makes no difference. -/
theorem roundRatio_mul_right (num : Nat) {den c : Nat} (hden : den ≠ 0) (hc : c ≠ 0) :
    roundRatio (num * c) (den * c) = roundRatio num den := by
  by_cases hnum : num = 0
  · rw [hnum, Nat.zero_mul, roundRatio_zero, roundRatio_zero]
  have hpos : (0 : ℚ) < num / den := by positivity
  have heq : ((num * c : ℕ) / (den * c : ℕ) : ℚ) = num / den := by
    push_cast
    exact mul_div_mul_right _ _ (Nat.cast_ne_zero.mpr hc)
  obtain ⟨q, hq, hhigh, hlow⟩ := exists_scale hpos
  rw [roundRatio_eq hnum hden hq hhigh hlow, roundRatio_eq (Nat.mul_ne_zero hnum hc)
    (Nat.mul_ne_zero hden hc) hq (heq ▸ hhigh) (heq ▸ hlow)]
  have hshift (n k : Nat) : (n * c) <<< k = n <<< k * c := by
    simp only [Nat.shiftLeft_eq, Nat.mul_right_comm]
  rw [hshift, hshift, roundHalfEven_mul_right _ _ (Nat.pos_of_ne_zero hc),
    roundHalfEven_mul_right _ _ (Nat.pos_of_ne_zero hc)]

/-! ## Magnitudes -/

/-- The number that a finite magnitude stands for. -/
def value (magnitude : Nat) : ℚ :=
  (scaled magnitude).1 * 2 ^ ((scaled magnitude).2 - 1074 : ℤ)

/-- A magnitude is a row and a place; the significand takes up the row but in the first. -/
theorem scaled_spec (magnitude : Nat) :
    magnitude = (scaled magnitude).2 * span + (scaled magnitude).1 ∧
      (scaled magnitude).1 < 2 ^ 53 ∧ (2 ^ 52 ≤ (scaled magnitude).1 ∨ (scaled magnitude).2 = 0) := by
  have hspan : span = 2 ^ 52 := rfl
  have hdivision := Nat.div_add_mod magnitude span
  have hmod := Nat.mod_lt magnitude (show 0 < span by decide)
  unfold scaled
  dsimp only
  split
  · next h =>
    rw [h] at hdivision
    dsimp only
    omega
  · next h =>
    dsimp only
    rw [← Nat.sub_one_add_one h] at hdivision
    generalize magnitude / span - 1 = e at *
    rw [hspan] at *
    omega

theorem ratio_value (magnitude : Nat) :
    ((ratio magnitude).1 / (ratio magnitude).2 : ℚ) = value magnitude := by
  unfold ratio value
  dsimp only
  generalize (scaled magnitude).1 = m
  generalize (scaled magnitude).2 = e
  split
  · next h =>
    rw [Nat.shiftLeft_eq, one_mul, Nat.cast_pow, Nat.cast_ofNat, div_eq_mul_inv, ← zpow_natCast,
      ← zpow_neg, Nat.cast_sub h, neg_sub]
    rfl
  · next h =>
    rw [Nat.shiftLeft_eq, Nat.cast_one, div_one, Nat.cast_mul, Nat.cast_pow, Nat.cast_ofNat,
      ← zpow_natCast, Nat.cast_sub (by omega)]
    rfl

theorem ratio_pos {magnitude : Nat} (h : magnitude ≠ 0) : 0 < (ratio magnitude).1 := by
  obtain ⟨heq, -, hlow⟩ := scaled_spec magnitude
  have hm : 0 < (scaled magnitude).1 := by
    rcases hlow with hlow | hlow
    · omega
    · rw [hlow] at heq
      omega
  unfold ratio
  dsimp only
  split
  · exact hm
  · rw [Nat.shiftLeft_eq]
    positivity

theorem ratio_den_pos (magnitude : Nat) : 0 < (ratio magnitude).2 := by
  unfold ratio
  dsimp only
  split
  · rw [Nat.shiftLeft_eq]
    positivity
  · exact Nat.one_pos

/-- A number that is nearer to a finite magnitude than the `2^54`-th part of this rounds to it. -/
theorem roundRatio_eq_of_near {magnitude num den : Nat} (hfinite : magnitude < infinityBits)
    (hnum : num ≠ 0) (hden : den ≠ 0)
    (hnear : |(num / den : ℚ) - value magnitude| * 2 ^ 54 < value magnitude) :
    roundRatio num den = magnitude := by
  obtain ⟨heq, hbound, hrow⟩ := scaled_spec magnitude
  unfold value at hnear
  generalize (scaled magnitude).1 = m at *
  generalize (scaled magnitude).2 = e at *
  generalize hx : (num / den : ℚ) = x at *
  obtain ⟨q, hq⟩ : ∃ q : ℤ, q = e - 1074 := ⟨_, rfl⟩
  rw [← hq] at hnear
  have hstep : (0 : ℚ) < 2 ^ q := zpow_pos two_pos q
  have hm : (m : ℚ) + 1 ≤ 2 ^ 53 := by exact_mod_cast hbound
  have h53 : (2 : ℚ) ^ (q + 53) = 2 ^ 53 * 2 ^ q := by rw [zpow_add₀ two_ne_zero, mul_comm]; rfl
  have h52 : (2 : ℚ) ^ (q + 52) = 2 ^ 52 * 2 ^ q := by rw [zpow_add₀ two_ne_zero, mul_comm]; rfl
  have hhalf : |x - m * 2 ^ q| < 2 ^ q / 2 := by
    nlinarith
  obtain ⟨hleft, hright⟩ := abs_lt.mp hhalf
  by_cases hlow : e = 0 ∨ (2 : ℚ) ^ (q + 52) ≤ x
  · have hscale : q = -1074 ∨ (2 : ℚ) ^ (q + 52) ≤ x := hlow.imp_left fun h => by omega
    rw [roundRatio_eq_of_scale hnum hden (by omega) (by rw [hx, h53]; nlinarith) (hx ▸ hscale)
      (hx ▸ hhalf)]
    have : (q + 1074).toNat = e := by omega
    rw [this, ← heq]
    exact min_eq_left hfinite.le
  · -- the number is in the row below, half as wide, whose end is the magnitude
    obtain ⟨hpos, hbelow⟩ := not_or.mp hlow
    have hbelow := not_le.mp hbelow
    obtain rfl : m = 2 ^ 52 := by
      refine le_antisymm (le_of_not_gt fun h => ?_) (hrow.resolve_right hpos)
      have : (2 : ℚ) ^ 52 + 1 ≤ m := by exact_mod_cast h
      rw [h52] at hbelow
      nlinarith
    have hhalved : (2 : ℚ) ^ q = 2 * 2 ^ (q - 1) := by
      rw [← zpow_one_add₀ two_ne_zero, add_sub_cancel]
    have hlow' : (2 : ℚ) ^ (q - 1 + 52) = 2 ^ 52 * 2 ^ (q - 1) := by
      rw [zpow_add₀ two_ne_zero, mul_comm]; rfl
    have hhigh' : q - 1 + 53 = q + 52 := by ring
    have hnear' : |x - (2 ^ 53 : ℕ) * 2 ^ (q - 1)| < 2 ^ (q - 1) / 2 := by
      have : ((2 ^ 53 : ℕ) : ℚ) * 2 ^ (q - 1) = (2 ^ 52 : ℕ) * 2 ^ q := by
        rw [hhalved]
        push_cast
        ring
      rw [this]
      push_cast at hnear ⊢
      linarith
    rw [roundRatio_eq_of_scale hnum hden (by omega) (by rw [hx, hhigh']; exact hbelow)
      (.inr (by rw [hx, hlow']; push_cast at hleft; nlinarith)) (hx ▸ hnear')]
    have hscale : (q - 1 + 1074).toNat = e - 1 := by omega
    have hend : (e - 1) * span + 2 ^ 53 = magnitude := by
      have hspan : span = 2 ^ 52 := rfl
      obtain ⟨k, rfl⟩ := Nat.exists_eq_succ_of_ne_zero hpos
      rw [heq, hspan, Nat.succ_sub_one]
      omega
    rw [hscale, hend]
    exact min_eq_left hfinite.le

end GraphInference.Double
