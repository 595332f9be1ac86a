import GraphInference.Proofs.Number.Rounding
import Mathlib.Data.List.TakeWhile
import Mathlib.Data.Nat.Cast.Order.Field
import Mathlib.Tactic.NormNum
import Mathlib.Tactic.Positivity

/-!
# Decimal notation reads back

The text of a double reads as the double (`Double.ofText?_text`): the search for digits ends at the latest
with seventeen of them, where a step of the grid is less than the distance to the next double. The
digits of an integer read as the double nearest to it.
-/

namespace GraphInference.Double

/-! ## Digits -/

theorem digitsValue_eq (cs : List Char) : digitsValue cs = Nat.ofDigitChars 10 cs 0 := by
  rw [digitsValue, Nat.ofDigitChars_eq_foldl]
  simp only [Nat.mul_comm]

theorem digitsValue_toDigits (n : Nat) : digitsValue (Nat.toDigits 10 n) = n := by
  rw [digitsValue_eq, Nat.ofDigitChars_ten_toDigits]

theorem digitsValue_append_zeros (cs : List Char) (k : Nat) :
    digitsValue (cs ++ List.replicate k '0') = digitsValue cs * 10 ^ k := by
  simp only [digitsValue_eq, Nat.ofDigitChars_append, Nat.ofDigitChars_replicate_zero, Nat.mul_comm]

theorem digitsValue_zeros_append (cs : List Char) (k : Nat) :
    digitsValue (List.replicate k '0' ++ cs) = digitsValue cs := by
  simp only [digitsValue_eq, Nat.ofDigitChars_append, Nat.ofDigitChars_replicate_zero, Nat.mul_zero]

theorem isDigit_of_mem_toDigits {n : Nat} : ∀ c ∈ Nat.toDigits 10 n, c.isDigit = true :=
  fun _ hc => Nat.isDigit_of_mem_toDigits (by decide) (by decide) hc

theorem decimalLength_le_iff {n k : Nat} : decimalLength n ≤ k ↔ n < 10 ^ k := by
  unfold decimalLength
  split
  · next h => simp [h]
  · next h =>
    rcases Nat.eq_zero_or_pos k with rfl | hk
    · have := Nat.length_toDigits_pos (b := 10) (n := n)
      omega
    · exact Nat.length_toDigits_le_iff (by decide) hk

theorem decimalLength_mul_pow {m : Nat} (hm : m ≠ 0) (k : Nat) :
    decimalLength (m * 10 ^ k) = decimalLength m + k := by
  refine eq_of_forall_ge_iff fun n => ?_
  rw [decimalLength_le_iff]
  rcases le_or_gt k n with h | h
  · obtain ⟨j, rfl⟩ := Nat.exists_eq_add_of_le' h
    rw [pow_add, Nat.mul_lt_mul_right (by positivity), add_le_add_iff_right, decimalLength_le_iff]
  · refine iff_of_false (not_lt.mpr ?_) (by omega)
    calc 10 ^ n ≤ 10 ^ k := Nat.pow_le_pow_right (by decide) h.le
      _ ≤ m * 10 ^ k := Nat.le_mul_of_pos_left _ (Nat.pos_of_ne_zero hm)

/-! ## Reading decimals -/

theorem ten_pow_le_of_decimalLength {m : Nat} (hm : m ≠ 0) (k : ℤ) :
    (10 : ℚ) ^ (decimalLength m + k - 1) ≤ m * 10 ^ k ∧
      (m : ℚ) * 10 ^ k < 10 ^ (decimalLength m + k) := by
  have hlow : 10 ^ (decimalLength m - 1) ≤ m := by
    by_contra h
    have := decimalLength_le_iff.mpr (not_le.mp h)
    have : decimalLength m ≠ 0 := fun h => hm (by simpa using decimalLength_le_iff.mp h.le)
    omega
  have hpos : decimalLength m ≠ 0 := fun h => hm (by simpa using decimalLength_le_iff.mp h.le)
  have hhigh : m < 10 ^ decimalLength m := decimalLength_le_iff.mp le_rfl
  have hstep : (0 : ℚ) < 10 ^ k := by positivity
  constructor
  · have : (decimalLength m + k - 1 : ℤ) = (decimalLength m - 1 : ℕ) + k := by omega
    rw [this, zpow_add₀ (by norm_num), zpow_natCast]
    gcongr
    exact_mod_cast hlow
  · rw [zpow_add₀ (by norm_num), zpow_natCast]
    gcongr
    exact_mod_cast hhigh

/-- A decimal of moderate size is read as the quotient that it is. -/
theorem exists_roundDecimal_eq {m : Nat} {k : ℤ} (hm : m ≠ 0)
    (hlow : (10 : ℚ) ^ (-400 : ℤ) ≤ m * 10 ^ k) (hhigh : (m : ℚ) * 10 ^ k < 10 ^ (400 : ℤ)) :
    ∃ num den : Nat, num ≠ 0 ∧ den ≠ 0 ∧ (num / den : ℚ) = m * 10 ^ k ∧
      roundDecimal m k = roundRatio num den := by
  obtain ⟨hbelow, habove⟩ := ten_pow_le_of_decimalLength hm k
  have hpow {i j : ℤ} (h : (10 : ℚ) ^ i < 10 ^ j) : i < j :=
    (zpow_lt_zpow_iff_right₀ (by norm_num)).mp h
  have h1 := hpow (hlow.trans_lt habove)
  have h2 := hpow (hbelow.trans_lt hhigh)
  unfold roundDecimal
  rw [if_neg hm, if_neg (by omega), if_neg (by omega)]
  split
  · next hk =>
    refine ⟨_, 1, Nat.mul_ne_zero hm (pow_ne_zero _ (by decide)), one_ne_zero, ?_, rfl⟩
    · rw [Nat.cast_one, div_one, Nat.cast_mul, Nat.cast_pow, Nat.cast_ofNat, ← zpow_natCast,
        Int.toNat_of_nonneg hk]
  · next hk =>
    refine ⟨m, _, hm, pow_ne_zero _ (by decide), ?_, rfl⟩
    · rw [Nat.cast_pow, Nat.cast_ofNat, ← zpow_natCast, Int.toNat_of_nonneg (by omega),
        zpow_neg, div_inv_eq_mul]

theorem roundDecimal_zero (k : ℤ) : roundDecimal 0 k = 0 :=
  if_pos rfl

/-- Zeros at the end of a decimal may be taken for a power of ten. -/
theorem roundDecimal_mul_pow (m j : Nat) (k : ℤ) :
    roundDecimal (m * 10 ^ j) k = roundDecimal m (k + j) := by
  by_cases hm : m = 0
  · rw [hm, Nat.zero_mul, roundDecimal_zero, roundDecimal_zero]
  have hten (i : Nat) : (10 : Nat) ^ i ≠ 0 := by positivity
  unfold roundDecimal
  rw [if_neg (Nat.mul_ne_zero hm (hten j)), if_neg hm, decimalLength_mul_pow hm]
  have hsize : ((decimalLength m + j : ℕ) : ℤ) + k = decimalLength m + (k + j) := by push_cast; ring
  rw [hsize]
  split
  · rfl
  split
  · rfl
  simp only [Nat.pow_eq]
  rcases lt_or_ge k 0 with hk | hk
  · rcases lt_or_ge (k + j) 0 with hkj | hkj
    · rw [if_neg (by omega), if_neg (by omega), ← roundRatio_mul_right m (hten _) (hten j), ← pow_add]
      congr 2
      omega
    · rw [if_neg (by omega), if_pos hkj,
        ← roundRatio_mul_right (m * _) one_ne_zero (hten (-k).toNat), mul_assoc, ← pow_add, one_mul]
      congr 3
      omega
  · rw [if_pos hk, if_pos (by omega), mul_assoc, ← pow_add]
    congr 3
    omega

/-- Finite magnitudes other than zero are well within the range of decimals. -/
theorem value_bounds {magnitude : Nat} (hpos : 0 < value magnitude) (hfinite : magnitude < infinityBits) :
    2 * (10 : ℚ) ^ (-400 : ℤ) < value magnitude ∧ 2 * value magnitude < (10 : ℚ) ^ (400 : ℤ) := by
  obtain ⟨heq, hbound, -⟩ := scaled_spec magnitude
  unfold value at *
  generalize (scaled magnitude).1 = m at *
  generalize (scaled magnitude).2 = e at *
  have hm : 1 ≤ m := by
    rcases Nat.eq_zero_or_pos m with rfl | h
    · simp at hpos
    · exact h
  have he : e ≤ 2046 := by
    have hspan : span = 2 ^ 52 := rfl
    have hinfinity : infinityBits = 2047 * 2 ^ 52 := rfl
    rw [hspan] at heq
    rw [hinfinity] at hfinite
    omega
  have hm' : (1 : ℚ) ≤ m := by exact_mod_cast hm
  have hbound' : (m : ℚ) < 2 ^ 53 := by exact_mod_cast hbound
  have hstep : (0 : ℚ) < 2 ^ (e - 1074 : ℤ) := by positivity
  have hlow : (2 : ℚ) ^ (-(3 * 359) : ℤ) ≤ 2 ^ (e - 1074 : ℤ) :=
    zpow_le_zpow_right₀ one_le_two (by omega)
  have hhigh : (2 : ℚ) ^ (e - 1074 + 54 : ℤ) ≤ 2 ^ (3 * 342 : ℤ) :=
    zpow_le_zpow_right₀ one_le_two (by omega)
  have hten {i : ℤ} (hi : 0 ≤ i) : (2 : ℚ) ^ (3 * i) ≤ 10 ^ i := by
    rw [zpow_mul]
    exact zpow_le_zpow_left₀ hi (by norm_num) (by norm_num)
  have hgap {i : ℤ} (hi : i < 400) : (10 : ℚ) ^ i < 10 ^ (400 : ℤ) :=
    zpow_lt_zpow_right₀ (by norm_num) hi
  constructor
  · calc 2 * (10 : ℚ) ^ (-400 : ℤ) < 10 ^ (1 : ℤ) * 10 ^ (-400 : ℤ) := by gcongr; norm_num
      _ = 10 ^ (-399 : ℤ) := (zpow_add₀ (by norm_num) _ _).symm
      _ ≤ 10 ^ (-359 : ℤ) := zpow_le_zpow_right₀ (by norm_num) (by norm_num)
      _ ≤ 2 ^ (-(3 * 359) : ℤ) := by
        rw [zpow_neg, zpow_neg]
        exact inv_anti₀ (by positivity) (@hten 359 (by norm_num))
      _ ≤ 1 * 2 ^ (e - 1074 : ℤ) := hlow.trans_eq (one_mul _).symm
      _ ≤ m * 2 ^ (e - 1074 : ℤ) := by gcongr
  · calc 2 * ((m : ℚ) * 2 ^ (e - 1074 : ℤ)) ≤ 2 * (2 ^ 53 * 2 ^ (e - 1074 : ℤ)) := by gcongr
      _ = 2 ^ (e - 1074 + 54 : ℤ) := by rw [zpow_add₀ two_ne_zero]; norm_num; ring
      _ ≤ 2 ^ (3 * 342 : ℤ) := hhigh
      _ ≤ 10 ^ (342 : ℤ) := @hten 342 (by norm_num)
      _ < 10 ^ (400 : ℤ) := hgap (by norm_num)

/-- A decimal that is nearer to a finite magnitude than the `2^54`-th part of this reads as it. -/
theorem roundDecimal_eq_of_near {magnitude m : Nat} {k : ℤ} (hfinite : magnitude < infinityBits)
    (hnear : |(m : ℚ) * 10 ^ k - value magnitude| * 2 ^ 54 < value magnitude) :
    roundDecimal m k = magnitude := by
  have hm : m ≠ 0 := by
    rintro rfl
    rw [Nat.cast_zero, zero_mul, zero_sub, abs_neg] at hnear
    nlinarith [le_abs_self (value magnitude), abs_nonneg (value magnitude)]
  obtain ⟨hleft, hright⟩ := abs_lt.mp ((lt_div_iff₀ (by positivity)).mpr hnear)
  have hpos : 0 < value magnitude := by
    nlinarith [abs_nonneg ((m : ℚ) * 10 ^ k - value magnitude)]
  obtain ⟨hlow, hhigh⟩ := value_bounds hpos hfinite
  have hhalf : value magnitude / 2 ^ 54 < value magnitude / 2 :=
    div_lt_div_of_pos_left hpos two_pos (by norm_num)
  have hbelow : value magnitude < 2 * (m * 10 ^ k) := by linarith
  have habove : (m : ℚ) * 10 ^ k < 2 * value magnitude := by linarith
  obtain ⟨num, den, hnum, hden, hquotient, heq⟩ := exists_roundDecimal_eq hm
    (lt_of_mul_lt_mul_left (hlow.trans hbelow) two_pos.le).le (habove.trans hhigh)
  rw [heq]
  exact roundRatio_eq_of_near hfinite hnum hden (hquotient ▸ hnear)


/-! ## Writing decimals -/

/-- A grid decimal reads back. -/
theorem roundDecimal_of_gridDecimal? {magnitude num den m : Nat} {k : ℤ}
    (h : gridDecimal? magnitude num den k = some m) : roundDecimal m k = magnitude := by
  unfold gridDecimal? at h
  dsimp only at h
  split at h
  · next hboth =>
    obtain rfl := Option.some.inj h
    split
    · exact hboth.1
    · exact hboth.2
  · split at h
    · next hlow =>
      obtain rfl := Option.some.inj h
      exact hlow
    · split at h
      · next hhigh =>
        obtain rfl := Option.some.inj h
        exact hhigh
      · cases h

theorem gridDecimal?_ne_none {magnitude num den : Nat} {k : ℤ}
    (h : roundDecimal (neighbours num den k).1 k = magnitude ∨
      roundDecimal (neighbours num den k).2 k = magnitude) :
    gridDecimal? magnitude num den k ≠ none := by
  unfold gridDecimal?
  dsimp only
  split
  · exact Option.some_ne_none _
  · next hboth =>
    split
    · exact Option.some_ne_none _
    · next hlow =>
      rw [if_pos (h.resolve_left hlow)]
      exact Option.some_ne_none _

/-- One of the neighbours on a grid is at most half a step away. -/
theorem near_neighbours {num den : Nat} (hden : 0 < den) (k : ℤ) :
    |((neighbours num den k).1 : ℚ) * 10 ^ k - num / den| * 2 ≤ 10 ^ k ∨
      |((neighbours num den k).2 : ℚ) * 10 ^ k - num / den| * 2 ≤ 10 ^ k := by
  have hstep : (0 : ℚ) < 10 ^ k := by positivity
  obtain ⟨n, d, hd, hquotient, hneighbours⟩ : ∃ n d : Nat, 0 < d ∧
      (n / d : ℚ) * 10 ^ k = num / den ∧ neighbours num den k = (n / d, (n + d - 1) / d) := by
    unfold neighbours
    by_cases hk : k ≥ 0
    · rw [if_pos hk]
      refine ⟨num, den * 10 ^ k.toNat, by positivity, ?_, rfl⟩
      rw [Nat.cast_mul, Nat.cast_pow, Nat.cast_ofNat, ← zpow_natCast, Int.toNat_of_nonneg hk,
        ← div_div, div_mul_cancel₀ _ hstep.ne']
    · rw [if_neg hk]
      refine ⟨num * 10 ^ (-k).toNat, den, hden, ?_, rfl⟩
      rw [Nat.cast_mul, Nat.cast_pow, Nat.cast_ofNat, ← zpow_natCast, Int.toNat_of_nonneg (by omega),
        zpow_neg, div_mul_eq_mul_div, inv_mul_cancel_right₀ hstep.ne']
  rw [hneighbours]
  dsimp only
  have hdpos : (0 : ℚ) < d := by exact_mod_cast hd
  have hdivision : (d : ℚ) * (n / d : ℕ) + (n % d : ℕ) = n := by exact_mod_cast Nat.div_add_mod n d
  rw [← hquotient]
  generalize hz : (n / d : ℚ) = z
  have hz : z * d = n := by rw [← hz, div_mul_cancel₀ _ hdpos.ne']
  generalize hlow : n / d = low at *
  have hclose {m : ℕ} (h : |(m : ℚ) - z| * 2 ≤ 1) : |(m : ℚ) * 10 ^ k - z * 10 ^ k| * 2 ≤ 10 ^ k := by
    rw [← sub_mul, abs_mul, abs_of_pos hstep]
    nlinarith
  rcases le_or_gt (2 * (n % d)) d with hhalf | hhalf
  · refine .inl (hclose ?_)
    have hhalf : 2 * ((n % d : ℕ) : ℚ) ≤ d := by exact_mod_cast hhalf
    have hmod : (0 : ℚ) ≤ (n % d : ℕ) := Nat.cast_nonneg _
    rw [abs_sub_comm, abs_of_nonneg] <;> nlinarith
  · have hhigh : (n + d - 1) / d = low + 1 := by
      have hmod := Nat.mod_lt n hd
      have hdivision := Nat.div_add_mod n d
      have hsum : n + d - 1 = n % d - 1 + d * (low + 1) := by
        rw [mul_add, mul_one, ← hlow]
        omega
      rw [hsum, Nat.add_mul_div_left _ _ hd, Nat.div_eq_of_lt (by omega), Nat.zero_add]
    refine .inr (hclose ?_)
    have hhalf : (d : ℚ) < 2 * ((n % d : ℕ) : ℚ) := by exact_mod_cast hhalf
    have hmod : ((n % d : ℕ) : ℚ) ≤ d := by exact_mod_cast (Nat.mod_lt n hd).le
    rw [hhigh]
    push_cast
    rw [abs_of_nonneg] <;> nlinarith

theorem ten_pow_decimalPlaces_le {num den : Nat} (hnum : 0 < num) (hden : 0 < den) :
    (10 : ℚ) ^ (decimalPlaces num den - 1) ≤ num / den := by
  have hpos : (0 : ℚ) < den := by exact_mod_cast hden
  unfold decimalPlaces
  split
  · next h =>
    have hquotient : num / den ≠ 0 := (Nat.div_pos h hden).ne'
    have hlow := (ten_pow_le_of_decimalLength hquotient 0).1
    rw [zpow_zero, mul_one, add_zero] at hlow
    exact hlow.trans Nat.cast_div_le
  · next h =>
    -- the digits are counted of the greatest whole number below the inverse
    generalize hc : (den + num - 1) / num - 1 = c
    have hinverse : den ≤ (c + 1) * num := by
      have hdivision := Nat.div_add_mod (den + num - 1) num
      have hmod := Nat.mod_lt (den + num - 1) hnum
      have hceil : 0 < (den + num - 1) / num := Nat.div_pos (by omega) hnum
      have : c + 1 = (den + num - 1) / num := by omega
      rw [this, mul_comm]
      omega
    have hlength : c + 1 ≤ 10 ^ decimalLength c := decimalLength_le_iff.mp le_rfl
    have hbound : (den : ℚ) ≤ 10 ^ (decimalLength c : ℤ) * num := by
      rw [zpow_natCast]
      exact_mod_cast hinverse.trans (Nat.mul_le_mul_right num hlength)
    have hexponent : 1 - (decimalLength c : ℤ) - 1 = -decimalLength c := by ring
    rw [hexponent, zpow_neg, le_div_iff₀ hpos]
    exact (inv_mul_le_iff₀ (by positivity)).mpr hbound

/-- The search for digits ends with a decimal that reads back if there is one on some grid. -/
theorem roundDecimal_shortestFrom {magnitude num den : Nat} {places : ℤ} {n more j : Nat}
    (hn : n ≤ j) (hj : j < n + more) (h : gridDecimal? magnitude num den (places - j) ≠ none) :
    roundDecimal (shortestFrom magnitude num den places n more).1
      (shortestFrom magnitude num den places n more).2 = magnitude := by
  induction more generalizing n with
  | zero => omega
  | succ more ih =>
    rw [shortestFrom]
    split
    · next m hm => exact roundDecimal_of_gridDecimal? hm
    · next hnone =>
      refine ih ?_ (by omega)
      have : n ≠ j := by
        rintro rfl
        exact h hnone
      omega


/-- On the grid of seventeen digits a neighbour reads back. -/
theorem gridDecimal?_seventeen {magnitude num den : Nat} (hfinite : magnitude < infinityBits)
    (hnum : 0 < num) (hden : 0 < den) (hvalue : (num / den : ℚ) = value magnitude) :
    gridDecimal? magnitude num den (decimalPlaces num den - 17) ≠ none := by
  have hlow := ten_pow_decimalPlaces_le hnum hden
  have hscale : (10 : ℚ) ^ (decimalPlaces num den - 1) =
      10 ^ 16 * 10 ^ (decimalPlaces num den - 17) := by
    rw [← zpow_natCast, ← zpow_add₀ (by norm_num)]
    congr 1
    push_cast
    ring
  have hstep : (0 : ℚ) < 10 ^ (decimalPlaces num den - 17) := by positivity
  rw [hvalue, hscale] at hlow
  have hnear {m : ℕ} (h : |(m : ℚ) * 10 ^ (decimalPlaces num den - 17) - num / den| * 2 ≤
      10 ^ (decimalPlaces num den - 17)) :
      roundDecimal m (decimalPlaces num den - 17) = magnitude := by
    refine roundDecimal_eq_of_near hfinite ?_
    rw [hvalue] at h
    linarith
  exact gridDecimal?_ne_none ((near_neighbours hden _).imp hnear hnear)

/-- The shortest decimal of a magnitude reads back. -/
theorem roundDecimal_shortest {magnitude : Nat} (hpos : magnitude ≠ 0)
    (hfinite : magnitude < infinityBits) :
    roundDecimal (shortest magnitude).1 (shortest magnitude).2 = magnitude := by
  have hfound := gridDecimal?_seventeen hfinite (ratio_pos hpos) (ratio_den_pos magnitude)
    (ratio_value magnitude)
  have hreads := @roundDecimal_shortestFrom magnitude _ _ _ 1 17 17 (by decide)
    (by decide) hfound
  unfold shortest
  dsimp only
  generalize shortestFrom magnitude (ratio magnitude).1 (ratio magnitude).2
    (decimalPlaces (ratio magnitude).1 (ratio magnitude).2) 1 17 = found at *
  obtain ⟨m, k⟩ := found
  dsimp only at *
  split
  · next h =>
    obtain ⟨j, rfl⟩ := Nat.dvd_of_mod_eq_zero h
    rw [Nat.mul_div_cancel_left _ (by decide), ← hreads, mul_comm, ← Nat.cast_one (R := ℤ)]
    exact (roundDecimal_mul_pow j 1 k).symm
  · exact hreads

/-! ## Reading what is written -/

theorem readUnsigned_digits {cs : List Char} (hne : cs ≠ []) (hdigits : ∀ c ∈ cs, c.isDigit = true) :
    readUnsigned cs = some ⟨cs, [], 0⟩ := by
  have htake : cs.takeWhile Char.isDigit = cs := List.takeWhile_eq_self_iff.mpr hdigits
  have hdrop : cs.dropWhile Char.isDigit = [] := List.dropWhile_eq_nil_iff.mpr hdigits
  unfold readUnsigned
  dsimp only
  rw [htake, hdrop]
  dsimp only
  rw [if_neg fun h => hne (List.isEmpty_iff.mp h.1)]
  rfl

theorem readUnsigned_point {cs ds : List Char} (hne : cs ≠ [])
    (hcs : ∀ c ∈ cs, c.isDigit = true) (hds : ∀ c ∈ ds, c.isDigit = true) :
    readUnsigned (cs ++ '.' :: ds) = some ⟨cs, ds, 0⟩ := by
  have htake : (cs ++ '.' :: ds).takeWhile Char.isDigit = cs := by
    rw [List.takeWhile_append_of_pos hcs, List.takeWhile_cons_of_neg (by decide), List.append_nil]
  have hdrop : (cs ++ '.' :: ds).dropWhile Char.isDigit = '.' :: ds := by
    rw [List.dropWhile_append_of_pos hcs, List.dropWhile_cons_of_neg (by decide)]
  unfold readUnsigned
  dsimp only
  rw [htake, hdrop]
  show (if cs.isEmpty = true ∧ (ds.takeWhile Char.isDigit).isEmpty = true then none else
    (readExponent (ds.dropWhile Char.isDigit)).map fun e =>
      (⟨cs, ds.takeWhile Char.isDigit, e⟩ : Decimal)) = _
  rw [if_neg fun h => hne (List.isEmpty_iff.mp h.1), List.takeWhile_eq_self_iff.mpr hds,
    List.dropWhile_eq_nil_iff.mpr hds]
  rfl

/-- A decimal without a fraction is written without a point. -/
theorem positional_of_nonneg (m : Nat) {k : ℤ} (hk : 0 ≤ k) :
    positional m k = Nat.toDigits 10 m ++ List.replicate k.toNat '0' :=
  if_pos hk

/-- A decimal with a fraction is written with digits on both sides of the point. -/
theorem exists_positional_of_neg (m : Nat) {k : ℤ} (hk : k < 0) : ∃ whole fraction : List Char,
    positional m k = whole ++ '.' :: fraction ∧ whole ≠ [] ∧ fraction.length = (-k).toNat ∧
      (∀ c ∈ whole, c.isDigit = true) ∧ (∀ c ∈ fraction, c.isDigit = true) ∧
        digitsValue (whole ++ fraction) = m := by
  unfold positional
  dsimp only
  rw [if_neg (by omega)]
  generalize hplaces : (-k).toNat = places
  generalize hpadded : List.replicate (places + 1 - (Nat.toDigits 10 m).length) '0' ++
    Nat.toDigits 10 m = padded
  have hall : ∀ c ∈ padded, c.isDigit = true := by
    rw [← hpadded, List.forall_mem_append]
    exact ⟨fun c hc => List.eq_of_mem_replicate hc ▸ rfl, isDigit_of_mem_toDigits⟩
  have hlength : places + 1 ≤ padded.length := by
    rw [← hpadded, List.length_append, List.length_replicate]
    omega
  have hvalue : digitsValue padded = m := by
    rw [← hpadded, digitsValue_zeros_append, digitsValue_toDigits]
  refine ⟨_, _, rfl, ?_, ?_, fun c hc => hall c (List.mem_of_mem_take hc),
    fun c hc => hall c (List.mem_of_mem_drop hc), ?_⟩
  · rw [← List.length_pos_iff, List.length_take]
    omega
  · rw [List.length_drop]
    omega
  · rw [List.take_append_drop, hvalue]

/-- Positional notation reads as the decimal that it writes. -/
theorem exists_readUnsigned_positional (m : Nat) (k : ℤ) :
    ∃ d, readUnsigned (positional m k) = some d ∧ d.magnitude = roundDecimal m k := by
  rcases le_or_gt 0 k with hk | hk
  · rw [positional_of_nonneg m hk]
    refine ⟨_, readUnsigned_digits (by simp [Nat.toDigits_ne_nil]) ?_, ?_⟩
    · rw [List.forall_mem_append]
      exact ⟨isDigit_of_mem_toDigits, fun c hc => List.eq_of_mem_replicate hc ▸ rfl⟩
    · rw [Decimal.magnitude, List.append_nil, digitsValue_append_zeros, digitsValue_toDigits,
        roundDecimal_mul_pow]
      congr 1
      simp only [List.length_nil]
      omega
  · obtain ⟨whole, fraction, heq, hne, hlength, hwhole, hfraction, hvalue⟩ :=
      exists_positional_of_neg m hk
    refine ⟨_, heq ▸ readUnsigned_point hne hwhole hfraction, ?_⟩
    rw [Decimal.magnitude, hvalue, hlength]
    congr 1
    dsimp only
    omega

theorem readUnsigned_of_sign {c : Char} (hc : c = '-' ∨ c = '+') (cs : List Char) :
    readUnsigned (c :: cs) = none := by
  rcases hc with rfl | rfl <;> rfl

/-- A sign may stand before a decimal. -/
theorem ofText?_of_readUnsigned {cs : List Char} {d : Decimal} (hread : readUnsigned cs = some d)
    (negative : Bool) :
    ofText? (if negative then '-' :: cs else cs) = some (ofMagnitude negative d.magnitude) := by
  cases negative with
  | true =>
    rw [if_pos rfl, ofText?]
    dsimp only
    rw [hread]
  | false =>
    rw [if_neg Bool.false_ne_true]
    unfold ofText?
    split
    next negative body hsign =>
    split at hsign
    · rw [readUnsigned_of_sign (.inl rfl)] at hread
      cases hread
    · rw [readUnsigned_of_sign (.inr rfl)] at hread
      cases hread
    · obtain ⟨rfl, rfl⟩ := Prod.mk.inj hsign
      rw [hread]

/-- A number is its sign and its magnitude. -/
theorem ofMagnitude_eq (d : Double) : ofMagnitude d.isNegative d.magnitude = d := by
  have hbits := d.bits.toNat_lt
  have hsign : signBit = 2 ^ 63 := rfl
  unfold ofMagnitude isNegative magnitude
  obtain ⟨bits⟩ := d
  congr 1
  rw [← UInt64.toNat_inj, UInt64.toNat_ofNat', hsign]
  dsimp only at *
  split
  · next h =>
    have h := of_decide_eq_true h
    omega
  · next h =>
    have h := of_decide_eq_false (Bool.eq_false_iff.mpr h)
    omega

theorem ofText?_infinite (negative : Bool) :
    ofText? (if negative then '-' :: ['i', 'n', 'f'] else ['i', 'n', 'f']) =
      some (ofMagnitude negative infinityBits) := by
  cases negative <;> rfl

theorem ofText?_zero (negative : Bool) :
    ofText? (if negative then '-' :: ['0'] else ['0']) = some (ofMagnitude negative 0) := by
  cases negative <;> rfl

theorem ofText?_nan : ofText? "NaN".toList = some nan :=
  rfl

/-- A number reads back from its text, unless it is a NaN. -/
theorem ofText?_text {d : Double} (h : d.isNaN = false) : ofText? d.text.toList = some d := by
  have heq := ofMagnitude_eq d
  unfold text
  rw [if_neg (Bool.eq_false_iff.mp h)]
  dsimp only
  rw [String.toList_ofList]
  by_cases hinfinite : d.isInfinite = true
  · rw [if_pos hinfinite, ofText?_infinite, ← of_decide_eq_true hinfinite, heq]
  by_cases hzero : d.magnitude = 0
  · rw [if_neg hinfinite, if_pos hzero, ofText?_zero, ← hzero, heq]
  have hfinite : d.magnitude < infinityBits :=
    lt_of_le_of_ne (not_lt.mp (of_decide_eq_false h)) fun h => hinfinite (decide_eq_true h)
  obtain ⟨decimal, hread, hmagnitude⟩ :=
    exists_readUnsigned_positional (shortest d.magnitude).1 (shortest d.magnitude).2
  rw [roundDecimal_shortest hzero hfinite] at hmagnitude
  rw [if_neg hinfinite, if_neg hzero, ofText?_of_readUnsigned hread, hmagnitude, heq]

/-- A text with a point is a sign or none and digits on both sides of the point, and the number is that of
the decimal. -/
theorem exists_decimal_of_mem_text {d : Double} (h : '.' ∈ d.text.toList) :
    ∃ (negative : Bool) (whole fraction : List Char),
      d.text.toList = (if negative then ['-'] else []) ++ (whole ++ '.' :: fraction) ∧ whole ≠ [] ∧
        fraction ≠ [] ∧ (∀ c ∈ whole, c.isDigit = true) ∧ (∀ c ∈ fraction, c.isDigit = true) ∧
          d = ofMagnitude negative (Decimal.mk whole fraction 0).magnitude := by
  have hnan : d.isNaN = false := by
    by_contra hnan
    rw [text, if_pos (Bool.eq_true_of_not_eq_false hnan)] at h
    exact absurd h (by decide)
  have hread := ofText?_text hnan
  obtain ⟨body, hbody, htext⟩ : ∃ body, d.text.toList = (if d.isNegative then '-' :: body else body) ∧
      (body = ['i', 'n', 'f'] ∨ body = ['0'] ∨
        body = positional (shortest d.magnitude).1 (shortest d.magnitude).2) := by
    unfold text
    rw [if_neg (Bool.eq_false_iff.mp hnan)]
    dsimp only
    rw [String.toList_ofList]
    refine ⟨_, rfl, ?_⟩
    split
    · exact .inl rfl
    · split
      · exact .inr (.inl rfl)
      · exact .inr (.inr rfl)
  have hpoint : '.' ∈ body := by
    rw [hbody] at h
    split at h
    · exact (List.mem_cons.mp h).resolve_left (by decide)
    · exact h
  rcases htext with rfl | rfl | rfl
  · exact absurd hpoint (by decide)
  · exact absurd hpoint (by decide)
  · rcases le_or_gt 0 (shortest d.magnitude).2 with hk | hk
    · rw [positional_of_nonneg _ hk] at hpoint
      rcases List.mem_append.mp hpoint with hc | hc
      · exact absurd (isDigit_of_mem_toDigits _ hc) (by decide)
      · exact absurd (List.eq_of_mem_replicate hc) (by decide)
    · obtain ⟨whole, fraction, heq, hne, hlength, hwhole, hfraction, -⟩ :=
        exists_positional_of_neg (shortest d.magnitude).1 hk
      refine ⟨d.isNegative, whole, fraction, ?_, hne, ?_, hwhole, hfraction, ?_⟩
      · rw [hbody, heq]
        split <;> rfl
      · rw [← List.length_pos_iff]
        omega
      · rw [hbody, heq, ofText?_of_readUnsigned (readUnsigned_point hne hwhole hfraction)] at hread
        exact (Option.some.inj hread).symm

/-! ## Integers -/

theorem roundDecimal_whole {n : Nat} (hn : decimalLength n ≤ 400) :
    roundDecimal n 0 = roundRatio n 1 := by
  by_cases hzero : n = 0
  · rw [hzero, roundDecimal_zero, roundRatio_zero]
  · unfold roundDecimal
    rw [if_neg hzero, if_neg (by omega), if_neg (by omega), if_pos le_rfl]
    exact congrArg (roundRatio · 1) (Nat.mul_one n)

theorem toList_toString (n : ℤ) : (toString n).toList =
    if decide (n < 0) then '-' :: Nat.toDigits 10 n.natAbs else Nat.toDigits 10 n.natAbs := by
  cases n with
  | ofNat m =>
    show (Nat.repr m).toList = _
    rw [Nat.repr_eq_ofList_toDigits, String.toList_ofList]
    rfl
  | negSucc m =>
    show ("-" ++ Nat.repr (m + 1)).toList = _
    rw [String.toList_append, Nat.repr_eq_ofList_toDigits, String.toList_ofList, String.toList_ofList,
      decide_eq_true (Int.negSucc_lt_zero m)]
    rfl

/-- The digits of an integer read as the number nearest to it. -/
theorem ofText?_toString {n : ℤ} (hn : decimalLength n.natAbs ≤ 400) :
    ofText? (toString n).toList = some (ofInt n) := by
  have hdigits (m : Nat) (hm : decimalLength m ≤ 400) (negative : Bool) :
      ofText? (if negative then '-' :: Nat.toDigits 10 m else Nat.toDigits 10 m) =
        some (ofMagnitude negative (roundRatio m 1)) := by
    rw [ofText?_of_readUnsigned (readUnsigned_digits Nat.toDigits_ne_nil isDigit_of_mem_toDigits),
      Decimal.magnitude, List.append_nil, digitsValue_toDigits]
    exact congrArg (fun m => some (ofMagnitude negative m)) (roundDecimal_whole hm)
  rw [toList_toString]
  exact hdigits n.natAbs hn (decide (n < 0))

end GraphInference.Double
