import ColorChain.Proofs.Number.Grid
import ColorChain.Proofs.Number.Unpacked

/-!
# Division

The language divides by cutting the quotient off, keeping two bits that tell how its rest compares
with the half, and shifting to the exponent of the result before it rounds. What it arrives at is the
number nearest to the exact quotient.
-/

namespace ColorChain.Number

open Float.Model.UnpackedFloat

/-! ## The residual bits -/

/-- The exact meaning of a significand with its two residual bits: the quotient `num / den`, cut off
at the whole number, and how its rest compares with the half. -/
structure Represents (em : ExtendedMantissa) (num den : ℕ) : Prop where
  mantissa : em.mantissa = num / den
  roundBit : em.roundBit = true ↔ den ≤ 2 * (num % den)
  stickyBit : em.stickyBit = true ↔ num % den ≠ 0 ∧ 2 * (num % den) ≠ den

theorem represents_accuracyOfFraction {num den : ℕ} (hden : 0 < den) :
    Represents (.ofMantissaAndAccuracy (num / den) (accuracyOfFraction (num % den) den)) num den := by
  unfold accuracyOfFraction
  split_ifs with h
  · constructor <;> simp [ExtendedMantissa.ofMantissaAndAccuracy, h]
    omega
  · rcases Nat.lt_trichotomy (2 * (num % den)) den with hlt | heq | hgt
    · rw [Nat.compare_eq_lt.mpr hlt]
      constructor <;> simp [ExtendedMantissa.ofMantissaAndAccuracy] <;> omega
    · rw [Nat.compare_eq_eq.mpr heq]
      constructor <;> simp [ExtendedMantissa.ofMantissaAndAccuracy] <;> omega
    · rw [Nat.compare_eq_gt.mpr hgt]
      constructor <;> simp [ExtendedMantissa.ofMantissaAndAccuracy] <;> omega

namespace Represents

variable {em : ExtendedMantissa} {num den : ℕ}

/-- Rounding to the nearest even whole number. -/
theorem roundedMantissa (h : Represents em num den) :
    em.roundedMantissa = roundQuotient num den := by
  obtain ⟨hmantissa, hround, hsticky⟩ := h
  obtain ⟨m, round, sticky⟩ := em
  subst hmantissa
  simp only [ExtendedMantissa.roundedMantissa, roundQuotient]
  cases round <;> cases sticky <;>
    simp only [ExtendedMantissa.accuracy, Accuracy.roundToNearestEven] <;>
    simp at hround hsticky <;> split_ifs <;> omega

/-- A shift by one halves the quotient. -/
theorem shiftRightOne (h : Represents em num den) (hden : 0 < den) :
    Represents em.shiftRightOne num (den * 2) := by
  obtain ⟨hmantissa, hround, hsticky⟩ := h
  have hrest := Nat.mod_lt num hden
  have hmod : num % (den * 2) = num % den + den * (num / den % 2) := Nat.mod_mul
  constructor
  · rw [ExtendedMantissa.shiftRightOne, hmantissa, Nat.div_div_eq_div_mul]
  · simp only [ExtendedMantissa.shiftRightOne, hmantissa, hmod]
    rcases Nat.mod_two_eq_zero_or_one (num / den) with h | h <;> simp [h] <;> omega
  · simp only [ExtendedMantissa.shiftRightOne, Bool.or_eq_true, hround, hsticky, hmod]
    rcases Nat.mod_two_eq_zero_or_one (num / den) with h | h <;> simp [h] <;> omega

theorem shiftRight (h : Represents em num den) (hden : 0 < den) (n : ℕ) :
    Represents (em >>> n) num (den * 2 ^ n) := by
  change Represents (n.repeat ExtendedMantissa.shiftRightOne em) num (den * 2 ^ n)
  induction n with
  | zero => simpa [Nat.repeat] using h
  | succ n ih =>
      rw [Nat.repeat, Nat.pow_succ, ← Nat.mul_assoc]
      exact ih.shiftRightOne (Nat.mul_pos hden (Nat.two_pow_pos n))

end Represents

/-! ## Rounding -/

/-- The leading power of two of a scaled quotient that is not below one. -/
theorem log_div_mul {num den : ℕ} (hden : 0 < den) (h : 0 < num / den) (t : ℤ) :
    Int.log 2 (num / den * 2 ^ t : ℚ) = (num / den).log2 + t := by
  have hd : (0 : ℚ) < den := by exact_mod_cast hden
  have hfloor : ((num / den : ℕ) : ℚ) ≤ num / den := Nat.cast_div_le
  have hfloor' : (num / den : ℚ) < (num / den : ℕ) + 1 := by
    rw [div_lt_iff₀ hd]
    exact_mod_cast Nat.lt_mul_of_div_lt (Nat.lt_succ_self _) hden
  have hlog := zpow_log2_le h
  have hlog' : ((num / den : ℕ) : ℚ) + 1 ≤ 2 ^ (((num / den).log2 : ℤ) + 1) := by
    exact_mod_cast Nat.lt_log2_self (n := num / den)
  have hpos : (0 : ℚ) < num / den := (Nat.cast_pos.mpr h).trans_le hfloor
  apply log_eq_of_bounds (by positivity)
  · rw [zpow_add₀ (by norm_num)]
    gcongr
    exact hlog.trans hfloor
  · rw [add_right_comm, zpow_add₀ (by norm_num)]
    gcongr
    exact hfloor'.trans_le hlog'

section

variable {spec : Float.Model.Format}

theorem targetExponent_eq (n : ℤ) : spec.targetExponent n
    = max (Format.ofModel spec).leastExponent (n - 1 - spec.mantissaBitsWithoutImplicit) := by
  have hmin : spec.minExponent = (Format.ofModel spec).leastExponent := by
    simp only [Float.Model.Format.minExponent, Float.Model.Format.mantissaBits, Format.leastExponent,
      Format.exponentBits_ofModel, Format.fractionBits_ofModel, twoTo_eq]
    push_cast
    ring
  rw [Float.Model.Format.targetExponent, hmin, Float.Model.Format.mantissaBits, max_comm]
  push_cast
  congr 1
  ring

/-- The exponent that a cut-off quotient is shifted to is that of the exact one. -/
theorem targetExponent_quotient {num den : ℕ} (hnum : 0 < num) (hden : 0 < den) {t g : ℤ}
    (hg : max (Format.ofModel spec).leastExponent
      (Int.log 2 (num / den * 2 ^ t : ℚ) - spec.mantissaBitsWithoutImplicit) = g) (ht : t ≤ g) :
    spec.targetExponent (Float.Model.totalExponent (num / den) t) = g := by
  rw [targetExponent_eq, Float.Model.totalExponent, ← hg]
  rcases Nat.eq_zero_or_pos (num / den) with hzero | hpos
  · -- A quotient below one is below the least unit already.
    have hn : (0 : ℚ) < num := by exact_mod_cast hnum
    have hd : (0 : ℚ) < den := by exact_mod_cast hden
    have hlt : (num / den * 2 ^ t : ℚ) < 2 ^ t := by
      have : (num / den : ℚ) < 1 := by
        rw [div_lt_one hd]
        exact_mod_cast (Nat.div_eq_zero_iff_lt hden).mp hzero
      calc (num / den * 2 ^ t : ℚ) < 1 * 2 ^ t := by gcongr
        _ = 2 ^ t := one_mul _
    have hlog := (Int.lt_zpow_iff_log_lt (b := 2) (by decide) (by positivity)).mp hlt
    rw [hzero, Nat.log2_zero]
    omega
  · rw [log_div_mul hden hpos]
    congr 1
    omega

/-- Packing a significand on the grid of the format, zero among them. -/
theorem toNat_pack_dite (hwidth : 1 < spec.exponentBits) (sign : Sign) {m : ℕ} {e : ℤ}
    (hle : (Format.ofModel spec).leastExponent ≤ e)
    (hm : m < 2 ^ (spec.mantissaBitsWithoutImplicit + 1))
    (hgrid : e = (Format.ofModel spec).leastExponent ∨ 2 ^ spec.mantissaBitsWithoutImplicit ≤ m) :
    (pack spec (if h : m = 0 then .zero sign else .finite sign m e (Nat.pos_of_ne_zero h))).toNat
      = (Format.ofModel spec).signed (isNegative sign) (min (Format.ofModel spec).infinityBits
        ((e - (Format.ofModel spec).leastExponent).toNat * 2 ^ spec.mantissaBitsWithoutImplicit
          + m)) := by
  split_ifs with h
  · have hpow := Nat.two_pow_pos spec.mantissaBitsWithoutImplicit
    rw [h, hgrid.resolve_right (by omega), sub_self, Int.toNat_zero, Nat.zero_mul, Nat.zero_add,
      Nat.min_eq_right (Nat.zero_le _)]
    exact toNat_packedZero sign
  · exact toNat_pack_finite hwidth sign (Nat.pos_of_ne_zero h) hle hm hgrid

/-- A significand that was rounded up to the next power of two is halved. -/
theorem shiftToTargetExponent_rounded {r : ℕ} {g : ℤ}
    (hle : (Format.ofModel spec).leastExponent ≤ g)
    (hr : r ≤ 2 ^ (spec.mantissaBitsWithoutImplicit + 1)) :
    if r = 2 ^ (spec.mantissaBitsWithoutImplicit + 1) then
      (shiftToTargetExponent spec r g .exact).1.mantissa = 2 ^ spec.mantissaBitsWithoutImplicit
        ∧ (shiftToTargetExponent spec r g .exact).2 = g + 1
    else (shiftToTargetExponent spec r g .exact).1.mantissa = r
      ∧ (shiftToTargetExponent spec r g .exact).2 = g := by
  simp only [shiftToTargetExponent, shiftToExponent, targetExponent_eq, Float.Model.totalExponent]
  split_ifs with h
  · have hshift : (max (Format.ofModel spec).leastExponent
        (r.log2 + 1 + g - 1 - spec.mantissaBitsWithoutImplicit) - g).toNat = 1 := by
      rw [h, Nat.log2_two_pow]
      omega
    rw [hshift]
    refine ⟨?_, rfl⟩
    change r / 2 = _
    rw [h, Nat.pow_succ, Nat.mul_div_cancel _ (by decide)]
  · have hlog : r.log2 < spec.mantissaBitsWithoutImplicit + 1 := by
      rcases Nat.eq_zero_or_pos r with rfl | hpos
      · rw [Nat.log2_zero]
        omega
      · exact (Nat.log2_lt hpos.ne').mpr (by omega)
    have hshift : (max (Format.ofModel spec).leastExponent
        (r.log2 + 1 + g - 1 - spec.mantissaBitsWithoutImplicit) - g).toNat = 0 := by
      omega
    rw [hshift]
    exact ⟨rfl, Int.add_zero g⟩

/-- Once a significand is rounded, at most one more shift is due, which loses nothing. -/
theorem toNat_pack_rounded (hwidth : 1 < spec.exponentBits) (sign : Sign) {r : ℕ} {g : ℤ}
    (hle : (Format.ofModel spec).leastExponent ≤ g)
    (hr : r ≤ 2 ^ (spec.mantissaBitsWithoutImplicit + 1))
    (hgrid : g = (Format.ofModel spec).leastExponent ∨ 2 ^ spec.mantissaBitsWithoutImplicit ≤ r) :
    (pack spec (if h : (shiftToTargetExponent spec r g .exact).1.mantissa = 0 then .zero sign
      else .finite sign (shiftToTargetExponent spec r g .exact).1.mantissa
        (shiftToTargetExponent spec r g .exact).2 (Nat.pos_of_ne_zero h))).toNat
      = (Format.ofModel spec).signed (isNegative sign) (min (Format.ofModel spec).infinityBits
        ((g - (Format.ofModel spec).leastExponent).toNat * 2 ^ spec.mantissaBitsWithoutImplicit
          + r)) := by
  have hshift := shiftToTargetExponent_rounded hle hr
  generalize (shiftToTargetExponent spec r g .exact).1.mantissa = m at *
  generalize (shiftToTargetExponent spec r g .exact).2 = e at *
  have hpow := Nat.two_pow_pos spec.mantissaBitsWithoutImplicit
  have hdouble : 2 ^ (spec.mantissaBitsWithoutImplicit + 1)
      = 2 * 2 ^ spec.mantissaBitsWithoutImplicit := by ring
  split_ifs at hshift with h
  · obtain ⟨rfl, rfl⟩ := hshift
    have hnext : (g + 1 - (Format.ofModel spec).leastExponent).toNat
        = (g - (Format.ofModel spec).leastExponent).toNat + 1 := by omega
    rw [toNat_pack_dite hwidth sign (by omega) (by omega) (.inr le_rfl), hnext, Nat.succ_mul, h,
      hdouble]
    congr 2
    omega
  · obtain ⟨rfl, rfl⟩ := hshift
    exact toNat_pack_dite hwidth sign hle (by omega) hgrid

/-- A quotient that is given by its whole part and the accuracy of its rest is rounded to the nearest
number. -/
theorem toNat_pack_roundWithAccuracy (hwidth : 1 < spec.exponentBits) (sign : Sign) {num den : ℕ}
    (hnum : 0 < num) (hden : 0 < den) {t : ℤ}
    (ht : t ≤ max (Format.ofModel spec).leastExponent
      (Int.log 2 (num / den * 2 ^ t : ℚ) - spec.mantissaBitsWithoutImplicit)) :
    (pack spec (roundWithAccuracy spec sign (num / den) t
      (accuracyOfFraction (num % den) den))).toNat
      = (Format.ofModel spec).signed (isNegative sign)
        ((Format.ofModel spec).nearest (num * upScale t) (den * upScale (-t))) := by
  generalize hg : max (Format.ofModel spec).leastExponent
    (Int.log 2 (num / den * 2 ^ t : ℚ) - spec.mantissaBitsWithoutImplicit) = g at ht
  have hn : (0 : ℚ) < num := by exact_mod_cast hnum
  have hd : (0 : ℚ) < den := by exact_mod_cast hden
  have hq : (0 : ℚ) < num / den * 2 ^ t := by positivity
  -- The first shift reaches the units of the result, so the two bits round the exact quotient.
  have htarget : shiftToTargetExponent spec (num / den) t (accuracyOfFraction (num % den) den)
      = (ExtendedMantissa.ofMantissaAndAccuracy (num / den) (accuracyOfFraction (num % den) den)
        >>> (g - t).toNat, g) := by
    rw [shiftToTargetExponent, targetExponent_quotient hnum hden hg ht, shiftToExponent]
    refine Prod.ext rfl ?_
    change t + ((g - t).toNat : ℤ) = g
    omega
  have hround := ((@represents_accuracyOfFraction num den hden).shiftRight hden
    (g - t).toNat).roundedMantissa
  have hpow : ((2 ^ (g - t).toNat : ℕ) : ℚ) = 2 ^ g / 2 ^ t := by
    rw [← zpow_sub₀ (by norm_num), Nat.cast_pow, ← zpow_natCast, Int.toNat_of_nonneg (by omega)]
    norm_num
  have hden' := Nat.mul_pos hden (Nat.two_pow_pos (g - t).toNat)
  have hscaled : (num / (den * 2 ^ (g - t).toNat : ℕ) : ℚ) = num / den * 2 ^ t / 2 ^ g := by
    rw [Nat.cast_mul, hpow]
    field_simp
  obtain ⟨hbelow, habove⟩ := (Format.ofModel spec).units_of_log hq hg
  obtain ⟨hr, hgrid⟩ := (Format.ofModel spec).roundQuotient_bounds hden' hscaled hbelow habove
  simp only [roundWithAccuracy, htarget, hround]
  rw [toNat_pack_rounded hwidth sign (by omega) hr hgrid]
  have hvalue := scaled_mul_div num den t
  have hsame : roundQuotient (num * upScale t * upScale (-g)) (den * upScale (-t) * upScale g)
      = roundQuotient num (den * 2 ^ (g - t).toNat) := by
    refine roundQuotient_congr_div (Nat.mul_pos (Nat.mul_pos hden (upScale_pos _)) (upScale_pos _))
      hden' ?_
    rw [scaled_div, hvalue, hscaled]
  have hpos := Nat.mul_pos hnum (upScale_pos t)
  simp only [Format.nearest, hpos.ne', if_false,
    floorLog2_eq_log hpos (Nat.mul_pos hden (upScale_pos (-t))), hvalue,
    Format.fractionBits_ofModel, hg, hsame, twoTo_eq]

/-! ## The quotient of two numbers -/

/-- The exponent that a quotient is cut off at is not above that of the result. -/
theorem targetExponent_le {m₁ m₂ : ℕ} (h₁ : 0 < m₁) (h₂ : 0 < m₂) (e₁ e₂ : ℤ) :
    spec.targetExponent (Float.Model.totalExponent m₁ e₁ - Float.Model.totalExponent m₂ e₂)
      ≤ max (Format.ofModel spec).leastExponent
        (Int.log 2 (m₁ / m₂ * 2 ^ (e₁ - e₂) : ℚ) - spec.mantissaBitsWithoutImplicit) := by
  have hm₂ : (0 : ℚ) < m₂ := by exact_mod_cast h₂
  have hm₁ : (0 : ℚ) < m₁ := by exact_mod_cast h₁
  have hle : (2 : ℚ) ^ ((m₁.log2 : ℤ) - (m₂.log2 + 1) + (e₁ - e₂)) ≤ m₁ / m₂ * 2 ^ (e₁ - e₂) := by
    rw [zpow_add₀ (by norm_num), zpow_sub₀ (by norm_num)]
    gcongr
    · exact zpow_log2_le h₁
    · exact (lt_zpow_log2 m₂).le
  have hlog := (Int.zpow_le_iff_le_log (b := 2) (by decide) (by positivity)).mp hle
  rw [targetExponent_eq, Float.Model.totalExponent, Float.Model.totalExponent]
  omega

/-- The language divides two numbers by taking the number nearest to the exact quotient. -/
theorem toNat_pack_div (hwidth : 1 < spec.exponentBits) (sign₁ sign₂ : Sign) {m₁ m₂ : ℕ} (e₁ e₂ : ℤ)
    (h₁ : 0 < m₁) (h₂ : 0 < m₂) {num den : ℕ} (hden : 0 < den)
    (hvalue : (num / den : ℚ) = m₁ / m₂ * 2 ^ (e₁ - e₂)) :
    (pack spec (div spec (.finite sign₁ m₁ e₁ h₁) (.finite sign₂ m₂ e₂ h₂))).toNat
      = (Format.ofModel spec).signed (isNegative (sign₁ / sign₂))
        ((Format.ofModel spec).nearest num den) := by
  have hm₂ : (0 : ℚ) < m₂ := by exact_mod_cast h₂
  have htarget := @targetExponent_le spec _ _ h₁ h₂ e₁ e₂
  simp only [div, divCore, Nat.shiftLeft_eq]
  generalize spec.targetExponent (Float.Model.totalExponent m₁ e₁ - Float.Model.totalExponent m₂ e₂)
    = t at *
  have hshift : ((m₁ * 2 ^ (e₁ - e₂ - min (e₁ - e₂) t).toNat : ℕ) : ℚ) / m₂
      * 2 ^ min (e₁ - e₂) t = m₁ / m₂ * 2 ^ (e₁ - e₂) := by
    have hpow : ((2 ^ (e₁ - e₂ - min (e₁ - e₂) t).toNat : ℕ) : ℚ)
        = 2 ^ (e₁ - e₂) / 2 ^ min (e₁ - e₂) t := by
      rw [← zpow_sub₀ (by norm_num), Nat.cast_pow, ← zpow_natCast, Int.toNat_of_nonneg (by omega)]
      norm_num
    rw [Nat.cast_mul, hpow]
    field_simp
  rw [toNat_pack_roundWithAccuracy hwidth _ (Nat.mul_pos h₁ (Nat.two_pow_pos _)) h₂
    (by rw [hshift]; omega)]
  congr 1
  refine (Format.ofModel spec).nearest_congr (Nat.mul_pos h₂ (upScale_pos _)) hden ?_
  rw [scaled_mul_div, hshift, hvalue]

end

end ColorChain.Number
