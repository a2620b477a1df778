import ColorChain.Number.Decimal
import ColorChain.Proofs.Number.Nearest

/-!
# Shortest decimals

A decimal number is read by its value alone, and the shortest decimal of a finite pattern reads back
as that pattern.
-/

namespace ColorChain.Number

theorem lt_pow_length_digits (n : ℕ) : n < 10 ^ (digits n).length :=
  (Nat.length_toDigits_le_iff (by decide) Nat.length_toDigits_pos).1 le_rfl

theorem pow_length_digits_le {n : ℕ} (hn : 0 < n) : 10 ^ ((digits n).length - 1) ≤ n := by
  rcases Nat.eq_zero_or_pos ((digits n).length - 1) with h | h
  · rw [h, Nat.pow_zero]
    exact hn
  · by_contra hlt
    have := (Nat.length_toDigits_le_iff (b := 10) (by decide) h).2 (Nat.lt_of_not_le hlt)
    simp only [digits] at h this
    omega

namespace Decimal

/-- The number that a decimal stands for. -/
def value (d : Decimal) : ℚ := d.coefficient * 10 ^ d.exponent

theorem tenScale_pos (e : ℤ) : 0 < tenScale e := Nat.pow_pos (by decide)

theorem cast_tenScale (e : ℤ) : (tenScale e : ℚ) = 10 ^ e * tenScale (-e) := by
  simpa [tenScale] using pow_toNat 10 (by decide) e

/-- A decimal number as one quotient. -/
theorem tenScale_div (d : Decimal) :
    ((d.coefficient * tenScale d.exponent : ℕ) : ℚ) / tenScale (-d.exponent) = d.value := by
  have : (tenScale (-d.exponent) : ℚ) ≠ 0 := by exact_mod_cast (tenScale_pos _).ne'
  rw [Nat.cast_mul, cast_tenScale d.exponent, value]
  field_simp

theorem value_pos_iff {d : Decimal} : 0 < d.value ↔ 0 < d.coefficient := by
  have : (0 : ℚ) < 10 ^ d.exponent := by positivity
  rw [value, mul_pos_iff_of_pos_right this, Nat.cast_pos]

theorem coefficient_eq_zero_iff {d : Decimal} : d.coefficient = 0 ↔ d.value = 0 := by
  simp [value, zpow_ne_zero]

/-- The place of the point is the integer logarithm of the value. -/
theorem point_eq_log {d : Decimal} (h : 0 < d.coefficient) :
    d.point = Int.log 10 d.value + 1 := by
  have hvalue := value_pos_iff.2 h
  have ten : ((10 : ℕ) : ℚ) = 10 := rfl
  have length : 0 < (digits d.coefficient).length := Nat.length_toDigits_pos
  have upper : Int.log 10 d.value < (digits d.coefficient).length + d.exponent := by
    rw [← Int.lt_zpow_iff_log_lt (by decide) hvalue, ten, zpow_add₀ (by norm_num), value]
    gcongr
    exact_mod_cast lt_pow_length_digits d.coefficient
  have lower : ((digits d.coefficient).length - 1 : ℕ) + d.exponent ≤ Int.log 10 d.value := by
    rw [← Int.zpow_le_iff_le_log (by decide) hvalue, ten, zpow_add₀ (by norm_num), value]
    gcongr
    exact_mod_cast pow_length_digits_le h
  simp only [point]
  omega

/-- Decimals of one value read alike. -/
theorem nearest_eq_of_value_eq (f : Format) {d d' : Decimal} (h : d.value = d'.value) :
    d.nearest f = d'.nearest f := by
  rcases Nat.eq_zero_or_pos d.coefficient with hzero | hpos
  · have hzero' : d'.coefficient = 0 := by
      rw [coefficient_eq_zero_iff, ← h, ← coefficient_eq_zero_iff, hzero]
    simp [nearest, hzero, hzero']
  have hpos' : 0 < d'.coefficient := by rw [← value_pos_iff, ← h, value_pos_iff]; exact hpos
  have hpoint : d.point = d'.point := by rw [point_eq_log hpos, point_eq_log hpos', h]
  have hnearest : f.nearest (d.coefficient * tenScale d.exponent) (tenScale (-d.exponent))
      = f.nearest (d'.coefficient * tenScale d'.exponent) (tenScale (-d'.exponent)) :=
    f.nearest_congr (tenScale_pos _) (tenScale_pos _) (by rw [tenScale_div, tenScale_div, h])
  simp only [nearest, hpos.ne', hpos'.ne', hpoint, hnearest]

theorem value_stripZeros (fuel : ℕ) (d : Decimal) : (stripZeros fuel d).value = d.value := by
  induction fuel generalizing d with
  | zero => rfl
  | succ fuel ih =>
      unfold stripZeros
      split
      · next h =>
        rw [ih]
        have hten : d.coefficient = d.coefficient / 10 * 10 := by omega
        have hcast : (d.coefficient : ℚ) = (d.coefficient / 10 : ℕ) * 10 := by exact_mod_cast hten
        simp only [value]
        rw [hcast, zpow_add_one₀ (by norm_num)]
        ring
      · rfl

@[simp]
theorem value_normal (d : Decimal) : d.normal.value = d.value := value_stripZeros _ d

theorem value_ofBinary (s : ℕ) (e : ℤ) : (ofBinary s e).value = s * 2 ^ e := by
  unfold ofBinary
  split
  · next h =>
    simp only [value, twoTo_eq, zpow_zero, mul_one]
    push_cast
    rw [← zpow_natCast, Int.toNat_of_nonneg h]
  · next h =>
    have five : ((5 : ℚ) ^ (-e).toNat) = 5 ^ (-e) := by
      rw [← zpow_natCast, Int.toNat_of_nonneg (by omega)]
    have ten : (10 : ℚ) ^ e = 2 ^ e * 5 ^ e := by rw [← mul_zpow]; norm_num
    have cancel : (5 : ℚ) ^ (-e) * 5 ^ e = 1 := by
      rw [← zpow_add₀ (by norm_num), neg_add_cancel, zpow_zero]
    simp only [value, Nat.pow_eq]
    push_cast
    rw [five, ten]
    calc (s : ℚ) * 5 ^ (-e) * (2 ^ e * 5 ^ e) = s * 2 ^ e * (5 ^ (-e) * 5 ^ e) := by ring
      _ = s * 2 ^ e := by rw [cancel, mul_one]

end Decimal

namespace Format

/-- The logarithm of a finite value lies within the limits of `Decimal.nearest`. -/
theorem log_bounds_of_magnitude (f : Format) {bits : ℕ} (hpos : 0 < bits)
    (hfinite : bits < f.infinityBits) {s : ℕ} {e : ℤ} (h : f.magnitude bits = (s, e)) :
    -((2 : ℤ) ^ f.exponentBits + f.fractionBits) ≤ Int.log 10 (s * 2 ^ e : ℚ)
      ∧ Int.log 10 (s * 2 ^ e : ℚ) < 2 ^ f.exponentBits := by
  obtain ⟨hs, hle, hlt, -, hlarge, -⟩ := f.magnitude_spec hpos hfinite h
  have hsq : (0 : ℚ) < s := by exact_mod_cast hs
  have hvalue : (0 : ℚ) < s * 2 ^ e := by positivity
  have ten : ((10 : ℕ) : ℚ) = 10 := rfl
  have hbias : (0 : ℤ) < 2 ^ (f.exponentBits - 1) := by positivity
  have hwidth : ((2 ^ f.exponentBits : ℕ) : ℤ) = 2 ^ f.exponentBits := by push_cast; rfl
  have hleast : f.leastExponent = 2 - 2 ^ (f.exponentBits - 1) - f.fractionBits := by
    simp [leastExponent]
  constructor
  · rw [← Int.zpow_le_iff_le_log (by decide) hvalue, ten]
    have hpow : (2 : ℤ) ^ (f.exponentBits - 1) ≤ 2 ^ f.exponentBits :=
      pow_le_pow_right₀ (by decide) (Nat.sub_le _ 1)
    calc (10 : ℚ) ^ (-((2 : ℤ) ^ f.exponentBits + f.fractionBits))
        ≤ 2 ^ (-((2 : ℤ) ^ f.exponentBits + f.fractionBits)) := by
          rw [← hwidth, ← Nat.cast_add, zpow_neg, zpow_neg, zpow_natCast, zpow_natCast]
          gcongr
          norm_num
      _ ≤ 2 ^ e := by
          gcongr
          · norm_num
          · omega
      _ ≤ s * 2 ^ e := le_mul_of_one_le_left (by positivity) (by exact_mod_cast hs)
  · rw [← Int.lt_zpow_iff_log_lt (by decide) hvalue, ten]
    calc (s : ℚ) * 2 ^ e < 2 ^ (f.fractionBits + 1) * 2 ^ e := by
          gcongr
          exact_mod_cast hlt
      _ = 2 ^ (((f.fractionBits + 1 : ℕ) : ℤ) + e) := by rw [zpow_add₀ (by norm_num), zpow_natCast]
      _ ≤ 2 ^ ((2 : ℤ) ^ f.exponentBits) := by
          gcongr
          · norm_num
          · push_cast
            omega
      _ ≤ 10 ^ ((2 : ℤ) ^ f.exponentBits) := by
          rw [← hwidth, zpow_natCast, zpow_natCast]
          gcongr
          norm_num

/-- A decimal that equals a finite pattern reads as that pattern. -/
theorem nearest_of_value_eq (f : Format) {bits : ℕ} (hpos : 0 < bits)
    (hfinite : bits < f.infinityBits) {s : ℕ} {e : ℤ} (h : f.magnitude bits = (s, e))
    {d : Decimal} (hvalue : d.value = s * 2 ^ e) : d.nearest f = bits := by
  obtain ⟨hlower, hupper⟩ := f.log_bounds_of_magnitude hpos hfinite h
  have hd : 0 < d.coefficient := by
    have hs : (0 : ℚ) < s := by exact_mod_cast (f.magnitude_spec hpos hfinite h).1
    rw [← Decimal.value_pos_iff, hvalue]
    positivity
  have hpoint := Decimal.point_eq_log hd
  rw [hvalue] at hpoint
  have hnearest : f.nearest (d.coefficient * Decimal.tenScale d.exponent)
      (Decimal.tenScale (-d.exponent)) = bits := by
    rw [← f.nearest_magnitude hpos hfinite h]
    refine f.nearest_congr (Decimal.tenScale_pos _) (upScale_pos _) ?_
    rw [Decimal.tenScale_div, upScale_div, hvalue]
  have hwidth : ((twoTo f.exponentBits : ℕ) : ℤ) = 2 ^ f.exponentBits := by
    rw [twoTo_eq]
    push_cast
    rfl
  have hfirst : ¬ ((twoTo f.exponentBits : ℕ) : ℤ) < d.point := by omega
  have hsecond : ¬ d.point < -(((twoTo f.exponentBits : ℕ) : ℤ) + f.fractionBits) := by omega
  simp only [Decimal.nearest, hd.ne', hfirst, hsecond, if_false, hnearest]

theorem nearest_neighbour? (f : Format) {tie : Tie} {bits num den : ℕ} {e : ℤ} {d : Decimal}
    (h : f.neighbour? tie bits num den e = some d) : d.nearest f = bits := by
  simp only [neighbour?] at h
  split at h
  · next below above =>
    cases h
    split
    · exact eq_of_beq above
    · exact eq_of_beq below
  · next below _ => cases h; exact eq_of_beq below
  · next _ above => cases h; exact eq_of_beq above
  · cases h

/-- The shortest decimal of a finite pattern reads back as the pattern. -/
theorem nearest_shortest (f : Format) (tie : Tie) {bits : ℕ} (hpos : 0 < bits)
    (hfinite : bits < f.infinityBits) : (f.shortest tie bits).nearest f = bits := by
  rcases h : f.magnitude bits with ⟨s, e⟩
  simp only [shortest, h]
  rw [Decimal.nearest_eq_of_value_eq f (Decimal.value_normal _)]
  rcases hfound : (List.range 17).findSome? _ with - | d
  · exact f.nearest_of_value_eq hpos hfinite h (Decimal.value_ofBinary s e)
  · obtain ⟨n, -, hn⟩ := List.exists_of_findSome?_eq_some hfound
    exact f.nearest_neighbour? hn

end Format

end ColorChain.Number
