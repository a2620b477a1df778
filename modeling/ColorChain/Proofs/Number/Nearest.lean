import Mathlib.Algebra.Order.Field.Power
import Mathlib.Data.Int.Log
import Mathlib.Data.Rat.Floor
import Mathlib.Tactic.Positivity
import Mathlib.Tactic.FieldSimp
import Mathlib.Tactic.Ring
import ColorChain.Number.Binary

/-!
# The nearest pattern

`Format.nearest` depends on the value of a quotient alone, not on how it is written, and gives back
every finite pattern from its exact value.
-/

namespace ColorChain.Number

@[simp]
theorem twoTo_eq (n : ℕ) : twoTo n = 2 ^ n := rfl

/-- A whole power and its inverse, split over a numerator and a denominator. -/
theorem pow_toNat (b : ℕ) (hb : b ≠ 0) (e : ℤ) :
    (b : ℚ) ^ e.toNat = (b : ℚ) ^ e * (b : ℚ) ^ (-e).toNat := by
  have hbq : (b : ℚ) ≠ 0 := Nat.cast_ne_zero.mpr hb
  rw [← zpow_natCast, ← zpow_natCast, ← zpow_add₀ hbq]
  congr 1
  omega

theorem upScale_pos (e : ℤ) : 0 < upScale e := Nat.pow_pos (by decide)

theorem cast_upScale (e : ℤ) : (upScale e : ℚ) = 2 ^ e * upScale (-e) := by
  simpa [upScale] using pow_toNat 2 (by decide) e

/-- A significand scaled by a power of two, as one quotient. -/
theorem upScale_div (s : ℕ) (e : ℤ) : ((s * upScale e : ℕ) : ℚ) / upScale (-e) = s * 2 ^ e := by
  have : (upScale (-e) : ℚ) ≠ 0 := by exact_mod_cast (upScale_pos (-e)).ne'
  rw [Nat.cast_mul, cast_upScale e]
  field_simp

/-- Comparing with a power of two is comparing scaled whole numbers. -/
theorem zpow_le_div_iff {den : ℕ} (num : ℕ) (hden : 0 < den) (e : ℤ) :
    (2 : ℚ) ^ e ≤ num / den ↔ den * upScale e ≤ num * upScale (-e) := by
  have hd : (0 : ℚ) < den := by exact_mod_cast hden
  have hs : (0 : ℚ) < upScale (-e) := by exact_mod_cast upScale_pos (-e)
  rw [le_div_iff₀ hd, ← mul_le_mul_iff_left₀ hs, mul_right_comm, ← cast_upScale, mul_comm]
  exact_mod_cast Iff.rfl

theorem zpow_log2_le {n : ℕ} (hn : 0 < n) : (2 : ℚ) ^ (n.log2 : ℤ) ≤ n := by
  rw [zpow_natCast]
  exact_mod_cast Nat.log2_self_le hn.ne'

theorem lt_zpow_log2 (n : ℕ) : (n : ℚ) < 2 ^ ((n.log2 : ℤ) + 1) := by
  exact_mod_cast Nat.lt_log2_self (n := n)

/-- The search for the leading power of two finds the integer logarithm. -/
theorem floorLog2_eq_log {num den : ℕ} (hnum : 0 < num) (hden : 0 < den) :
    floorLog2 num den = Int.log 2 (num / den : ℚ) := by
  have hn : (0 : ℚ) < num := by exact_mod_cast hnum
  have hd : (0 : ℚ) < den := by exact_mod_cast hden
  have hq : (0 : ℚ) < num / den := div_pos hn hd
  have two : ((2 : ℕ) : ℚ) = 2 := rfl
  have upper : Int.log 2 (num / den : ℚ) < (num.log2 : ℤ) - den.log2 + 1 := by
    rw [← Int.lt_zpow_iff_log_lt (by decide) hq, two, div_lt_iff₀ hd]
    calc (num : ℚ) < 2 ^ ((num.log2 : ℤ) + 1) := lt_zpow_log2 num
      _ = 2 ^ ((num.log2 : ℤ) - den.log2 + 1) * 2 ^ (den.log2 : ℤ) := by
          rw [← zpow_add₀ (by norm_num)]; congr 1; ring
      _ ≤ 2 ^ ((num.log2 : ℤ) - den.log2 + 1) * den := by
          gcongr; exact zpow_log2_le hden
  have lower : (num.log2 : ℤ) - den.log2 - 1 ≤ Int.log 2 (num / den : ℚ) := by
    rw [← Int.zpow_le_iff_le_log (by decide) hq, two, le_div_iff₀ hd]
    calc (2 : ℚ) ^ ((num.log2 : ℤ) - den.log2 - 1) * den
        ≤ 2 ^ ((num.log2 : ℤ) - den.log2 - 1) * 2 ^ ((den.log2 : ℤ) + 1) := by
          gcongr; exact (lt_zpow_log2 den).le
      _ = 2 ^ (num.log2 : ℤ) := by rw [← zpow_add₀ (by norm_num)]; congr 1; ring
      _ ≤ num := zpow_log2_le hnum
  have search : den * upScale ((num.log2 : ℤ) - den.log2)
      ≤ num * upScale (-((num.log2 : ℤ) - den.log2))
      ↔ (num.log2 : ℤ) - den.log2 ≤ Int.log 2 (num / den : ℚ) := by
    rw [← zpow_le_div_iff num hden, ← two, Int.zpow_le_iff_le_log (by decide) hq]
  simp only [floorLog2, search]
  split <;> omega

/-- Rounding a quotient is rounding its value: a common factor does not matter. -/
theorem roundQuotient_mul_left {k : ℕ} (hk : 0 < k) (num den : ℕ) :
    roundQuotient (k * num) (k * den) = roundQuotient num den := by
  have scale (a b : ℕ) : 2 * (k * a) < k * b ↔ 2 * a < b := by
    rw [Nat.mul_left_comm, Nat.mul_lt_mul_left hk]
  have scale' (a b : ℕ) : k * b < 2 * (k * a) ↔ b < 2 * a := by
    rw [Nat.mul_left_comm, Nat.mul_lt_mul_left hk]
  simp only [roundQuotient, Nat.mul_div_mul_left _ _ hk, Nat.mul_mod_mul_left, scale, scale']

/-- Equal quotients round alike. -/
theorem roundQuotient_congr {num den num' den' : ℕ} (hden : 0 < den) (hden' : 0 < den')
    (h : num * den' = num' * den) : roundQuotient num den = roundQuotient num' den' := by
  rw [← roundQuotient_mul_left hden' num den, ← roundQuotient_mul_left hden num' den',
    Nat.mul_comm den' num, Nat.mul_comm den num', h, Nat.mul_comm den' den]

/-- A quotient without a rest is not rounded. -/
theorem roundQuotient_mul_right {den : ℕ} (n : ℕ) (hden : 0 < den) :
    roundQuotient (n * den) den = n := by
  simp [roundQuotient, Nat.mul_div_cancel n hden, hden]

namespace Format

/-- The nearest pattern depends on the value of the quotient alone. -/
theorem nearest_congr (f : Format) {num den num' den' : ℕ} (hden : 0 < den) (hden' : 0 < den')
    (hvalue : (num / den : ℚ) = num' / den') : f.nearest num den = f.nearest num' den' := by
  have h : num * den' = num' * den := by
    rw [div_eq_div_iff (by exact_mod_cast hden.ne') (by exact_mod_cast hden'.ne')] at hvalue
    exact_mod_cast hvalue
  rcases Nat.eq_zero_or_pos num with rfl | hnum
  · have : num' = 0 := by
      rw [Nat.zero_mul, eq_comm, Nat.mul_eq_zero] at h
      exact h.resolve_right hden.ne'
    subst this
    simp [nearest]
  have hnum' : 0 < num' := by
    have := h ▸ Nat.mul_pos hnum hden'
    exact Nat.pos_of_mul_pos_right this
  have hlog : floorLog2 num den = floorLog2 num' den' := by
    rw [floorLog2_eq_log hnum hden, floorLog2_eq_log hnum' hden', hvalue]
  simp only [nearest, hnum.ne', hnum'.ne', if_false, hlog]
  congr 2
  have hscaled := Nat.mul_pos hden (upScale_pos (max f.leastExponent
    (floorLog2 num' den' - f.fractionBits)))
  have hscaled' := Nat.mul_pos hden' (upScale_pos (max f.leastExponent
    (floorLog2 num' den' - f.fractionBits)))
  refine roundQuotient_congr hscaled hscaled' ?_
  rw [Nat.mul_mul_mul_comm, h, Nat.mul_mul_mul_comm]

/-- The value of a significand on a grid that holds it gives back the pattern that the format
counts for it. -/
theorem nearest_exact (f : Format) {s : ℕ} {e : ℤ} (hs : 0 < s) (hle : f.leastExponent ≤ e)
    (hlt : s < 2 ^ (f.fractionBits + 1))
    (hgrid : e = f.leastExponent ∨ 2 ^ f.fractionBits ≤ s) :
    f.nearest (s * upScale e) (upScale (-e))
      = min f.infinityBits ((e - f.leastExponent).toNat * 2 ^ f.fractionBits + s) := by
  have hsq : (0 : ℚ) < s := by exact_mod_cast hs
  have hpos := Nat.mul_pos hs (upScale_pos e)
  have two : ((2 : ℕ) : ℚ) = 2 := rfl
  have value := upScale_div s e
  have hvalue : (0 : ℚ) < s * 2 ^ e := by positivity
  have upper : Int.log 2 (s * 2 ^ e : ℚ) - f.fractionBits < e + 1 := by
    have : Int.log 2 (s * 2 ^ e : ℚ) < f.fractionBits + 1 + e := by
      rw [← Int.lt_zpow_iff_log_lt (by decide) hvalue, two, zpow_add₀ (by norm_num)]
      gcongr
      exact_mod_cast hlt
    omega
  have lower (h : 2 ^ f.fractionBits ≤ s) : e ≤ Int.log 2 (s * 2 ^ e : ℚ) - f.fractionBits := by
    have : f.fractionBits + e ≤ Int.log 2 (s * 2 ^ e : ℚ) := by
      rw [← Int.zpow_le_iff_le_log (by decide) hvalue, two, zpow_add₀ (by norm_num)]
      gcongr
      exact_mod_cast h
    omega
  have hexponent : max f.leastExponent
      (floorLog2 (s * upScale e) (upScale (-e)) - f.fractionBits) = e := by
    rw [floorLog2_eq_log hpos (upScale_pos _), value]
    rcases hgrid with h | h
    · omega
    · have := lower h
      omega
  simp only [nearest, hpos.ne', if_false, hexponent, twoTo_eq]
  rw [Nat.mul_assoc, Nat.mul_comm (upScale (-e)) (upScale e),
    roundQuotient_mul_right s (Nat.mul_pos (upScale_pos _) (upScale_pos _))]

theorem magnitude_zero (f : Format) : f.magnitude 0 = (0, f.leastExponent) := by
  simp [magnitude]

/-- What the significand and the exponent of a pattern satisfy: they are on the grid of the format, and
the pattern counts them. -/
theorem magnitude_grid (f : Format) {bits s : ℕ} {e : ℤ} (h : f.magnitude bits = (s, e)) :
    f.leastExponent ≤ e ∧ s < 2 ^ (f.fractionBits + 1)
      ∧ (e = f.leastExponent ∨ 2 ^ f.fractionBits ≤ s)
      ∧ (e - f.leastExponent).toNat * 2 ^ f.fractionBits + s = bits := by
  have split := Nat.div_add_mod bits (2 ^ f.fractionBits)
  have rest := Nat.mod_lt bits (Nat.two_pow_pos f.fractionBits)
  change (if bits / 2 ^ f.fractionBits = 0 then (bits % 2 ^ f.fractionBits, f.leastExponent)
    else (2 ^ f.fractionBits + bits % 2 ^ f.fractionBits,
      f.leastExponent + ((bits / 2 ^ f.fractionBits : ℕ) - 1))) = (s, e) at h
  generalize bits / 2 ^ f.fractionBits = q at *
  generalize bits % 2 ^ f.fractionBits = r at *
  have width : 2 ^ (f.fractionBits + 1) = 2 * 2 ^ f.fractionBits := by rw [Nat.pow_succ]; omega
  split at h
  · next hq =>
    obtain ⟨rfl, rfl⟩ := Prod.mk.inj h
    subst hq
    exact ⟨le_rfl, by omega, .inl rfl, by simpa using split⟩
  · next hq =>
    obtain ⟨rfl, rfl⟩ := Prod.mk.inj h
    have hexp : (f.leastExponent + ((q : ℤ) - 1) - f.leastExponent).toNat = q - 1 := by omega
    have hcount : (q - 1) * 2 ^ f.fractionBits + 2 ^ f.fractionBits = 2 ^ f.fractionBits * q := by
      rw [← Nat.succ_mul, Nat.succ_eq_add_one, Nat.sub_add_cancel (by omega), Nat.mul_comm]
    rw [hexp]
    omega

/-- What the significand and the exponent of a finite pattern satisfy. -/
theorem magnitude_spec (f : Format) {bits : ℕ} (hpos : 0 < bits) (hfinite : bits < f.infinityBits)
    {s : ℕ} {e : ℤ} (h : f.magnitude bits = (s, e)) :
    0 < s ∧ f.leastExponent ≤ e ∧ s < 2 ^ (f.fractionBits + 1)
      ∧ (e = f.leastExponent ∨ 2 ^ f.fractionBits ≤ s)
      ∧ e - f.leastExponent + 2 ≤ 2 ^ f.exponentBits
      ∧ (e - f.leastExponent).toNat * 2 ^ f.fractionBits + s = bits := by
  obtain ⟨hle, hlt, hgrid, hbits⟩ := f.magnitude_grid h
  have hs : 0 < s := by
    have := Nat.two_pow_pos f.fractionBits
    rcases hgrid with rfl | hgrid
    · simpa [← hbits] using hpos
    · omega
  have hbound : (e - f.leastExponent).toNat + 1 ≤ 2 ^ f.exponentBits - 1 := by
    have hbelow : (e - f.leastExponent).toNat * 2 ^ f.fractionBits + s
        < (2 ^ f.exponentBits - 1) * 2 ^ f.fractionBits := hbits ▸ hfinite
    exact Nat.lt_of_mul_lt_mul_right (Nat.lt_of_le_of_lt (Nat.le_add_right _ _) hbelow)
  refine ⟨hs, hle, hlt, hgrid, ?_, hbits⟩
  have : ((2 ^ f.exponentBits : ℕ) : ℤ) = 2 ^ f.exponentBits := by push_cast; rfl
  omega

/-- Only the pattern zero has no significand. -/
theorem significand_eq_zero_iff (f : Format) {bits : ℕ} (hfinite : bits < f.infinityBits) {s : ℕ}
    {e : ℤ} (h : f.magnitude bits = (s, e)) : s = 0 ↔ bits = 0 := by
  constructor
  · intro hs
    by_contra hne
    have := (f.magnitude_spec (Nat.pos_of_ne_zero hne) hfinite h).1
    omega
  · intro hzero
    rw [hzero, f.magnitude_zero] at h
    exact (Prod.mk.inj h).1.symm

/-- Every finite pattern is the nearest one to its own value. -/
theorem nearest_magnitude (f : Format) {bits : ℕ} (hpos : 0 < bits)
    (hfinite : bits < f.infinityBits) {s : ℕ} {e : ℤ} (h : f.magnitude bits = (s, e)) :
    f.nearest (s * upScale e) (upScale (-e)) = bits := by
  obtain ⟨hs, hle, hlt, hgrid, -, hbits⟩ := f.magnitude_spec hpos hfinite h
  rw [f.nearest_exact hs hle hlt hgrid, hbits]
  exact Nat.min_eq_right hfinite.le

end Format

end ColorChain.Number
