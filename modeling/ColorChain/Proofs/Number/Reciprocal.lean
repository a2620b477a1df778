import ColorChain.Proofs.Number.Narrow
import ColorChain.Proofs.Number.Quotient

/-!
# Reciprocals

A reciprocal is rounded twice, to double and then to single precision. Both roundings are told as
bounds on patterns, so the numbers whose reciprocal survives them are found by comparing patterns.
-/

namespace ColorChain.Number

open BinaryFloat Float.Model.UnpackedFloat

/-- The pattern of the reciprocal of `s * 2 ^ e` in double precision, up to its sign. -/
def reciprocalBits (s : ℕ) (e : ℤ) : ℕ := Format.binary64.nearest (upScale (-e)) (s * upScale e)

theorem reciprocalBits_le_iff {s : ℕ} {e : ℤ} (hs : 0 < s) {bits m : ℕ} {k : ℤ}
    (hbits : bits < Format.binary64.infinityBits) (h : Format.binary64.magnitude bits = (m, k)) :
    reciprocalBits s e ≤ bits ↔ (1 / (s * 2 ^ e) : ℚ) < (m + 1 / 2) * 2 ^ k ∨
      (1 / (s * 2 ^ e) : ℚ) = (m + 1 / 2) * 2 ^ k ∧ m % 2 = 0 := by
  have hvalue : (upScale (-e) : ℚ) / (s * upScale e : ℕ) = 1 / (s * 2 ^ e) := by
    rw [← upScale_div, one_div_div]
  rw [reciprocalBits, Format.nearest_le_iff _ (Nat.mul_pos hs (upScale_pos _)) hbits h, hvalue]

variable {x : Float} {negative : Bool} {s : ℕ} {e : ℤ}

theorem datum_reciprocal_eq (x : Float) :
    datum ((One.one : Float) / x) = Format.binary64.datum (pack .binary64 (div .binary64
      (.finite .positive (2 ^ 52) (-52) (by decide)) x.toModel.unpack)).toNat := rfl

theorem datum_reciprocal_nan (h : datum x = .nan) : datum ((One.one : Float) / x) = .nan := by
  rw [datum_eq_unpacked] at h
  rw [datum_reciprocal_eq, Format.of_unpacked_nan h]
  decide +kernel

/-- The reciprocal of an infinite number is zero. -/
theorem datum_reciprocal_infinity (h : datum x = .infinity negative) :
    ∃ negative e, datum ((One.one : Float) / x) = .finite negative 0 e := by
  rw [datum_eq_unpacked] at h
  obtain ⟨sign, hu, -⟩ := Format.of_unpacked_infinity h
  refine ⟨isNegative (.positive / sign), Format.binary64.leastExponent, ?_⟩
  rw [datum_reciprocal_eq, hu]
  change Format.binary64.datum (packedZero .binary64 (.positive / sign)).toNat = _
  rw [toNat_packedZero]
  exact (Format.binary64.datum_signed _ (Nat.zero_le _)).trans (if_pos (by decide))

/-- The reciprocal of zero is infinite. -/
theorem datum_reciprocal_zero (h : datum x = .finite negative 0 e) :
    ∃ negative, datum ((One.one : Float) / x) = .infinity negative := by
  rw [datum_eq_unpacked] at h
  rcases Format.of_unpacked_finite h with ⟨sign, hu, -, -⟩ | ⟨sign, hs, -, -⟩
  · refine ⟨isNegative (.positive / sign), ?_⟩
    rw [datum_reciprocal_eq, hu]
    change Format.binary64.datum (packedInfinity .binary64 (.positive / sign)).toNat = _
    rw [toNat_packedInfinity]
    exact (Format.binary64.datum_signed _ le_rfl).trans (if_neg (lt_irrefl _))
  · exact absurd hs (lt_irrefl _)

/-- The reciprocal of another number is the number nearest to the exact one. -/
theorem datum_reciprocal (h : datum x = .finite negative s e) (hs : 0 < s) :
    ∃ negative, datum ((One.one : Float) / x) =
      if reciprocalBits s e < Format.binary64.infinityBits then
        .finite negative (Format.binary64.magnitude (reciprocalBits s e)).1
          (Format.binary64.magnitude (reciprocalBits s e)).2
      else .infinity negative := by
  rw [datum_eq_unpacked] at h
  rcases Format.of_unpacked_finite h with ⟨sign, -, -, rfl⟩ | ⟨sign, hs, hu, -⟩
  · exact absurd hs (lt_irrefl _)
  · refine ⟨isNegative (.positive / sign), ?_⟩
    have hvalue : (upScale (-e) : ℚ) / (s * upScale e : ℕ) = (2 ^ 52 : ℕ) / s * 2 ^ (-52 - e) := by
      rw [← one_div_div, upScale_div, zpow_sub₀ (by norm_num)]
      push_cast
      field_simp
      norm_num
    rw [datum_reciprocal_eq, hu,
      toNat_pack_div (by decide) _ _ _ _ _ hs (Nat.mul_pos hs (upScale_pos _)) hvalue]
    exact Format.binary64.datum_signed _ (Format.nearest_le_infinityBits _ _ _)

/-! ## Thresholds -/

/-- The value of a number of double precision is that of a pattern. -/
theorem size_of_datum (h : datum x = .finite negative s e) :
    ∃ bits, (s * 2 ^ e : ℚ) = Format.binary64.size bits := by
  obtain ⟨-, -, hmagnitude⟩ := Format.binary64.of_datum_finite h
  exact ⟨_, (Format.size_eq _ hmagnitude).symm⟩

/-- A bound on the reciprocal that holds from some pattern on holds for the patterns above it only. -/
theorem reciprocal_iff_lt {P : ℚ → Prop} (hP : ∀ q q', q ≤ q' → P q' → P q) {f : Format} {k bits : ℕ}
    (hk : 0 < f.size k) (hbits : 0 < f.size bits) (hbelow : ¬P (1 / f.size k))
    (habove : P (1 / f.size (k + 1))) : P (1 / f.size bits) ↔ k < bits := by
  constructor
  · intro h
    by_contra hle
    have hsize := f.size_strictMono.monotone (Nat.not_lt.mp hle)
    exact hbelow (hP _ _ (one_div_le_one_div_of_le hbits hsize) h)
  · intro hlt
    have hsize := f.size_strictMono.monotone (Nat.succ_le_of_lt hlt)
    have hnext := hk.trans (f.size_strictMono (Nat.lt_succ_self k))
    exact hP _ _ (one_div_le_one_div_of_le hnext hsize) habove

/-- The reciprocals that round to a pattern or below are those up to some quotient. -/
theorem below_of_le {m : ℕ} {c q q' : ℚ} (hle : q ≤ q') (h : q' < c ∨ q' = c ∧ m % 2 = 0) :
    q < c ∨ q = c ∧ m % 2 = 0 := by
  rcases hle.lt_or_eq with hlt | rfl
  · exact .inl (hlt.trans_le (h.elim le_of_lt fun h => h.1.le))
  · exact h

/-- The reciprocal stays below what becomes infinite in single precision. -/
theorem reciprocalBits_lt_iff (h : datum x = .finite negative s e) (hs : 0 < s) :
    reciprocalBits s e < (75 + 1074) * 2 ^ 52 + (2 ^ 25 - 1) * 2 ^ 28 ↔
      2 ^ (-128 : ℤ) * (1 + 2 ^ (-25 : ℤ) + 2 ^ (-50 : ℤ)) < (s * 2 ^ e : ℚ) := by
  have hmagnitude : Format.binary64.magnitude ((75 + 1074) * 2 ^ 52 + (2 ^ 25 - 1) * 2 ^ 28 - 1)
      = ((2 ^ 25 - 1) * 2 ^ 28 - 1, 75) := by decide
  have hsize : Format.binary64.size (895 * 2 ^ 52 + 2 ^ 27 + 4)
      = (2 ^ 52 + 2 ^ 27 + 4 : ℕ) * 2 ^ (-180 : ℤ) := Format.size_eq _ (by decide)
  have hnext : Format.binary64.size (895 * 2 ^ 52 + 2 ^ 27 + 4 + 1)
      = (2 ^ 52 + 2 ^ 27 + 5 : ℕ) * 2 ^ (-180 : ℤ) := Format.size_eq _ (by decide)
  obtain ⟨bits, hbits⟩ := size_of_datum h
  have hpos : (0 : ℚ) < Format.binary64.size bits := by
    rw [← hbits]
    positivity
  have hbound : 2 ^ (-128 : ℤ) * (1 + 2 ^ (-25 : ℤ) + 2 ^ (-50 : ℤ))
      = Format.binary64.size (895 * 2 ^ 52 + 2 ^ 27 + 4) := by
    rw [hsize]
    norm_num
  rw [← Nat.le_sub_one_iff_lt (by decide), reciprocalBits_le_iff hs (by decide) hmagnitude, hbits,
    hbound, Format.binary64.size_strictMono.lt_iff_lt]
  refine reciprocal_iff_lt (fun _ _ => below_of_le) ?_ hpos ?_ ?_
  · rw [hsize]
    positivity
  · rw [hsize]
    norm_num
  · rw [hnext]
    norm_num

/-- The reciprocal is above what becomes zero in single precision. -/
theorem lt_reciprocalBits_iff (h : datum x = .finite negative s e) (hs : 0 < s) :
    873 * 2 ^ 52 < reciprocalBits s e ↔ (s * 2 ^ e : ℚ) < 2 ^ 150 := by
  have hmagnitude : Format.binary64.magnitude (873 * 2 ^ 52) = (2 ^ 52, -202) := by decide
  have hsize : Format.binary64.size (1173 * 2 ^ 52 - 1) = (2 ^ 53 - 1 : ℕ) * 2 ^ (97 : ℤ) :=
    Format.size_eq _ (by decide)
  have hnext : Format.binary64.size (1173 * 2 ^ 52 - 1 + 1) = (2 ^ 52 : ℕ) * 2 ^ (98 : ℤ) :=
    Format.size_eq _ (by decide)
  obtain ⟨bits, hbits⟩ := size_of_datum h
  have hpos : (0 : ℚ) < Format.binary64.size bits := by
    rw [← hbits]
    positivity
  have hbound : (2 : ℚ) ^ 150 = Format.binary64.size (1173 * 2 ^ 52 - 1 + 1) := by
    rw [hnext]
    norm_num
  rw [← not_le, reciprocalBits_le_iff hs (by decide) hmagnitude, hbits, hbound,
    Format.binary64.size_strictMono.lt_iff_lt, Nat.lt_succ_iff, ← not_lt, not_iff_not]
  refine reciprocal_iff_lt (fun _ _ => below_of_le) ?_ hpos ?_ ?_
  · rw [hsize]
    positivity
  · rw [hsize]
    norm_num
  · rw [hnext]
    norm_num

theorem narrow_reciprocal_iff_of_pos (h : datum x = .finite negative s e) (hs : 0 < s) :
    (narrow ((One.one : Float) / x) : Float32).isFinite = true ∧
        ((narrow ((One.one : Float) / x) : Float32) == 0) = false ↔
      2 ^ (-128 : ℤ) * (1 + 2 ^ (-25 : ℤ) + 2 ^ (-50 : ℤ)) < (s * 2 ^ e : ℚ) ∧
        (s * 2 ^ e : ℚ) < 2 ^ 150 := by
  obtain ⟨negative', hdatum⟩ := datum_reciprocal h hs
  rw [← reciprocalBits_lt_iff h hs, ← lt_reciprocalBits_iff h hs]
  split_ifs at hdatum with hlt
  · have hvalue : |value ((One.one : Float) / x)| = Format.binary64.size (reciprocalBits s e) :=
      abs_value hdatum
    have hupper : (2 : ℚ) ^ 128 - 2 ^ 103
        = Format.binary64.size ((75 + 1074) * 2 ^ 52 + (2 ^ 25 - 1) * 2 ^ 28) := by
      rw [@Format.size_eq _ _ ((2 ^ 25 - 1) * 2 ^ 28) 75 (by decide)]
      norm_num
    have hlower : (2 : ℚ) ^ (-150 : ℤ) = Format.binary64.size (873 * 2 ^ 52) := by
      rw [@Format.size_eq _ _ (2 ^ 52) (-202) (by decide)]
      norm_num
    have hfinite := isFinite_iff.mpr ⟨_, _, _, hdatum⟩
    rw [isFinite_narrow_iff, ← Bool.not_eq_true, narrow_beq_zero_iff, and_iff_right hfinite,
      and_iff_right hfinite, hvalue, hupper, hlower, not_le,
      Format.binary64.size_strictMono.lt_iff_lt, Format.binary64.size_strictMono.lt_iff_lt]
  · -- An infinite reciprocal stays infinite, and its pattern is above every finite one.
    refine iff_of_false ?_ ?_
    · rw [isFinite_narrow_iff]
      exact fun hy => not_isFinite_of_infinity hdatum hy.1.1
    · rintro ⟨hbelow, -⟩
      exact hlt (hbelow.trans (by decide))

/-- The numbers whose reciprocal is finite and not zero in single precision. -/
theorem narrow_reciprocal_iff (x : Float) :
    (narrow ((One.one : Float) / x) : Float32).isFinite = true ∧
        ((narrow ((One.one : Float) / x) : Float32) == 0) = false ↔
      x.isFinite = true ∧ 2 ^ (-128 : ℤ) * (1 + 2 ^ (-25 : ℤ) + 2 ^ (-50 : ℤ)) < |value x| ∧
        |value x| < 2 ^ 150 := by
  cases h : datum x with
  | nan =>
    refine iff_of_false ?_ fun hx => not_isFinite_of_nan h hx.1
    rw [isFinite_narrow_iff]
    exact fun hy => not_isFinite_of_nan (datum_reciprocal_nan h) hy.1.1
  | infinity negative =>
    obtain ⟨negative, e, hzero⟩ := datum_reciprocal_infinity h
    refine iff_of_false ?_ fun hx => not_isFinite_of_infinity h hx.1
    rw [← Bool.not_eq_true, narrow_beq_zero_iff, isFinite_iff, abs_value hzero]
    rintro ⟨-, hy⟩
    refine hy ⟨⟨_, _, _, hzero⟩, ?_⟩
    rw [Nat.cast_zero, zero_mul]
    positivity
  | finite negative s e =>
    rw [abs_value h, and_iff_right (isFinite_iff.mpr ⟨_, _, _, h⟩)]
    rcases Nat.eq_zero_or_pos s with rfl | hs
    · obtain ⟨negative, hinfinity⟩ := datum_reciprocal_zero h
      refine iff_of_false ?_ ?_
      · rw [isFinite_narrow_iff]
        exact fun hy => not_isFinite_of_infinity hinfinity hy.1.1
      · rintro ⟨hlower, -⟩
        have : (0 : ℚ) < 2 ^ (-128 : ℤ) * (1 + 2 ^ (-25 : ℤ) + 2 ^ (-50 : ℤ)) := by positivity
        rw [Nat.cast_zero, zero_mul] at hlower
        linarith
    · exact narrow_reciprocal_iff_of_pos h hs

end ColorChain.Number
