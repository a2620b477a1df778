import ColorChain.Proofs.Number.Nearest

/-!
# Which quotients round to which pattern

Rounding to the nearest pattern goes over at the middle between two neighbouring values. Told as a
bound on the nearest pattern, this settles every question of the kind "from which quotient on is the
result zero, or infinite" by one computation.
-/

namespace ColorChain.Number

/-- Rounding a quotient stays at `n` or below up to the middle between `n` and the next whole number,
and at the middle if `n` is even. -/
theorem roundQuotient_le_iff {num den : ℕ} (n : ℕ) (hden : 0 < den) :
    roundQuotient num den ≤ n ↔
      2 * num < (2 * n + 1) * den ∨ 2 * num = (2 * n + 1) * den ∧ n % 2 = 0 := by
  have hsplit := Nat.div_add_mod num den
  have hrest := Nat.mod_lt num hden
  have hmiddle : (2 * n + 1) * den = 2 * (den * n) + den := by ring
  rw [hmiddle]
  unfold roundQuotient
  generalize num / den = q at *
  generalize num % den = r at *
  subst hsplit
  rcases Nat.lt_trichotomy q n with h | rfl | h
  · have hmul := Nat.mul_le_mul_left den h
    rw [Nat.mul_succ] at hmul
    refine iff_of_true ?_ (by omega)
    dsimp only
    split_ifs <;> omega
  · dsimp only
    split_ifs <;> omega
  · have hmul := Nat.mul_le_mul_left den h
    rw [Nat.mul_succ] at hmul
    refine iff_of_false ?_ (by omega)
    dsimp only
    split_ifs <;> omega

/-- The same, told from the value of the quotient. -/
theorem roundQuotient_le_iff_div {num den : ℕ} (n : ℕ) (hden : 0 < den) :
    roundQuotient num den ≤ n ↔
      (num / den : ℚ) < n + 1 / 2 ∨ (num / den : ℚ) = n + 1 / 2 ∧ n % 2 = 0 := by
  have hd : (0 : ℚ) < den := by exact_mod_cast hden
  have hlt : (num / den : ℚ) < n + 1 / 2 ↔ 2 * num < (2 * n + 1) * den := by
    rw [div_lt_iff₀ hd, ← @Nat.cast_lt ℚ]
    push_cast
    constructor <;> intro h <;> linarith
  have heq : (num / den : ℚ) = n + 1 / 2 ↔ 2 * num = (2 * n + 1) * den := by
    rw [div_eq_iff hd.ne', ← Nat.cast_inj (R := ℚ)]
    push_cast
    constructor <;> intro h <;> linarith
  rw [roundQuotient_le_iff n hden, hlt, heq]

theorem le_roundQuotient {num den n : ℕ} (hden : 0 < den) (h : (n : ℚ) ≤ num / den) :
    n ≤ roundQuotient num den := by
  by_contra hlt
  obtain ⟨k, rfl⟩ := Nat.exists_eq_add_of_lt (Nat.not_le.mp hlt)
  have hk := (roundQuotient_le_iff_div (roundQuotient num den + k) hden).mp (Nat.le_add_right _ _)
  push_cast at h hk
  rcases hk with hk | ⟨hk, -⟩ <;> linarith

/-- A quotient counted in units of `2 ^ e`. -/
theorem scaled_div (num den : ℕ) (e : ℤ) :
    ((num * upScale (-e) : ℕ) : ℚ) / ((den * upScale e : ℕ) : ℚ) = num / den / 2 ^ e := by
  have hscale : (upScale (-e) : ℚ) ≠ 0 := by exact_mod_cast (upScale_pos (-e)).ne'
  push_cast
  rw [cast_upScale e, div_div, ← mul_assoc, mul_div_mul_right _ _ hscale]

theorem scaled_mul_div (num den : ℕ) (e : ℤ) :
    ((num * upScale e : ℕ) : ℚ) / (den * upScale (-e) : ℕ) = num / den * 2 ^ e := by
  have := scaled_div num den (-e)
  rwa [neg_neg, zpow_neg, div_inv_eq_mul] at this

/-- Equal quotients round alike. -/
theorem roundQuotient_congr_div {num den num' den' : ℕ} (hden : 0 < den) (hden' : 0 < den')
    (h : (num / den : ℚ) = num' / den') : roundQuotient num den = roundQuotient num' den' := by
  rw [div_eq_div_iff (by exact_mod_cast hden.ne') (by exact_mod_cast hden'.ne')] at h
  exact roundQuotient_congr hden hden' (by exact_mod_cast h)

theorem log_eq_of_bounds {q : ℚ} {k : ℤ} (hq : 0 < q) (hle : 2 ^ k ≤ q) (hlt : q < 2 ^ (k + 1)) :
    Int.log 2 q = k := by
  have two : ((2 : ℕ) : ℚ) = 2 := rfl
  have hlower := (Int.zpow_le_iff_le_log (b := 2) (by decide) hq).mp (by rwa [two])
  have hupper := (Int.lt_zpow_iff_log_lt (b := 2) (by decide) hq).mp (by rwa [two])
  omega

theorem zpow_log_le {q : ℚ} (hq : 0 < q) : 2 ^ Int.log 2 q ≤ q ∧ q < 2 ^ (Int.log 2 q + 1) :=
  ⟨(Int.zpow_le_iff_le_log (b := 2) (by decide) hq).mpr le_rfl,
    (Int.lt_zpow_iff_log_lt (b := 2) (by decide) hq).mpr (Int.lt_succ _)⟩

/-- The values with one exponent end where those with a greater exponent begin. -/
theorem zpow_units_le (w : ℕ) {g e : ℤ} (h : g < e) :
    (2 : ℚ) ^ (w + 1) * 2 ^ g ≤ 2 ^ w * 2 ^ e := by
  calc (2 : ℚ) ^ (w + 1) * 2 ^ g = 2 ^ w * 2 ^ (g + 1) := by
        rw [zpow_add_one₀ (by norm_num), pow_succ]
        ring
    _ ≤ 2 ^ w * 2 ^ e := by
        gcongr
        · norm_num
        · omega

/-- So do the patterns, counted from the least exponent on. -/
theorem count_units_le (w : ℕ) {least g e : ℤ} (hleast : least ≤ g) (h : g < e) :
    (g - least).toNat * 2 ^ w + 2 ^ w ≤ (e - least).toNat * 2 ^ w := by
  have hcount : (g - least).toNat + 1 ≤ (e - least).toNat := by omega
  have hmul := Nat.mul_le_mul_right (2 ^ w) hcount
  rwa [Nat.succ_mul] at hmul

namespace Format

variable (f : Format)

/-- The units that a quotient is rounded in: it has no more of them than a significand can count, and,
unless they are the least ones, no fewer than a significand has at least. -/
theorem units_of_log {q : ℚ} (hq : 0 < q) {g : ℤ}
    (hg : max f.leastExponent (Int.log 2 q - f.fractionBits) = g) :
    q < 2 ^ (f.fractionBits + 1) * 2 ^ g
      ∧ (g = f.leastExponent ∨ 2 ^ f.fractionBits * 2 ^ g ≤ q) := by
  obtain ⟨hlog, hlog'⟩ := zpow_log_le hq
  simp only [← zpow_natCast (2 : ℚ), ← zpow_add₀ (two_ne_zero' ℚ)]
  constructor
  · refine hlog'.trans_le (zpow_le_zpow_right₀ (by norm_num) ?_)
    push_cast
    omega
  · by_cases hleast : g = f.leastExponent
    · exact .inl hleast
    · refine .inr (le_trans (zpow_le_zpow_right₀ (by norm_num) ?_) hlog)
      omega

/-- What a quotient in these units rounds to is a significand, or the next power of two. -/
theorem roundQuotient_bounds {num den : ℕ} (hden : 0 < den) {q : ℚ} {g : ℤ}
    (hscaled : (num / den : ℚ) = q / 2 ^ g) (hbelow : q < 2 ^ (f.fractionBits + 1) * 2 ^ g)
    (habove : g = f.leastExponent ∨ 2 ^ f.fractionBits * 2 ^ g ≤ q) :
    roundQuotient num den ≤ 2 ^ (f.fractionBits + 1)
      ∧ (g = f.leastExponent ∨ 2 ^ f.fractionBits ≤ roundQuotient num den) := by
  have hunit : (0 : ℚ) < 2 ^ g := by positivity
  constructor
  · rw [roundQuotient_le_iff_div _ hden, hscaled, div_lt_iff₀ hunit]
    left
    push_cast
    linarith
  · refine habove.imp_right fun h => le_roundQuotient hden ?_
    rw [hscaled, le_div_iff₀ hunit]
    exact_mod_cast h

/-- The nearest pattern stays at `bits` or below up to the middle between the values of `bits` and of
the next pattern. -/
theorem nearest_le_iff {num den bits s : ℕ} {e : ℤ} (hden : 0 < den) (hbits : bits < f.infinityBits)
    (h : f.magnitude bits = (s, e)) :
    f.nearest num den ≤ bits ↔ (num / den : ℚ) < (s + 1 / 2) * 2 ^ e ∨
      (num / den : ℚ) = (s + 1 / 2) * 2 ^ e ∧ s % 2 = 0 := by
  obtain ⟨hleast, hs, hgrid, hcount⟩ := f.magnitude_grid h
  have hd : (0 : ℚ) < den := by exact_mod_cast hden
  rcases Nat.eq_zero_or_pos num with rfl | hnum
  · have hzero : ((0 : ℕ) / den : ℚ) < (s + 1 / 2) * 2 ^ e := by
      rw [Nat.cast_zero, zero_div]
      positivity
    exact iff_of_true (by simp [nearest]) (.inl hzero)
  have hn : (0 : ℚ) < num := by exact_mod_cast hnum
  have hunit (n : ℤ) : (0 : ℚ) < 2 ^ n := by positivity
  have width : 2 ^ (f.fractionBits + 1) = 2 * 2 ^ f.fractionBits := by ring
  simp only [nearest, hnum.ne', if_false, floorLog2_eq_log hnum hden, twoTo_eq, min_le_iff,
    Nat.not_le.mpr hbits, false_or]
  generalize hg : max f.leastExponent (Int.log 2 (num / den : ℚ) - f.fractionBits) = g
  obtain ⟨hbelow, habove⟩ := f.units_of_log (div_pos hn hd) hg
  have hscaled := scaled_div num den g
  have hden' := Nat.mul_pos hden (upScale_pos g)
  obtain ⟨hround, hround'⟩ := f.roundQuotient_bounds hden' hscaled hbelow habove
  generalize num * upScale (-g) = num' at *
  generalize den * upScale g = den' at *
  generalize (num / den : ℚ) = q at *
  rcases Int.lt_trichotomy g e with hlt | rfl | hgt
  · -- The quotient is below the significands of `bits`, and so is what it rounds to.
    have hs' : 2 ^ f.fractionBits ≤ s := hgrid.resolve_left (by omega)
    have hstep := count_units_le f.fractionBits (show f.leastExponent ≤ g by omega) hlt
    refine iff_of_true (by omega) (.inl ?_)
    calc q < 2 ^ (f.fractionBits + 1) * 2 ^ g := hbelow
      _ ≤ 2 ^ f.fractionBits * 2 ^ e := zpow_units_le _ hlt
      _ ≤ s * 2 ^ e := by
        gcongr
        exact_mod_cast hs'
      _ ≤ (s + 1 / 2) * 2 ^ e := by linarith [hunit e]
  · have hcancel : (g - f.leastExponent).toNat * 2 ^ f.fractionBits + roundQuotient num' den' ≤ bits
        ↔ roundQuotient num' den' ≤ s := by omega
    rw [hcancel, roundQuotient_le_iff_div s hden', hscaled, div_lt_iff₀ (hunit g),
      div_eq_iff (hunit g).ne']
  · -- The quotient is above the next pattern, and so is what it rounds to.
    have hstep := count_units_le f.fractionBits hleast hgt
    have hmiddle : (s + 1 / 2) * 2 ^ e < q := by
      calc (s + 1 / 2 : ℚ) * 2 ^ e < 2 ^ (f.fractionBits + 1) * 2 ^ e := by
            gcongr
            have : (s : ℚ) + 1 ≤ 2 ^ (f.fractionBits + 1) := by exact_mod_cast hs
            linarith
        _ ≤ 2 ^ f.fractionBits * 2 ^ g := zpow_units_le _ hgt
        _ ≤ q := habove.resolve_left (by omega)
    refine iff_of_false (by omega) ?_
    rintro (h | ⟨h, -⟩) <;> linarith

/-- The value of a pattern, its sign left out. -/
def size (bits : ℕ) : ℚ := (f.magnitude bits).1 * 2 ^ (f.magnitude bits).2

theorem size_eq {bits s : ℕ} {e : ℤ} (h : f.magnitude bits = (s, e)) : f.size bits = s * 2 ^ e := by
  rw [size, h]

/-- Greater patterns have greater values. -/
theorem size_strictMono : StrictMono f.size := by
  intro bits bits' hlt
  rcases h : f.magnitude bits with ⟨s, e⟩
  rcases h' : f.magnitude bits' with ⟨s', e'⟩
  obtain ⟨hleast, hs, hgrid, hcount⟩ := f.magnitude_grid h
  obtain ⟨hleast', hs', hgrid', hcount'⟩ := f.magnitude_grid h'
  simp only [size, h, h']
  have width : 2 ^ (f.fractionBits + 1) = 2 * 2 ^ f.fractionBits := by ring
  rcases Int.lt_trichotomy e e' with he | rfl | he
  · have hnext : 2 ^ f.fractionBits ≤ s' := hgrid'.resolve_left (by omega)
    calc (s * 2 ^ e : ℚ) < 2 ^ (f.fractionBits + 1) * 2 ^ e := by
          gcongr
          exact_mod_cast hs
      _ ≤ 2 ^ f.fractionBits * 2 ^ e' := zpow_units_le _ he
      _ ≤ s' * 2 ^ e' := by
          gcongr
          exact_mod_cast hnext
  · gcongr
    omega
  · -- A greater exponent would make the first pattern the greater one.
    have hstep := count_units_le f.fractionBits hleast' he
    have := hgrid.resolve_left (by omega)
    omega

end Format

end ColorChain.Number
