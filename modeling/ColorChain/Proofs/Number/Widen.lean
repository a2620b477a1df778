import ColorChain.Proofs.Number.Narrow

/-!
# Widening

Every single-precision number is also one of double precision: widening keeps the value, and narrowing
gives the number back.
-/

namespace ColorChain.Number

open BinaryFloat

/-- A number is known from what it stands for. -/
theorem datum_injective {F : Type} [BinaryFloat F] [LawfulBinaryFloat F] {x y : F}
    (h : datum x = datum y) : x = y := by
  have hbits : toBits x = toBits y := by
    have hx := (format F).signed_rest (LawfulBinaryFloat.toBits_lt x)
    have hy := (format F).signed_rest (LawfulBinaryFloat.toBits_lt y)
    cases hd : datum x with
    | nan => rw [LawfulBinaryFloat.toBits_of_nan x hd, LawfulBinaryFloat.toBits_of_nan y (h ▸ hd)]
    | infinity negative =>
        obtain ⟨hsign, hrest⟩ := (format F).of_datum_infinity hd
        obtain ⟨hsign', hrest'⟩ := (format F).of_datum_infinity (h ▸ hd)
        rw [← hx, ← hy, ← hsign, ← hsign', hrest, hrest']
    | finite negative s e =>
        obtain ⟨hsign, -, hrest⟩ := (format F).of_datum_finite hd
        obtain ⟨hsign', -, hrest'⟩ := (format F).of_datum_finite (h ▸ hd)
        have hcount := ((format F).magnitude_grid hrest).2.2.2
        have hcount' := ((format F).magnitude_grid hrest').2.2.2
        rw [← hx, ← hy, ← hsign, ← hsign', ← hcount, ← hcount']
  rw [← LawfulBinaryFloat.ofBits_toBits x, hbits, LawfulBinaryFloat.ofBits_toBits]

/-- The pattern that counts a significand with its leading bit holds this significand. -/
theorem Format.magnitude_count (f : Format) {s : ℕ} {e : ℤ} (hle : f.leastExponent ≤ e)
    (hlower : 2 ^ f.fractionBits ≤ s) (hupper : s < 2 ^ (f.fractionBits + 1)) :
    f.magnitude ((e - f.leastExponent).toNat * 2 ^ f.fractionBits + s) = (s, e) := by
  rw [Nat.pow_succ] at hupper
  obtain ⟨fraction, rfl⟩ := Nat.exists_eq_add_of_le hlower
  have hsplit : (e - f.leastExponent).toNat * 2 ^ f.fractionBits + (2 ^ f.fractionBits + fraction)
      = fraction + 2 ^ f.fractionBits * ((e - f.leastExponent).toNat + 1) := by ring
  have hfraction : fraction < 2 ^ f.fractionBits := by omega
  simp only [magnitude, twoTo_eq, hsplit, Nat.add_mul_div_left _ _ (Nat.two_pow_pos _),
    Nat.add_mul_mod_self_left, Nat.div_eq_of_lt hfraction, Nat.mod_eq_of_lt hfraction]
  rw [if_neg (by omega)]
  refine Prod.ext rfl ?_
  push_cast
  omega

/-- Every finite pattern, zero among them, is the nearest one to its own value. -/
theorem Format.nearest_of_magnitude (f : Format) {bits s : ℕ} {e : ℤ}
    (hfinite : bits < f.infinityBits) (h : f.magnitude bits = (s, e)) :
    f.nearest (s * upScale e) (upScale (-e)) = bits := by
  rcases Nat.eq_zero_or_pos bits with rfl | hpos
  · rw [(f.significand_eq_zero_iff hfinite h).mpr rfl, Nat.zero_mul]
    rfl
  · exact f.nearest_magnitude hpos hfinite h

theorem datum_ofBits_signed_double (negative : Bool) {bits : ℕ}
    (h : bits ≤ Format.binary64.infinityBits) :
    datum (ofBits (Format.binary64.signed negative bits) : Float) =
      if bits < Format.binary64.infinityBits then
        .finite negative (Format.binary64.magnitude bits).1 (Format.binary64.magnitude bits).2
      else .infinity negative :=
  datum_ofBits_signed_of negative h toBits_ofBits_double

section

variable {y : Float32} {negative : Bool}

theorem datum_widen_eq (y : Float32) :
    datum (widen y : Float) = datum (ofBits (Format.binary64.ofDatum (datum y)) : Float) := rfl

theorem datum_widen_nan (h : datum y = .nan) : datum (widen y : Float) = .nan := by
  rw [datum_widen_eq, h]
  decide +kernel

theorem datum_widen_infinity (h : datum y = .infinity negative) :
    datum (widen y : Float) = .infinity negative := by
  rw [datum_widen_eq, h]
  exact (datum_ofBits_signed_double negative le_rfl).trans (if_neg (lt_irrefl _))

/-- Every significand of single precision can be moved up to where one of double precision begins. -/
theorem nearest_double {s : ℕ} {e : ℤ} (hs : 0 < s) (hlt : s < 2 ^ 24) (hle : -149 ≤ e)
    (hge : e ≤ 104) :
    ∃ bits s' e', bits < Format.binary64.infinityBits ∧
      Format.binary64.nearest (s * upScale e) (upScale (-e)) = bits ∧
      Format.binary64.magnitude bits = (s', e') ∧ (s' * 2 ^ e' : ℚ) = s * 2 ^ e := by
  have hlog : s.log2 < 24 := (Nat.log2_lt hs.ne').mpr hlt
  obtain ⟨k, hk⟩ : ∃ k, s.log2 + k = 52 := ⟨52 - s.log2, by omega⟩
  have hleast : Format.binary64.leastExponent = -1074 := by decide
  have hlower : 2 ^ 52 ≤ s * 2 ^ k := by
    calc 2 ^ 52 = 2 ^ s.log2 * 2 ^ k := by rw [← Nat.pow_add, hk]
      _ ≤ s * 2 ^ k := Nat.mul_le_mul_right _ (Nat.log2_self_le hs.ne')
  have hupper : s * 2 ^ k < 2 ^ 53 := by
    calc s * 2 ^ k < 2 ^ (s.log2 + 1) * 2 ^ k :=
          Nat.mul_lt_mul_of_pos_right Nat.lt_log2_self (Nat.two_pow_pos k)
      _ = 2 ^ 53 := by rw [← Nat.pow_add, Nat.add_right_comm, hk]
  have hvalue : ((s * 2 ^ k : ℕ) * 2 ^ (e - k) : ℚ) = s * 2 ^ e := by
    rw [zpow_sub₀ (by norm_num), zpow_natCast]
    push_cast
    field_simp
  have hnearest := Format.binary64.nearest_exact (s := s * 2 ^ k) (e := e - k) (by omega) (by omega)
    hupper (.inr hlower)
  refine ⟨(e - k - Format.binary64.leastExponent).toNat * 2 ^ 52 + s * 2 ^ k, s * 2 ^ k, e - k,
    ?_, ?_, Format.binary64.magnitude_count (by omega) hlower hupper, hvalue⟩
  · have hinfinity : Format.binary64.infinityBits = 2047 * 2 ^ 52 := by decide
    rw [hinfinity]
    omega
  · rw [Format.nearest_congr _ (upScale_pos _) (upScale_pos _)
      ((upScale_div s e).trans (hvalue.symm.trans (upScale_div _ _).symm)), hnearest]
    have hinfinity : Format.binary64.infinityBits = 2047 * 2 ^ 52 := by decide
    refine Nat.min_eq_right ?_
    rw [hinfinity]
    change (e - k - Format.binary64.leastExponent).toNat * 2 ^ 52 + s * 2 ^ k ≤ _
    omega

/-- A finite number of single precision keeps its sign and its value. -/
theorem datum_widen {s : ℕ} {e : ℤ} (h : datum y = .finite negative s e) :
    ∃ s' e', datum (widen y : Float) = .finite negative s' e' ∧ (s' * 2 ^ e' : ℚ) = s * 2 ^ e := by
  obtain ⟨-, hfinite, hmagnitude⟩ := Format.binary32.of_datum_finite h
  obtain ⟨hle, hlt, hgrid, hcount⟩ := Format.binary32.magnitude_grid hmagnitude
  rcases Nat.eq_zero_or_pos s with rfl | hs
  · have hzero := datum_ofBits_signed_double negative (Nat.zero_le Format.binary64.infinityBits)
    refine ⟨0, Format.binary64.leastExponent, ?_, by simp⟩
    rw [datum_widen_eq, h, Format.ofDatum, Nat.zero_mul]
    exact hzero.trans (if_pos (by decide))
  · have hleast : Format.binary32.leastExponent = -149 := by decide
    have hinfinity : Format.binary32.infinityBits = 255 * 2 ^ 23 := by decide
    rw [hleast] at hle hcount hgrid
    rw [hinfinity, ← hcount] at hfinite
    change (e - -149).toNat * 2 ^ 23 + s < 255 * 2 ^ 23 at hfinite
    change e = -149 ∨ 2 ^ 23 ≤ s at hgrid
    obtain ⟨bits, s', e', hbits, hnearest, hmagnitude', hvalue⟩ :=
      nearest_double hs hlt hle (by omega)
    refine ⟨s', e', ?_, hvalue⟩
    rw [datum_widen_eq, h, Format.ofDatum, hnearest, datum_ofBits_signed_double negative hbits.le,
      if_pos hbits, hmagnitude']

theorem isFinite_widen (y : Float32) : (widen y : Float).isFinite = y.isFinite := by
  rw [Bool.eq_iff_iff, isFinite_iff, isFinite_single_iff]
  cases h : datum y with
  | nan => simp [datum_widen_nan h]
  | infinity negative => simp [datum_widen_infinity h]
  | finite negative s e =>
    obtain ⟨s', e', hwiden, -⟩ := datum_widen h
    simp [hwiden]

/-- Narrowing gives back what was widened. -/
theorem narrow_widen (y : Float32) : (narrow (widen y : Float) : Float32) = y := by
  apply datum_injective
  cases h : datum y with
  | nan => exact datum_narrow_nan (datum_widen_nan h)
  | infinity negative => exact datum_narrow_infinity (datum_widen_infinity h)
  | finite negative s e =>
    obtain ⟨s', e', hwiden, hvalue⟩ := datum_widen h
    obtain ⟨-, hfinite, hmagnitude⟩ := Format.binary32.of_datum_finite h
    have hbits : narrowBits s' e' = toBits y % Format.binary32.signWeight := by
      rw [narrowBits, Format.nearest_congr _ (upScale_pos _) (upScale_pos _)
        ((upScale_div s' e').trans (hvalue.trans (upScale_div s e).symm))]
      exact Format.binary32.nearest_of_magnitude hfinite hmagnitude
    rw [datum_narrow hwiden, hbits, if_pos hfinite, hmagnitude]

end

end ColorChain.Number
