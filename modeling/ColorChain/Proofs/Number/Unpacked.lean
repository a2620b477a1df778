import Mathlib
import ColorChain.Proofs.Number.Bits
import ColorChain.Proofs.Number.Nearest

/-!
# Unpacked numbers

The language unpacks the pattern of a number, computes on what it holds, and packs the outcome. An
unpacked number stands for the same datum as its pattern, and packing counts patterns as
`Format.nearest` does.
-/

namespace ColorChain.Number

open BinaryFloat Float.Model.UnpackedFloat

/-- The format with the fields of one of the language's own formats. -/
def Format.ofModel (spec : Float.Model.Format) : Format :=
  ⟨spec.mantissaBitsWithoutImplicit, spec.exponentBits⟩

@[simp]
theorem Format.exponentBits_ofModel (spec : Float.Model.Format) :
    (ofModel spec).exponentBits = spec.exponentBits := rfl

@[simp]
theorem Format.fractionBits_ofModel (spec : Float.Model.Format) :
    (ofModel spec).fractionBits = spec.mantissaBitsWithoutImplicit := rfl

/-- The sign as a flag. -/
def isNegative : Sign → Bool
  | .negative => true
  | .positive => false

/-- What an unpacked number stands for in a format. -/
def Format.unpacked (f : Format) : Float.Model.UnpackedFloat → Datum
  | .notANumber => .nan
  | .infinity sign => .infinity (isNegative sign)
  | .zero sign => .finite (isNegative sign) 0 f.leastExponent
  | .finite sign significand exponent _ => .finite (isNegative sign) significand exponent

/-- What an unpacked number holds that stands for a finite value: zero, or this value. -/
theorem Format.of_unpacked_finite {f : Format} {u : Float.Model.UnpackedFloat} {negative : Bool}
    {s : ℕ} {e : ℤ} (h : f.unpacked u = .finite negative s e) :
    (∃ sign, u = .zero sign ∧ isNegative sign = negative ∧ s = 0) ∨
      ∃ sign hs, u = .finite sign s e hs ∧ isNegative sign = negative := by
  cases u with
  | notANumber => cases h
  | infinity sign => cases h
  | zero sign =>
    obtain ⟨hsign, hs, -⟩ := Datum.finite.inj h
    exact .inl ⟨sign, rfl, hsign, hs.symm⟩
  | finite sign s' e' hs' =>
    obtain ⟨hsign, rfl, rfl⟩ := Datum.finite.inj h
    exact .inr ⟨sign, hs', rfl, hsign⟩

theorem Format.of_unpacked_infinity {f : Format} {u : Float.Model.UnpackedFloat} {negative : Bool}
    (h : f.unpacked u = .infinity negative) :
    ∃ sign, u = .infinity sign ∧ isNegative sign = negative := by
  cases u with
  | infinity sign => exact ⟨sign, rfl, Datum.infinity.inj h⟩
  | _ => cases h

theorem Format.of_unpacked_nan {f : Format} {u : Float.Model.UnpackedFloat}
    (h : f.unpacked u = .nan) : u = .notANumber := by
  cases u with
  | notANumber => rfl
  | _ => cases h

theorem Format.isFinite_iff_unpacked {f : Format} {u : Float.Model.UnpackedFloat} :
    u.isFinite = true ↔ ∃ negative s e, f.unpacked u = .finite negative s e := by
  cases u <;> simp [isFinite, Format.unpacked]

/-- What a pattern stands for, told from its fields. -/
theorem Format.datum_eq_of_fields (f : Format) {bits exponent fraction : ℕ}
    (hexponent : exponent < 2 ^ f.exponentBits) (hfraction : fraction < 2 ^ f.fractionBits)
    (hbits : bits % f.signWeight = exponent * 2 ^ f.fractionBits + fraction) :
    f.datum bits =
      if exponent = 2 ^ f.exponentBits - 1 then
        if fraction = 0 then .infinity (bits / f.signWeight % 2 == 1) else .nan
      else if exponent = 0 then
        .finite (bits / f.signWeight % 2 == 1) fraction f.leastExponent
      else
        .finite (bits / f.signWeight % 2 == 1) (2 ^ f.fractionBits + fraction)
          (f.leastExponent + (exponent - 1)) := by
  have hquotient : (exponent * 2 ^ f.fractionBits + fraction) / 2 ^ f.fractionBits = exponent := by
    rw [Nat.mul_comm, Nat.mul_add_div (Nat.two_pow_pos _), Nat.div_eq_of_lt hfraction, Nat.add_zero]
  have hrest : (exponent * 2 ^ f.fractionBits + fraction) % 2 ^ f.fractionBits = fraction := by
    rw [Nat.mul_comm, Nat.mul_add_mod, Nat.mod_eq_of_lt hfraction]
  simp only [datum, magnitude, infinityBits, hbits, twoTo_eq, hquotient, hrest]
  rcases Nat.lt_or_ge exponent (2 ^ f.exponentBits - 1) with hlt | hge
  · have hbelow := Nat.mul_le_mul_right (2 ^ f.fractionBits) hlt
    rw [Nat.succ_mul] at hbelow
    rw [if_pos (by omega), if_neg hlt.ne]
    split <;> rfl
  · obtain rfl : exponent = 2 ^ f.exponentBits - 1 := by omega
    rw [if_neg (by omega), if_pos rfl]
    simp

section

variable {spec : Float.Model.Format} (b : BitVec spec.numBits)

theorem toNat_unpackExponent : (unpackExponent b).toNat
    = b.toNat / 2 ^ spec.mantissaBitsWithoutImplicit % 2 ^ spec.exponentBits := by
  rw [unpackExponent_def, BitVec.extractLsb'_toNat, Nat.shiftRight_eq_div_pow]

theorem toNat_unpackMantissa : (unpackMantissa b).toNat
    = b.toNat % 2 ^ spec.mantissaBitsWithoutImplicit := by
  rw [unpackMantissa_def, BitVec.extractLsb'_toNat, Nat.shiftRight_zero]

theorem toNat_unpackSign : (unpackSign b).toNat
    = b.toNat / 2 ^ (spec.mantissaBitsWithoutImplicit + spec.exponentBits) % 2 := by
  rw [unpackSign_def, BitVec.extractLsb'_toNat, Nat.shiftRight_eq_div_pow]

theorem isNegative_ofBitVec (v : BitVec 1) : isNegative (Sign.ofBitVec v) = (v.toNat == 1) := by
  revert v; decide

/-- The bits of a pattern below the sign. -/
theorem mod_signWeight : b.toNat % (Format.ofModel spec).signWeight
    = (unpackExponent b).toNat * 2 ^ spec.mantissaBitsWithoutImplicit
      + (unpackMantissa b).toNat := by
  rw [toNat_unpackExponent, toNat_unpackMantissa]
  simp only [Format.signWeight, Format.ofModel, twoTo_eq]
  rw [Nat.pow_add, Nat.mod_mul, Nat.mul_comm, Nat.add_comm]

theorem leastExponent_ofModel : (Format.ofModel spec).leastExponent
    = 1 - (spec.exponentBias + spec.mantissaBitsWithoutImplicit : ℤ) := by
  have := Nat.two_pow_pos (spec.exponentBits - 1)
  simp only [Format.leastExponent, Format.ofModel, twoTo_eq, Float.Model.Format.exponentBias]
  push_cast [Nat.cast_sub this]
  ring

/-- A pattern stands for what it unpacks to. -/
theorem datum_toNat : (Format.ofModel spec).datum b.toNat
    = (Format.ofModel spec).unpacked (unpack spec b) := by
  have hsign : (b.toNat / (Format.ofModel spec).signWeight % 2 == 1)
      = isNegative (Sign.ofBitVec (unpackSign b)) := by
    rw [isNegative_ofBitVec, toNat_unpackSign]
    rfl
  have happend : (1#1 ++ unpackMantissa b).toNat
      = 2 ^ spec.mantissaBitsWithoutImplicit + (unpackMantissa b).toNat := by
    rw [BitVec.toNat_append, ← Nat.shiftLeft_add_eq_or_of_lt (unpackMantissa b).isLt,
      Nat.shiftLeft_eq]
    simp
  have hfull : (unpackExponent b).toNat = 2 ^ spec.exponentBits - 1 ↔ unpackExponent b = -1#_ := by
    rw [← BitVec.toNat_inj, BitVec.neg_one_eq_allOnes, BitVec.toNat_allOnes]
  have hzero : (unpackExponent b).toNat = 0 ↔ unpackExponent b = 0#_ := by
    rw [← BitVec.toNat_inj, BitVec.toNat_zero]
  have hfraction : (unpackMantissa b).toNat = 0 ↔ unpackMantissa b = 0#_ := by
    rw [← BitVec.toNat_inj, BitVec.toNat_zero]
  rw [(Format.ofModel spec).datum_eq_of_fields (unpackExponent b).isLt (unpackMantissa b).isLt
    (mod_signWeight b), hsign]
  simp only [Format.exponentBits_ofModel, Format.fractionBits_ofModel, hfull, hzero, hfraction]
  by_cases h : unpackExponent b = -1#_
  · by_cases hm : unpackMantissa b = 0#_
    · simp only [unpack, h, hm, if_true, Format.unpacked]
    · simp only [unpack, h, hm, if_true, if_false, Format.unpacked]
  by_cases he : unpackExponent b = 0#_
  · rw [he] at h
    by_cases hm : unpackMantissa b = 0#_
    · simp only [unpack, h, he, hm, if_true, if_false, dite_true, Format.unpacked, BitVec.toNat_zero]
    · simp only [unpack, h, he, hm, if_true, if_false, dite_false, Format.unpacked,
        leastExponent_ofModel, BitVec.toNat_zero, Datum.finite.injEq, true_and]
      omega
  · simp only [unpack, h, he, if_false, Format.unpacked, leastExponent_ofModel, happend,
      Datum.finite.injEq, true_and]
    omega

end

/-! ## Packing -/

section Packing

variable {spec : Float.Model.Format}

/-- A pattern made of its fields. -/
theorem toNat_packComponents (sign : Sign) (exponent : BitVec spec.exponentBits)
    (mantissa : BitVec spec.mantissaBitsWithoutImplicit) :
    (packComponents spec sign exponent mantissa).toNat = (Format.ofModel spec).signed
      (isNegative sign) (exponent.toNat * 2 ^ spec.mantissaBitsWithoutImplicit + mantissa.toNat) := by
  have hsign : sign.toBitVec.toNat = if isNegative sign then 1 else 0 := by
    cases sign <;> rfl
  rw [packComponents, BitVec.toNat_append, ← Nat.shiftLeft_add_eq_or_of_lt mantissa.isLt,
    BitVec.toNat_append, ← Nat.shiftLeft_add_eq_or_of_lt exponent.isLt, hsign]
  simp only [Nat.shiftLeft_eq, Format.signed, Format.signWeight, twoTo_eq, Nat.pow_add,
    Format.exponentBits_ofModel, Format.fractionBits_ofModel]
  split <;> ring

theorem toNat_packedInfinity (sign : Sign) : (packedInfinity spec sign).toNat
    = (Format.ofModel spec).signed (isNegative sign) (Format.ofModel spec).infinityBits := by
  rw [packedInfinity, toNat_packComponents, BitVec.neg_one_eq_allOnes, BitVec.toNat_allOnes]
  rfl

/-- Packing counts the pattern of a significand that is on the grid of the format. -/
theorem toNat_pack_finite (hwidth : 1 < spec.exponentBits) (sign : Sign) {s : ℕ} {e : ℤ} (hs : 0 < s)
    (hle : (Format.ofModel spec).leastExponent ≤ e)
    (hlt : s < 2 ^ (spec.mantissaBitsWithoutImplicit + 1))
    (hgrid : e = (Format.ofModel spec).leastExponent ∨ 2 ^ spec.mantissaBitsWithoutImplicit ≤ s) :
    (pack spec (.finite sign s e hs)).toNat = (Format.ofModel spec).signed (isNegative sign)
      (min (Format.ofModel spec).infinityBits
        ((e - (Format.ofModel spec).leastExponent).toNat * 2 ^ spec.mantissaBitsWithoutImplicit
          + s)) := by
  have hbiased : (e + spec.exponentBias + spec.mantissaBitsWithoutImplicit).toNat
      = (e - (Format.ofModel spec).leastExponent).toNat + 1 := by
    rw [leastExponent_ofModel] at *
    omega
  have hinfinity : (Format.ofModel spec).infinityBits
      = (2 ^ spec.exponentBits - 1) * 2 ^ spec.mantissaBitsWithoutImplicit := rfl
  have hfour : 4 ≤ 2 ^ spec.exponentBits := Nat.pow_le_pow_right (by decide : 0 < 2) hwidth
  have hnormal : s.log2 + 1 = spec.mantissaBits ↔ 2 ^ spec.mantissaBitsWithoutImplicit ≤ s := by
    have hlower := Nat.le_log2 hs.ne' (k := spec.mantissaBitsWithoutImplicit)
    have hupper := (Nat.log2_lt hs.ne').mpr hlt
    rw [← hlower, Float.Model.Format.mantissaBits]
    omega
  have hdouble : 2 ^ (spec.mantissaBitsWithoutImplicit + 1)
      = 2 * 2 ^ spec.mantissaBitsWithoutImplicit := by ring
  simp only [pack, hbiased, hnormal]
  generalize hk : (e - (Format.ofModel spec).leastExponent).toNat = k at *
  split_ifs with hoverflow hbig
  · -- The exponent does not fit, and the count reaches the pattern of infinity.
    have hs' : 2 ^ spec.mantissaBitsWithoutImplicit ≤ s := hgrid.resolve_left fun he => by
      rw [he, sub_self] at hk
      have : k = 0 := hk.symm
      omega
    have hreach := Nat.mul_le_mul_right (2 ^ spec.mantissaBitsWithoutImplicit)
      (show 2 ^ spec.exponentBits - 1 ≤ k + 1 by omega)
    rw [Nat.succ_mul] at hreach
    rw [toNat_packedInfinity, Nat.min_eq_left (by omega)]
  · have hbelow := Nat.mul_le_mul_right (2 ^ spec.mantissaBitsWithoutImplicit)
      (show k + 2 ≤ 2 ^ spec.exponentBits - 1 by omega)
    rw [Nat.add_mul] at hbelow
    have hfraction : s % 2 ^ spec.mantissaBitsWithoutImplicit
        = s - 2 ^ spec.mantissaBitsWithoutImplicit := by
      rw [Nat.mod_eq_sub_mod hbig, Nat.mod_eq_of_lt (by omega)]
    rw [toNat_packComponents, BitVec.toNat_ofNat, BitVec.toNat_ofNat, hfraction,
      Nat.mod_eq_of_lt (by omega), Nat.min_eq_right (by omega), Nat.succ_mul]
    congr 1
    omega
  · have he := hgrid.resolve_right hbig
    rw [he, sub_self] at hk
    have hzero : k = 0 := hk.symm
    have hbelow := Nat.mul_le_mul_right (2 ^ spec.mantissaBitsWithoutImplicit)
      (show 1 ≤ 2 ^ spec.exponentBits - 1 by omega)
    rw [toNat_packComponents, BitVec.toNat_ofNat, BitVec.toNat_ofNat, Nat.zero_mod, hzero,
      Nat.mod_eq_of_lt (by omega), Nat.min_eq_right (by omega)]

theorem toNat_packedZero (sign : Sign) :
    (packedZero spec sign).toNat = (Format.ofModel spec).signed (isNegative sign) 0 := by
  rw [packedZero, toNat_packComponents]
  simp

/-- A pattern that is unpacked and packed again is the same pattern, unless it is a NaN. -/
theorem toNat_pack_unpack (hwidth : 1 < spec.exponentBits) {b : BitVec spec.numBits}
    (h : (Format.ofModel spec).datum b.toNat ≠ .nan) :
    (pack spec (unpack spec b)).toNat = b.toNat := by
  have hbound : b.toNat < 2 * (Format.ofModel spec).signWeight := by
    have hlt := b.isLt
    simp only [Format.signWeight, twoTo_eq, Format.exponentBits_ofModel, Format.fractionBits_ofModel]
    calc b.toNat < 2 ^ (1 + spec.exponentBits + spec.mantissaBitsWithoutImplicit) := hlt
      _ = 2 * 2 ^ (spec.mantissaBitsWithoutImplicit + spec.exponentBits) := by ring
  have hdatum := datum_toNat b
  have hrest := (Format.ofModel spec).signed_rest hbound
  cases hu : unpack spec b with
  | notANumber =>
      rw [hu] at hdatum
      exact absurd hdatum h
  | infinity sign =>
      rw [hu] at hdatum
      obtain ⟨hsign, hinfinity⟩ := (Format.ofModel spec).of_datum_infinity hdatum
      rw [pack, toNat_packedInfinity, hsign, ← hinfinity, hrest]
  | zero sign =>
      rw [hu] at hdatum
      obtain ⟨hsign, -, hmagnitude⟩ := (Format.ofModel spec).of_datum_finite hdatum
      have hzero := ((Format.ofModel spec).magnitude_grid hmagnitude).2.2.2
      rw [sub_self, Int.toNat_zero, Nat.zero_mul, Nat.zero_add] at hzero
      rw [pack, toNat_packedZero, hsign, hzero, hrest]
  | finite sign s e hs =>
      rw [hu] at hdatum
      obtain ⟨hsign, hfinite, hmagnitude⟩ := (Format.ofModel spec).of_datum_finite hdatum
      obtain ⟨hle, hlt, hgrid, hcount⟩ := (Format.ofModel spec).magnitude_grid hmagnitude
      rw [Format.fractionBits_ofModel] at hcount
      rw [toNat_pack_finite hwidth sign hs hle hlt hgrid, hcount, Nat.min_eq_right hfinite.le, hsign,
        hrest]

end Packing

end ColorChain.Number
