import ColorChain.Proofs.Number.Unpacked

/-!
# The language's own numbers

Double- and single-precision numbers are the patterns of `Format.binary64` and `Format.binary32`.
-/

namespace ColorChain.Number

open BinaryFloat Float.Model.UnpackedFloat

/-- A pattern above infinity has all exponent bits set and a fraction. -/
theorem isNaNBits_of_lt {spec : Float.Model.Format} {b : BitVec spec.numBits}
    (h : (Format.ofModel spec).infinityBits < b.toNat % (Format.ofModel spec).signWeight) :
    unpackExponent b = (-1#_) ∧ unpackMantissa b ≠ 0#_ := by
  have hfraction := (unpackMantissa b).isLt
  have hexponent := (unpackExponent b).isLt
  have hinfinity : (Format.ofModel spec).infinityBits
      = (2 ^ spec.exponentBits - 1) * 2 ^ spec.mantissaBitsWithoutImplicit := rfl
  rw [mod_signWeight, hinfinity] at h
  have hfull : (unpackExponent b).toNat = 2 ^ spec.exponentBits - 1 := by
    by_contra hne
    have hstep := Nat.mul_le_mul_right (2 ^ spec.mantissaBitsWithoutImplicit)
      (show (unpackExponent b).toNat + 1 ≤ 2 ^ spec.exponentBits - 1 by omega)
    rw [Nat.succ_mul] at hstep
    omega
  constructor
  · apply BitVec.eq_of_toNat_eq
    rw [hfull, BitVec.neg_one_eq_allOnes, BitVec.toNat_allOnes]
  · intro hzero
    rw [hfull, hzero, BitVec.toNat_zero] at h
    omega

instance lawfulFloat : LawfulBinaryFloat Float where
  ofBits_toBits x := by
    simp [ofBits, toBits]
  toBits_lt x := x.toBits.toNat_lt
  toBits_of_nan x h := by
    obtain ⟨hexponent, hmantissa⟩ := @isNaNBits_of_lt .binary64 x.toBits.toBitVec
      (Format.infinityBits_lt_of_datum_nan _ h)
    exact congrArg BitVec.toNat (x.toModel.valid.eq_packedNaN hexponent hmantissa)

instance lawfulFloat32 : LawfulBinaryFloat Float32 where
  ofBits_toBits x := by
    simp [ofBits, toBits]
  toBits_lt x := x.toBits.toNat_lt
  toBits_of_nan x h := by
    obtain ⟨hexponent, hmantissa⟩ := @isNaNBits_of_lt .binary32 x.toBits.toBitVec
      (Format.infinityBits_lt_of_datum_nan _ h)
    exact congrArg BitVec.toNat (x.toModel.valid.eq_packedNaN hexponent hmantissa)

/-- A double-precision number stands for what it unpacks to. -/
theorem datum_eq_unpacked (x : Float) : datum x = Format.binary64.unpacked x.toModel.unpack :=
  @datum_toNat .binary64 x.toBits.toBitVec

/-- A single-precision number stands for what it unpacks to. -/
theorem datum_eq_unpacked_single (x : Float32) :
    datum x = Format.binary32.unpacked x.toModel.unpack :=
  @datum_toNat .binary32 x.toBits.toBitVec

/-- A pattern that is no NaN is the pattern of the number that it gives. -/
theorem toBits_ofBits_single {bits : ℕ} (hbits : bits < 2 * Format.binary32.signWeight)
    (h : Format.binary32.datum bits ≠ .nan) : toBits (ofBits bits : Float32) = bits := by
  have hnat : (UInt32.ofNat bits).toBitVec.toNat = bits := Nat.mod_eq_of_lt hbits
  have := @toNat_pack_unpack .binary32 (by decide) (UInt32.ofNat bits).toBitVec (by rwa [hnat])
  rw [hnat] at this
  exact this

theorem toBits_ofBits_double {bits : ℕ} (hbits : bits < 2 * Format.binary64.signWeight)
    (h : Format.binary64.datum bits ≠ .nan) : toBits (ofBits bits : Float) = bits := by
  have hnat : (UInt64.ofNat bits).toBitVec.toNat = bits := Nat.mod_eq_of_lt hbits
  have := @toNat_pack_unpack .binary64 (by decide) (UInt64.ofNat bits).toBitVec (by rwa [hnat])
  rw [hnat] at this
  exact this

end ColorChain.Number
