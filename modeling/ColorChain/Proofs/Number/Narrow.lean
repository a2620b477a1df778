import ColorChain.Proofs.Number.Grid
import ColorChain.Proofs.Number.Float
import ColorChain.Arithmetic

/-!
# Narrowing

Which double-precision numbers become zero in single precision, which stay positive and which become
infinite.
-/

namespace ColorChain.Number

open BinaryFloat Float.Model.UnpackedFloat

/-- The value of a datum, and zero if it has none. -/
def Datum.value : Datum → ℚ
  | .finite negative significand exponent =>
    (if negative then -1 else 1) * (significand * 2 ^ exponent)
  | _ => 0

/-- The exact value of a number, and zero if it has none. -/
def BinaryFloat.value {F : Type} [BinaryFloat F] (x : F) : ℚ := (datum x).value

/-- The number is greater than `q`: it is positive infinity or has a greater value. -/
def BinaryFloat.IsAbove {F : Type} [BinaryFloat F] (q : ℚ) (x : F) : Prop :=
  match datum x with
  | .nan => False
  | .infinity negative => negative = false
  | .finite .. => q < value x

theorem abs_value {F : Type} [BinaryFloat F] {x : F} {negative : Bool} {s : ℕ} {e : ℤ}
    (h : datum x = .finite negative s e) : |value x| = s * 2 ^ e := by
  have hpos : (0 : ℚ) ≤ s * 2 ^ e := by positivity
  rw [value, h, Datum.value]
  cases negative with
  | false => rw [if_neg (by decide), one_mul, abs_of_nonneg hpos]
  | true => rw [if_pos rfl, neg_one_mul, abs_neg, abs_of_nonneg hpos]

theorem isFinite_iff {x : Float} :
    x.isFinite = true ↔ ∃ negative s e, datum x = .finite negative s e := by
  rw [datum_eq_unpacked]
  exact Format.isFinite_iff_unpacked

theorem not_isFinite_of_nan {x : Float} (h : datum x = .nan) : ¬x.isFinite = true := by
  rw [isFinite_iff, h]
  simp

theorem not_isFinite_of_infinity {x : Float} {negative : Bool} (h : datum x = .infinity negative) :
    ¬x.isFinite = true := by
  rw [isFinite_iff, h]
  simp

theorem isFinite_single_iff {y : Float32} :
    y.isFinite = true ↔ ∃ negative s e, datum y = .finite negative s e := by
  rw [datum_eq_unpacked_single]
  exact Format.isFinite_iff_unpacked

/-! ## Comparing with zero -/

section Comparisons

variable {y : Float32} {negative : Bool} {s : ℕ} {e : ℤ}

theorem zero_lt_iff_unpack : 0 < y ↔
    Float.Model.UnpackedFloat.lt (.zero .positive) y.toModel.unpack = true :=
  decide_eq_true_iff

theorem beq_zero_eq_unpack : (y == 0) = y.toModel.unpack.beq (.zero .positive) := rfl

theorem not_zero_lt_of_nan (h : datum y = .nan) : ¬0 < y := by
  rw [datum_eq_unpacked_single] at h
  rw [zero_lt_iff_unpack, Format.of_unpacked_nan h]
  decide

theorem beq_zero_of_nan (h : datum y = .nan) : (y == 0) = false := by
  rw [datum_eq_unpacked_single] at h
  rw [beq_zero_eq_unpack, Format.of_unpacked_nan h]
  rfl

theorem zero_lt_iff_of_finite (h : datum y = .finite negative s e) :
    0 < y ↔ negative = false ∧ 0 < s := by
  rw [datum_eq_unpacked_single] at h
  rw [zero_lt_iff_unpack]
  rcases Format.of_unpacked_finite h with ⟨sign, hu, -, rfl⟩ | ⟨sign, hs, hu, rfl⟩
  · simp [hu, Float.Model.UnpackedFloat.lt, Float.Model.UnpackedFloat.compare]
  · cases sign <;>
      simp [hu, Float.Model.UnpackedFloat.lt, Float.Model.UnpackedFloat.compare, isNegative, hs]

theorem zero_lt_iff_of_infinity (h : datum y = .infinity negative) :
    0 < y ↔ negative = false := by
  rw [datum_eq_unpacked_single] at h
  rw [zero_lt_iff_unpack]
  obtain ⟨sign, hu, rfl⟩ := Format.of_unpacked_infinity h
  cases sign <;>
    simp [hu, Float.Model.UnpackedFloat.lt, Float.Model.UnpackedFloat.compare, isNegative]

theorem beq_zero_iff_of_finite (h : datum y = .finite negative s e) : (y == 0) = true ↔ s = 0 := by
  rw [datum_eq_unpacked_single] at h
  rw [beq_zero_eq_unpack]
  rcases Format.of_unpacked_finite h with ⟨sign, hu, -, rfl⟩ | ⟨sign, hs, hu, -⟩
  · simp [hu, Float.Model.UnpackedFloat.beq, Float.Model.UnpackedFloat.compare]
  · cases sign <;>
      simp [hu, Float.Model.UnpackedFloat.beq, Float.Model.UnpackedFloat.compare, hs.ne']

theorem beq_zero_of_infinity (h : datum y = .infinity negative) : (y == 0) = false := by
  rw [datum_eq_unpacked_single] at h
  rw [beq_zero_eq_unpack]
  obtain ⟨sign, hu, -⟩ := Format.of_unpacked_infinity h
  cases sign <;> simp [hu, Float.Model.UnpackedFloat.beq, Float.Model.UnpackedFloat.compare]

theorem beq_zero_of_zero_lt (h : 0 < y) : (y == 0) = false := by
  cases hy : datum y with
  | nan => exact absurd h (not_zero_lt_of_nan hy)
  | infinity negative => exact beq_zero_of_infinity hy
  | finite negative s e =>
    have hs := ((zero_lt_iff_of_finite hy).mp h).2
    rw [← Bool.not_eq_true, beq_zero_iff_of_finite hy]
    exact hs.ne'

/-- Only a finite number other than zero equals one. -/
theorem of_beq_one (h : (y == 1) = true) : y.isFinite = true ∧ (y == 0) = false := by
  change y.toModel.unpack.beq (.finite .positive (2 ^ 23) (-23) (by decide)) = true at h
  change y.toModel.unpack.isFinite = true ∧ y.toModel.unpack.beq (.zero .positive) = false
  cases hu : y.toModel.unpack with
  | notANumber => simp [hu, Float.Model.UnpackedFloat.beq, Float.Model.UnpackedFloat.compare] at h
  | infinity sign =>
    cases sign <;> simp [hu, Float.Model.UnpackedFloat.beq, Float.Model.UnpackedFloat.compare] at h
  | zero sign => simp [hu, Float.Model.UnpackedFloat.beq, Float.Model.UnpackedFloat.compare] at h
  | finite sign s e hs =>
    cases sign <;>
      simp [isFinite, Float.Model.UnpackedFloat.beq, Float.Model.UnpackedFloat.compare]

end Comparisons

/-! ## Rounding to single precision -/

theorem Format.infinityBits_lt_signWeight (f : Format) : f.infinityBits < f.signWeight := by
  have hexponent := Nat.two_pow_pos f.exponentBits
  have hfraction := Nat.two_pow_pos f.fractionBits
  simp only [infinityBits, signWeight, twoTo_eq, Nat.pow_add]
  rw [Nat.mul_comm (2 ^ f.fractionBits)]
  exact Nat.mul_lt_mul_of_pos_right (by omega) hfraction

/-- What a signed pattern up to infinity stands for. -/
theorem Format.datum_signed (f : Format) (negative : Bool) {bits : ℕ} (h : bits ≤ f.infinityBits) :
    f.datum (f.signed negative bits) =
      if bits < f.infinityBits then .finite negative (f.magnitude bits).1 (f.magnitude bits).2
      else .infinity negative := by
  have hweight := f.infinityBits_lt_signWeight
  have hdiv : (f.signed negative bits / f.signWeight % 2 == 1) = negative := by
    cases negative with
    | false => simp [signed, Nat.div_eq_of_lt (h.trans_lt hweight)]
    | true =>
      simp [signed, Nat.add_div_left _ (Nat.zero_lt_of_lt hweight),
        Nat.div_eq_of_lt (h.trans_lt hweight)]
  have hmod : f.signed negative bits % f.signWeight = bits := by
    cases negative with
    | false => simp [signed, Nat.mod_eq_of_lt (h.trans_lt hweight)]
    | true => simp [signed, Nat.mod_eq_of_lt (h.trans_lt hweight)]
  simp only [datum, hdiv, hmod]
  split_ifs with hlt heq
  · rfl
  · rfl
  · omega

theorem Format.nearest_le_infinityBits (f : Format) (num den : ℕ) :
    f.nearest num den ≤ f.infinityBits := by
  unfold nearest
  split_ifs
  · exact Nat.zero_le _
  · exact Nat.min_le_left _ _

/-- The pattern of a narrowed number up to its sign. -/
def narrowBits (s : ℕ) (e : ℤ) : ℕ := Format.binary32.nearest (s * upScale e) (upScale (-e))

theorem narrowBits_le_iff {s : ℕ} {e : ℤ} {bits m : ℕ} {k : ℤ}
    (hbits : bits < Format.binary32.infinityBits) (h : Format.binary32.magnitude bits = (m, k)) :
    narrowBits s e ≤ bits ↔ (s * 2 ^ e : ℚ) < (m + 1 / 2) * 2 ^ k ∨
      (s * 2 ^ e : ℚ) = (m + 1 / 2) * 2 ^ k ∧ m % 2 = 0 := by
  rw [narrowBits, Format.nearest_le_iff _ (upScale_pos _) hbits h, upScale_div]

/-- A number becomes zero up to half the least positive value. -/
theorem narrowBits_eq_zero_iff {s : ℕ} {e : ℤ} :
    narrowBits s e = 0 ↔ (s * 2 ^ e : ℚ) ≤ 2 ^ (-150 : ℤ) := by
  have hhalf : ((0 : ℕ) + 1 / 2 : ℚ) * 2 ^ (-149 : ℤ) = 2 ^ (-150 : ℤ) := by norm_num
  rw [← Nat.le_zero, narrowBits_le_iff (by decide) (by decide : _ = (0, -149)), hhalf]
  simp [le_iff_lt_or_eq]

/-- A number becomes infinite from the middle between the greatest value and the next power of two. -/
theorem narrowBits_lt_infinityBits_iff {s : ℕ} {e : ℤ} :
    narrowBits s e < Format.binary32.infinityBits ↔ (s * 2 ^ e : ℚ) < 2 ^ 128 - 2 ^ 103 := by
  have hmiddle : ((2 ^ 24 - 1 : ℕ) + 1 / 2 : ℚ) * 2 ^ (104 : ℤ) = 2 ^ 128 - 2 ^ 103 := by norm_num
  have hmagnitude : Format.binary32.magnitude (Format.binary32.infinityBits - 1)
      = (2 ^ 24 - 1, 104) := by decide
  rw [← Nat.le_sub_one_iff_lt (by decide), narrowBits_le_iff (by decide) hmagnitude, hmiddle]
  simp

section Narrow

variable {x : Float} {negative : Bool} {s : ℕ} {e : ℤ}

/-- So does the number of such a pattern, where patterns that are no NaN are kept. -/
theorem datum_ofBits_signed_of {F : Type} [BinaryFloat F] (negative : Bool) {bits : ℕ}
    (h : bits ≤ (format F).infinityBits)
    (hkept : ∀ {bits}, bits < 2 * (format F).signWeight → (format F).datum bits ≠ .nan →
      toBits (ofBits bits : F) = bits) :
    datum (ofBits ((format F).signed negative bits) : F) =
      if bits < (format F).infinityBits then
        .finite negative ((format F).magnitude bits).1 ((format F).magnitude bits).2
      else .infinity negative := by
  have hbound : (format F).signed negative bits < 2 * (format F).signWeight := by
    have := (format F).infinityBits_lt_signWeight
    cases negative <;> simp only [Format.signed, if_true, Bool.false_eq_true, if_false] <;> omega
  have hdatum := (format F).datum_signed negative h
  rw [datum, hkept hbound]
  · exact hdatum
  · rw [hdatum]
    split_ifs <;> simp

theorem datum_ofBits_signed (negative : Bool) {bits : ℕ} (h : bits ≤ Format.binary32.infinityBits) :
    datum (ofBits (Format.binary32.signed negative bits) : Float32) =
      if bits < Format.binary32.infinityBits then
        .finite negative (Format.binary32.magnitude bits).1 (Format.binary32.magnitude bits).2
      else .infinity negative :=
  datum_ofBits_signed_of negative h toBits_ofBits_single

theorem datum_narrow_eq (x : Float) :
    datum (narrow x : Float32) = datum (ofBits (Format.binary32.ofDatum (datum x)) : Float32) := rfl

theorem datum_narrow (h : datum x = .finite negative s e) : datum (narrow x : Float32) =
    if narrowBits s e < Format.binary32.infinityBits then
      .finite negative (Format.binary32.magnitude (narrowBits s e)).1
        (Format.binary32.magnitude (narrowBits s e)).2
    else .infinity negative := by
  rw [datum_narrow_eq, h]
  exact datum_ofBits_signed negative (Format.nearest_le_infinityBits _ _ _)

theorem datum_narrow_infinity (h : datum x = .infinity negative) :
    datum (narrow x : Float32) = .infinity negative := by
  rw [datum_narrow_eq, h]
  exact (datum_ofBits_signed negative le_rfl).trans (if_neg (lt_irrefl _))

theorem datum_narrow_nan (h : datum x = .nan) : datum (narrow x : Float32) = .nan := by
  rw [datum_narrow_eq, h]
  decide +kernel

/-- A number is zero in single precision up to half the least positive value. -/
theorem narrow_beq_zero_iff (x : Float) :
    ((narrow x : Float32) == 0) = true ↔ x.isFinite = true ∧ |value x| ≤ 2 ^ (-150 : ℤ) := by
  rw [isFinite_iff]
  cases h : datum x with
  | nan => simp [beq_zero_of_nan (datum_narrow_nan h)]
  | infinity negative => simp [beq_zero_of_infinity (datum_narrow_infinity h)]
  | finite negative s e =>
    have hdatum := datum_narrow h
    rw [abs_value h, ← narrowBits_eq_zero_iff]
    simp only [Datum.finite.injEq, exists_and_left, exists_eq', and_true, true_and]
    split_ifs at hdatum with hlt
    · rw [beq_zero_iff_of_finite hdatum,
        Format.binary32.significand_eq_zero_iff hlt Prod.mk.eta.symm]
    · rw [beq_zero_of_infinity hdatum]
      refine iff_of_false (by decide) fun hzero => hlt ?_
      rw [hzero]
      decide

/-- A number is positive in single precision if it is above half the least positive value. -/
theorem zero_lt_narrow_iff (x : Float) :
    (0 : Float32) < narrow x ↔ IsAbove (2 ^ (-150 : ℤ)) x := by
  unfold IsAbove
  cases h : datum x with
  | nan => simp [not_zero_lt_of_nan (datum_narrow_nan h)]
  | infinity negative => simp [zero_lt_iff_of_infinity (datum_narrow_infinity h)]
  | finite negative s e =>
    have hdatum := datum_narrow h
    have hsign : 2 ^ (-150 : ℤ) < value x ↔ negative = false ∧ 2 ^ (-150 : ℤ) < |value x| := by
      rw [abs_value h, value, h, Datum.value]
      have hbound : (0 : ℚ) < 2 ^ (-150 : ℤ) := by positivity
      have hpos : (0 : ℚ) ≤ s * 2 ^ e := by positivity
      cases negative with
      | false => simp
      | true =>
        simp only [if_true, neg_one_mul, Bool.true_eq_false, false_and, iff_false]
        linarith
    dsimp only
    rw [hsign, abs_value h, ← not_le, ← narrowBits_eq_zero_iff]
    split_ifs at hdatum with hlt
    · rw [zero_lt_iff_of_finite hdatum, Nat.pos_iff_ne_zero, Ne,
        Format.binary32.significand_eq_zero_iff hlt Prod.mk.eta.symm]
    · rw [zero_lt_iff_of_infinity hdatum]
      refine (and_iff_left fun hbits => hlt ?_).symm
      rw [hbits]
      decide

/-- A number is finite in single precision below the middle between the greatest value and the next
power of two. -/
theorem isFinite_narrow_iff (x : Float) :
    (narrow x : Float32).isFinite = true ↔ x.isFinite = true ∧ |value x| < 2 ^ 128 - 2 ^ 103 := by
  rw [isFinite_iff, isFinite_single_iff]
  cases h : datum x with
  | nan => simp [datum_narrow_nan h]
  | infinity negative => simp [datum_narrow_infinity h]
  | finite negative s e =>
    rw [abs_value h, ← narrowBits_lt_infinityBits_iff, datum_narrow h]
    split_ifs with hlt <;> simp [hlt]

end Narrow

end ColorChain.Number
