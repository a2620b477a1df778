import ColorChain.Proofs.Number.Quotient
import ColorChain.Proofs.Number.Widen

/-!
# Zeros and NaN

What the language's sums and products do with the numbers that are no ordinary ones: NaN spreads, a
zero adds nothing but can lose its sign, and a zero times a number that is not finite is NaN.
-/

namespace ColorChain.Number

open BinaryFloat Float.Model.UnpackedFloat

/-! ## Packed numbers -/

/-- The number that an unpacked one is packed to. -/
def ofUnpacked (u : Float.Model.UnpackedFloat) : Float := .ofModel (.pack u)

theorem add_eq_ofUnpacked (x y : Float) :
    x + y = ofUnpacked (add .binary64 x.toModel.unpack y.toModel.unpack) := rfl

theorem mul_eq_ofUnpacked (x y : Float) :
    x * y = ofUnpacked (mul .binary64 x.toModel.unpack y.toModel.unpack) := rfl

/-- A number is what its unpacked form is packed to. -/
@[simp]
theorem ofUnpacked_unpack (x : Float) : ofUnpacked x.toModel.unpack = x := by
  have hbits : toBits (ofUnpacked x.toModel.unpack) = toBits x := by
    by_cases h : datum x = .nan
    · have hu := h
      rw [datum_eq_unpacked] at hu
      rw [Format.of_unpacked_nan hu, LawfulBinaryFloat.toBits_of_nan x h]
      decide +kernel
    · exact @toNat_pack_unpack .binary64 (by decide) x.toBits.toBitVec h
  rw [← LawfulBinaryFloat.ofBits_toBits (ofUnpacked _), hbits, LawfulBinaryFloat.ofBits_toBits]

/-! ## NaN -/

/-- The only NaN. -/
def nan : Float := ofUnpacked .notANumber

theorem unpack_nan : nan.toModel.unpack = .notANumber := rfl

theorem datum_eq_nan_iff {x : Float} : datum x = .nan ↔ x = nan := by
  constructor
  · intro h
    rw [datum_eq_unpacked] at h
    rw [← ofUnpacked_unpack x, Format.of_unpacked_nan h]
    rfl
  · rintro rfl
    rw [datum_eq_unpacked, unpack_nan]
    rfl

@[simp]
theorem nan_add (x : Float) : nan + x = nan := rfl

@[simp]
theorem add_nan (x : Float) : x + nan = nan := by
  rw [add_eq_ofUnpacked, unpack_nan]
  cases x.toModel.unpack <;> rfl

@[simp]
theorem nan_mul (x : Float) : nan * x = nan := rfl

@[simp]
theorem mul_nan (x : Float) : x * nan = nan := by
  rw [mul_eq_ofUnpacked, unpack_nan]
  cases x.toModel.unpack <;> rfl

theorem isNaN_iff {x : Float} : x.isNaN = true ↔ x = nan := by
  rw [← datum_eq_nan_iff, datum_eq_unpacked]
  change x.toModel.unpack.isNaN = true ↔ _
  cases x.toModel.unpack <;> simp [isNaN, Format.unpacked]

/-- NaN is not above zero. -/
theorem isNaN_of_zero_lt {x : Float} (h : 0 < x) : x.isNaN = false := by
  rw [← Bool.not_eq_true, isNaN_iff]
  rintro rfl
  exact absurd h (by decide +kernel)

theorem isNaN_single_iff {y : Float32} : y.isNaN = true ↔ datum y = .nan := by
  rw [datum_eq_unpacked_single]
  change y.toModel.unpack.isNaN = true ↔ _
  cases y.toModel.unpack <;> simp [isNaN, Format.unpacked]

theorem isNaN_narrow_iff {x : Float} : (narrow x : Float32).isNaN = true ↔ x = nan := by
  rw [isNaN_single_iff, ← datum_eq_nan_iff]
  cases h : datum x with
  | nan => simp [datum_narrow_nan h]
  | infinity negative => simp [datum_narrow_infinity h]
  | finite negative s e =>
    rw [datum_narrow h]
    split_ifs <;> simp

/-! ## Zeros -/

/-- Zero with a sign. -/
def signedZero (negative : Bool) : Float :=
  ofUnpacked (.zero (if negative then .negative else .positive))

/-- Zero of either sign. -/
def IsZero (x : Float) : Prop := ∃ negative, x = signedZero negative

theorem zero_eq_signedZero : (0 : Float) = signedZero false := rfl

theorem unpack_signedZero (negative : Bool) : (signedZero negative).toModel.unpack =
    .zero (if negative then .negative else .positive) := by
  cases negative <;> rfl

theorem isZero_ofUnpacked (sign : Sign) : IsZero (ofUnpacked (.zero sign)) :=
  ⟨isNegative sign, by cases sign <;> rfl⟩

theorem isZero_of_unpack {x : Float} {sign : Sign} (h : x.toModel.unpack = .zero sign) :
    IsZero x := by
  rw [← ofUnpacked_unpack x, h]
  exact isZero_ofUnpacked sign

theorem not_isZero_nan : ¬IsZero nan := by
  rintro ⟨negative, h⟩
  have hu := unpack_signedZero negative
  rw [← h, unpack_nan] at hu
  cases hu

theorem signedZero_injective {negative negative' : Bool}
    (h : signedZero negative = signedZero negative') : negative = negative' := by
  have hu := unpack_signedZero negative
  rw [h, unpack_signedZero] at hu
  cases negative <;> cases negative' <;> simp_all

/-- A sum of zeros is negative only if both are. -/
@[simp]
theorem signedZero_add_signedZero (negative negative' : Bool) :
    signedZero negative + signedZero negative' = signedZero (negative && negative') := by
  cases negative <;> cases negative' <;> rfl

/-- Narrowing keeps the sign of zero. -/
theorem narrow_signedZero_injective {negative negative' : Bool}
    (h : (narrow (signedZero negative) : Float32) = narrow (signedZero negative')) :
    negative = negative' := by
  revert h
  revert negative negative'
  decide +kernel

/-- Zero adds nothing to another number. -/
theorem zero_plus {x y : Float} (hx : IsZero x) (hy : ¬IsZero y) : x + y = y := by
  obtain ⟨negative, rfl⟩ := hx
  conv_rhs => rw [← ofUnpacked_unpack y]
  rw [add_eq_ofUnpacked, unpack_signedZero]
  cases hu : y.toModel.unpack with
  | zero sign => exact absurd (isZero_of_unpack hu) hy
  | _ => rfl

theorem plus_zero {x y : Float} (hx : ¬IsZero x) (hy : IsZero y) : x + y = x := by
  obtain ⟨negative, rfl⟩ := hy
  conv_rhs => rw [← ofUnpacked_unpack x]
  rw [add_eq_ofUnpacked, unpack_signedZero]
  cases hu : x.toModel.unpack with
  | zero sign => exact absurd (isZero_of_unpack hu) hx
  | _ => rfl

/-- Zero times a finite number is zero. -/
theorem isZero_mul {x y : Float} (hx : IsZero x) (hy : y.isFinite = true) : IsZero (x * y) := by
  obtain ⟨negative, rfl⟩ := hx
  change y.toModel.unpack.isFinite = true at hy
  rw [mul_eq_ofUnpacked, unpack_signedZero]
  cases hu : y.toModel.unpack with
  | zero sign => exact isZero_ofUnpacked _
  | finite sign s e hs => exact isZero_ofUnpacked _
  | _ => simp [hu, isFinite] at hy

/-- Zero times a number that is not finite is NaN. -/
theorem mul_eq_nan {x y : Float} (hx : IsZero x) (hy : y.isFinite = false) : x * y = nan := by
  obtain ⟨negative, rfl⟩ := hx
  change y.toModel.unpack.isFinite = false at hy
  rw [mul_eq_ofUnpacked, unpack_signedZero]
  cases hu : y.toModel.unpack with
  | infinity sign => rfl
  | notANumber => rfl
  | _ => simp [hu, isFinite] at hy

/-! ## Products -/

theorem times_comm (x y : Float) : x * y = y * x := by
  have hsign (sign sign' : Sign) : sign * sign' = sign' * sign := by
    cases sign <;> cases sign' <;> rfl
  rw [mul_eq_ofUnpacked, mul_eq_ofUnpacked]
  congr 1
  cases x.toModel.unpack <;> cases y.toModel.unpack <;>
    simp only [mul, hsign, Nat.mul_comm, Int.add_comm]

theorem unpack_one :
    (1 : Float).toModel.unpack = .finite .positive (2 ^ 52) (-52) (by decide) := rfl

theorem not_isZero_one : ¬IsZero 1 := by
  rintro ⟨negative, h⟩
  have hu := unpack_signedZero negative
  rw [← h, unpack_one] at hu
  cases hu

/-- Multiplying by one rounds the exact significand, which is on the grid already. -/
theorem datum_one_times {x : Float} {sign : Sign} {s : ℕ} {e : ℤ} {hs : 0 < s}
    (h : x.toModel.unpack = .finite sign s e hs) : datum (1 * x) = datum x := by
  have hx := datum_eq_unpacked x
  rw [h] at hx
  obtain ⟨-, hfinite, hmagnitude⟩ := Format.binary64.of_datum_finite hx
  have hvalue : ((2 ^ 52 * s : ℕ) : ℚ) / (1 : ℕ) * 2 ^ (-52 + e) = s * 2 ^ e := by
    rw [zpow_add₀ (by norm_num)]
    push_cast
    ring
  have hlog : e ≤ Int.log 2 (s * 2 ^ e : ℚ) := by
    rw [← Int.zpow_le_iff_le_log (by decide) (by positivity)]
    exact le_mul_of_one_le_left (by positivity) (by exact_mod_cast hs)
  have hround := @toNat_pack_roundWithAccuracy .binary64 (by decide) sign (2 ^ 52 * s) 1
    (by positivity) Nat.one_pos (-52 + e) (by rw [hvalue]; change _ ≤ max _ (_ - 52); omega)
  have hexact : accuracyOfFraction 0 1 = .exact := rfl
  rw [Nat.div_one, Nat.mod_one, hexact, (Format.ofModel .binary64).nearest_congr
    (Nat.mul_pos Nat.one_pos (upScale_pos _)) (upScale_pos _)
    ((scaled_mul_div _ _ _).trans (hvalue.trans (upScale_div s e).symm))] at hround
  have hnearest := Format.binary64.nearest_of_magnitude hfinite hmagnitude
  have hproduct : datum (1 * x) = Format.binary64.datum
      (Format.binary64.signed (isNegative sign) (toBits x % Format.binary64.signWeight)) := by
    rw [← hnearest]
    refine Eq.trans ?_ (congrArg Format.binary64.datum hround)
    rw [mul_eq_ofUnpacked, unpack_one, h]
    cases sign <;> rfl
  rw [hproduct, Format.binary64.datum_signed _ hfinite.le, if_pos hfinite, hmagnitude, hx]
  rfl

/-- One times a number is the number. -/
theorem one_times (x : Float) : 1 * x = x := by
  cases hu : x.toModel.unpack with
  | finite sign s e hs => exact datum_injective (datum_one_times hu)
  | zero sign =>
    rw [← ofUnpacked_unpack x, hu]
    cases sign <;> rfl
  | infinity sign =>
    rw [← ofUnpacked_unpack x, hu]
    cases sign <;> rfl
  | notANumber =>
    rw [← ofUnpacked_unpack x, hu]
    rfl

/-! ## Numbers that add nothing -/

/-- The number is NaN or a zero, so that it adds nothing or spoils a sum. -/
def IsNaNOrZero (x : Float) : Prop := x = nan ∨ IsZero x

/-- The number is NaN or positive zero, so that a sum with it is no negative zero. -/
def IsNaNOrPositiveZero (x : Float) : Prop := x = nan ∨ x = 0

variable {x y : Float}

theorem isNaNOrPositiveZero_zero : IsNaNOrPositiveZero 0 := .inr rfl

theorem IsNaNOrPositiveZero.isNaNOrZero (hx : IsNaNOrPositiveZero x) : IsNaNOrZero x :=
  hx.imp_right fun h => ⟨false, h.trans zero_eq_signedZero⟩

theorem IsZero.add (hx : IsZero x) (hy : IsZero y) : IsZero (x + y) := by
  obtain ⟨negative, rfl⟩ := hx
  obtain ⟨negative', rfl⟩ := hy
  exact ⟨_, signedZero_add_signedZero negative negative'⟩

theorem IsNaNOrZero.add (hx : IsNaNOrZero x) (hy : IsNaNOrZero y) : IsNaNOrZero (x + y) := by
  rcases hx with rfl | hx
  · exact .inl (nan_add y)
  · rcases hy with rfl | hy
    · exact .inl (add_nan x)
    · exact .inr (hx.add hy)

theorem IsNaNOrPositiveZero.add (hx : IsNaNOrPositiveZero x) (hy : IsNaNOrZero y) :
    IsNaNOrPositiveZero (x + y) := by
  rcases hx with rfl | rfl
  · exact .inl (nan_add y)
  · rcases hy with rfl | ⟨negative, rfl⟩
    · exact .inl (add_nan _)
    · exact .inr (signedZero_add_signedZero false negative)

theorem IsNaNOrZero.add_positive (hx : IsNaNOrZero x) (hy : IsNaNOrPositiveZero y) :
    IsNaNOrPositiveZero (x + y) := by
  rcases hx with rfl | ⟨negative, rfl⟩
  · exact .inl (nan_add y)
  · rcases hy with rfl | rfl
    · exact .inl (add_nan _)
    · refine .inr ((signedZero_add_signedZero negative false).trans ?_)
      rw [Bool.and_false]
      rfl

theorem IsNaNOrZero.mul (hx : IsNaNOrZero x) (y : Float) : IsNaNOrZero (x * y) := by
  rcases hx with rfl | hx
  · exact .inl (nan_mul y)
  · cases hy : y.isFinite with
    | true => exact .inr (isZero_mul hx hy)
    | false => exact .inl (mul_eq_nan hx hy)

theorem IsNaNOrZero.mul_left (hy : IsNaNOrZero y) (x : Float) : IsNaNOrZero (x * y) := by
  rw [times_comm]
  exact hy.mul x

theorem IsNaNOrPositiveZero.mul (hx : IsNaNOrPositiveZero x) (hy : IsNaNOrPositiveZero y) :
    IsNaNOrPositiveZero (x * y) := by
  rcases hx with rfl | rfl
  · exact .inl (nan_mul y)
  · rcases hy with rfl | rfl
    · exact .inl (mul_nan _)
    · exact .inr rfl

end ColorChain.Number
