import Mathlib.Data.Int.Notation
import Mathlib.Data.Nat.Notation
import ColorChain.Number.Binary

/-!
# Numbers and their patterns

A number of a binary format is its bit pattern: the pattern gives the number back, and NaN has one
pattern only.
-/

namespace ColorChain.Number

open BinaryFloat

/-- A type of floating-point numbers whose values are the patterns of its format, with one NaN. -/
class LawfulBinaryFloat (F : Type) [BinaryFloat F] : Prop where
  ofBits_toBits : ∀ x : F, ofBits (toBits x) = x
  toBits_lt : ∀ x : F, toBits x < 2 * (format F).signWeight
  toBits_of_nan : ∀ x : F, datum x = .nan → toBits x = (format F).nanBits

namespace Format

variable (f : Format) {bits : ℕ} {negative : Bool}

/-- The patterns that stand for no number lie above infinity. -/
theorem infinityBits_lt_of_datum_nan (h : f.datum bits = .nan) :
    f.infinityBits < bits % f.signWeight := by
  simp only [datum] at h
  split at h
  · cases h
  · split at h
    · cases h
    · omega

theorem of_datum_infinity (h : f.datum bits = .infinity negative) :
    negative = (bits / f.signWeight % 2 == 1) ∧ bits % f.signWeight = f.infinityBits := by
  simp only [datum] at h
  split at h
  · cases h
  · split at h
    · next heq => exact ⟨(Datum.infinity.inj h).symm, heq⟩
    · cases h

theorem of_datum_finite {significand : ℕ} {exponent : ℤ}
    (h : f.datum bits = .finite negative significand exponent) :
    negative = (bits / f.signWeight % 2 == 1) ∧ bits % f.signWeight < f.infinityBits
      ∧ f.magnitude (bits % f.signWeight) = (significand, exponent) := by
  simp only [datum] at h
  split at h
  · next hlt =>
    obtain ⟨hnegative, hsignificand, hexponent⟩ := Datum.finite.inj h
    exact ⟨hnegative.symm, hlt, Prod.ext hsignificand hexponent⟩
  · split at h
    · cases h
    · cases h

/-- A pattern is its sign and the rest of its bits. -/
theorem signed_rest (h : bits < 2 * f.signWeight) :
    f.signed (bits / f.signWeight % 2 == 1) (bits % f.signWeight) = bits := by
  have hdiv : bits / f.signWeight < 2 := Nat.div_lt_of_lt_mul (by rwa [Nat.mul_comm])
  have hmod := Nat.div_add_mod bits f.signWeight
  rcases Nat.le_one_iff_eq_zero_or_eq_one.1 (Nat.le_of_lt_succ hdiv) with h | h
  · rw [h] at hmod ⊢
    simpa [signed] using hmod
  · rw [h] at hmod ⊢
    simpa [signed] using hmod

end Format

end ColorChain.Number
