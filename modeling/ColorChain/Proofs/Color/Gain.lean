import ColorChain.Color.Derived
import ColorChain.Proofs.Color.Inverse

/-!
# Gains and the test for an inverse

A gain on every channel of the result is a factor for every row of a matrix. The determinant and the
product of the row lengths take up the same factors, so the test for an inverse, which compares the
two, finds the same of a matrix with gains as of the matrix alone. What passes has an inverse from
either side.
-/

namespace ColorChain

universe u

namespace ColorMatrix

section Ring

variable {R : Type u} [CommRing R]

/-- Gains after a matrix are factors of its rows. -/
theorem diagonal_mul (d : Rgba R) (m : ColorMatrix R) :
    (diagonal d).mul m = d.zip (fun gain row => row.map (gain * ·)) m := by
  ext <;> simp [mul, diagonal, transpose, Rgba.map, Rgba.dot, Rgba.zip]

theorem diagonal_mul_diagonal (d e : Rgba R) :
    (diagonal d).mul (diagonal e) = diagonal (d.zip (· * ·) e) := by
  rw [diagonal_mul]
  ext <;> simp [diagonal, Rgba.map, Rgba.zip]

theorem determinant_diagonal_mul (d : Rgba R) (m : ColorMatrix R) :
    determinant ((diagonal d).mul m) = d.r * d.g * d.b * d.a * determinant m := by
  simp only [diagonal_mul, determinant, transpose, Rgba.map, Rgba.zip]
  ring

theorem determinant_identity : determinant (identity : ColorMatrix R) = 1 := by
  simp [determinant, identity, diagonal, transpose, Rgba.map, Rgba.fill]

theorem determinant_diagonal (d : Rgba R) : determinant (diagonal d) = d.r * d.g * d.b * d.a := by
  have h := determinant_diagonal_mul d identity
  rwa [mul_identity, determinant_identity, mul_one] at h

end Ring

section Real

theorem rowNorm_map_mul (gain : ℝ) (row : Rgba ℝ) :
    rowNorm (row.map (gain * ·)) = |gain| * rowNorm row := by
  have hdot : (row.map (gain * ·)).dot (row.map (gain * ·)) = gain ^ 2 * row.dot row := by
    simp only [Rgba.map, Rgba.dot]
    ring
  change √((row.map (gain * ·)).dot (row.map (gain * ·))) = |gain| * √(row.dot row)
  rw [hdot, Real.sqrt_mul (sq_nonneg gain), Real.sqrt_sq_eq_abs]

/-- The row lengths take up the same factors as the determinant. -/
theorem rowNorms_diagonal_mul (d : Rgba ℝ) (m : ColorMatrix ℝ) :
    rowNorms ((diagonal d).mul m) = |d.r * d.g * d.b * d.a| * rowNorms m := by
  simp only [rowNorms, diagonal_mul, Rgba.zip, rowNorm_map_mul, abs_mul]
  ring

theorem inverse?_identity : (identity : ColorMatrix ℝ).inverse? = some identity := by
  have hrow (c : Channel) : (identity.get c : Rgba ℝ).dot (identity.get c) = 1 := by
    cases c <;> simp [identity, diagonal, Rgba.get, Rgba.fill, Rgba.dot]
  have hsome : (identity : ColorMatrix ℝ).inverse?.isSome := by
    refine isSome_inverse?_of_rows (fun c => ?_) (fun c => (hrow c).le) ?_
    · rw [hrow]
      exact one_pos
    · rw [determinant_identity]
      norm_num
  exact inverse?_eq_some_of_mul hsome (identity_mul identity)

variable {d : Rgba ℝ} (hd : ∀ c, d.get c ≠ 0)

include hd

theorem diagonal_mul_reciprocals : (diagonal d).mul (diagonal (d.map (1 / ·))) = identity := by
  have hr : d.r ≠ 0 := hd .r
  have hg : d.g ≠ 0 := hd .g
  have hb : d.b ≠ 0 := hd .b
  have ha : d.a ≠ 0 := hd .a
  rw [diagonal_mul_diagonal, identity]
  congr 1
  ext <;> simp [Rgba.zip, Rgba.map, Rgba.fill, hr, hg, hb, ha]

/-- The test for an inverse does not see gains: both sides of its comparison are multiplied by the
size of their product. -/
theorem isSome_inverse?_diagonal_mul (m : ColorMatrix ℝ) :
    ((diagonal d).mul m).inverse?.isSome ↔ m.inverse?.isSome := by
  have hgain : 0 < |d.r * d.g * d.b * d.a| :=
    abs_pos.mpr (mul_ne_zero (mul_ne_zero (mul_ne_zero (hd .r) (hd .g)) (hd .b)) (hd .a))
  rw [isSome_inverse?_iff, isSome_inverse?_iff, rowNorms_diagonal_mul, determinant_diagonal_mul,
    abs_mul (d.r * d.g * d.b * d.a), mul_left_comm, mul_le_mul_iff_right₀ hgain,
    mul_ne_zero_iff_left hgain.ne']

/-- Gains that follow a matrix are taken back before the matrix is undone. -/
theorem inverse?_diagonal_mul {m n : ColorMatrix ℝ} (h : m.inverse? = some n) :
    ((diagonal d).mul m).inverse? = some (n.mul (diagonal (d.map (1 / ·)))) := by
  have hsome : ((diagonal d).mul m).inverse?.isSome :=
    (isSome_inverse?_diagonal_mul hd m).mpr (Option.isSome_iff_exists.mpr ⟨n, h⟩)
  refine inverse?_eq_some_of_mul hsome ?_
  calc
    ((diagonal d).mul m).mul (n.mul (diagonal (d.map (1 / ·))))
      = (diagonal d).mul ((m.mul n).mul (diagonal (d.map (1 / ·)))) := by
        rw [mul_mul, mul_mul]
    _ = identity := by
        rw [mul_of_inverse? h, identity_mul, diagonal_mul_reciprocals hd]

/-- Gains alone have an inverse, however small they are. -/
theorem inverse?_diagonal : (diagonal d).inverse? = some (diagonal (d.map (1 / ·))) := by
  have h := inverse?_diagonal_mul hd inverse?_identity
  rwa [mul_identity, identity_mul] at h

omit hd in
/-- Gains alone have an inverse exactly if none of them is zero. -/
theorem isSome_inverse?_diagonal_iff : (diagonal d).inverse?.isSome ↔ ∀ c, d.get c ≠ 0 := by
  constructor
  · intro h
    obtain ⟨n, hn⟩ := Option.isSome_iff_exists.mp h
    have hdet := determinant_ne_zero_of_inverse? hn
    rw [determinant_diagonal] at hdet
    simp only [mul_ne_zero_iff] at hdet
    obtain ⟨⟨⟨hr, hg⟩, hb⟩, ha⟩ := hdet
    rintro (_ | _ | _ | _) <;> assumption
  · intro h
    rw [inverse?_diagonal h]
    rfl

end Real

/-- Gains do not change whether a matrix has an inverse, and the inverse with gains is the one
without, after the reciprocal gains. Whenever there is an inverse it is one from both sides, and with
the offset moved back it undoes every affine map of the matrix and is undone by it. -/
theorem inverse?_regardless_of_gain (m : ColorMatrix ℝ) :
    (∀ d : Rgba ℝ, (∀ c, d.get c ≠ 0) →
      (((diagonal d).mul m).inverse?.isSome ↔ m.inverse?.isSome) ∧
        ∀ n, m.inverse? = some n →
          ((diagonal d).mul m).inverse? = some (n.mul (diagonal (d.map (1 / ·))))) ∧
      ∀ n, m.inverse? = some n →
        m.mul n = identity ∧ n.mul m = identity ∧ ∀ offset : Rgba ℝ,
          let f : Affine ℝ := ⟨m, offset⟩
          let back : Affine ℝ := ⟨n, (n.apply offset).map (- ·)⟩
          f.inverse = .ok back ∧ ∀ p, back.apply (f.apply p) = p ∧ f.apply (back.apply p) = p := by
  constructor
  · intro d hd
    exact ⟨isSome_inverse?_diagonal_mul hd m, fun n hn => inverse?_diagonal_mul hd hn⟩
  · intro n hn
    refine ⟨mul_of_inverse? hn, inverse?_mul hn, ?_⟩
    intro offset f back
    have hback : f.inverse? = some back := Affine.inverse?_eq_some_iff.mpr ⟨hn, rfl⟩
    refine ⟨Affine.inverse_eq_ok_iff.mpr hback, fun p => ?_⟩
    exact ⟨Affine.inverse?_apply_apply hback p, Affine.apply_inverse?_apply hback p⟩

/-- A mixture of two channels has an inverse, and with gains as well that bring its determinant far
below the tolerance. -/
theorem inverse?_regardless_of_gain_mixed :
    let d : Rgba ℝ := ⟨1e-5, 1e-5, 1e-5, 1⟩
    let mixed : ColorMatrix ℝ := ⟨⟨1 / 2, 1 / 2, 0, 0⟩, ⟨0, 1, 0, 0⟩, ⟨0, 0, 1, 0⟩, ⟨0, 0, 0, 1⟩⟩
    let back : ColorMatrix ℝ := ⟨⟨2, -1, 0, 0⟩, ⟨0, 1, 0, 0⟩, ⟨0, 0, 1, 0⟩, ⟨0, 0, 0, 1⟩⟩
    (∀ c, d.get c ≠ 0) ∧ mixed.inverse? = some back ∧
      ((diagonal d).mul mixed).inverse? = some (back.mul (diagonal (d.map (1 / ·)))) ∧
        mixed.mul back = identity := by
  intro d mixed back
  have hd : ∀ c, d.get c ≠ 0 := by
    intro c
    cases c <;> norm_num [d, Rgba.get]
  have hmul : mixed.mul back = identity := by
    ext <;> norm_num [mixed, back, mul, transpose, identity, diagonal, Rgba.map, Rgba.dot, Rgba.fill]
  have hrow (c : Channel) :
      0 < (mixed.get c).dot (mixed.get c) ∧ (mixed.get c).dot (mixed.get c) ≤ 1 := by
    cases c <;> norm_num [mixed, Rgba.get, Rgba.dot]
  have hdet : 1e-12 ≤ |determinant mixed| := by
    norm_num [mixed, determinant, transpose, Rgba.map]
  have hsome := isSome_inverse?_of_rows (fun c => (hrow c).1) (fun c => (hrow c).2) hdet
  have hback : mixed.inverse? = some back := inverse?_eq_some_of_mul hsome hmul
  obtain ⟨hgain, hboth⟩ := inverse?_regardless_of_gain mixed
  exact ⟨hd, hback, (hgain d hd).2 back hback, (hboth back hback).1⟩

end ColorMatrix

end ColorChain
