import ColorChain.Proofs.Color.Linear
import ColorChain.Proofs.Real
import ColorChain.Transform.Compile
import Mathlib.Tactic.FieldSimp

/-!
# Inverses of affine maps

The matrix of cofactors, transposed, times the matrix is the determinant on the diagonal, from either
side. Where the test for an inverse passes over the real numbers the determinant is not zero, so the
inverse that is given undoes the map and is undone by it.
-/

namespace ColorChain

universe u

namespace ColorMatrix

section Ring

variable {R : Type u} [CommRing R]

/-- Every element of the matrix times the same factor. -/
def scaled (m : ColorMatrix R) (s : R) : ColorMatrix R := m.map (·.map (· * s))

theorem mul_scaled (m n : ColorMatrix R) (s : R) : m.mul (n.scaled s) = (m.mul n).scaled s := by
  ext <;> simp only [mul, scaled, transpose, Rgba.map, Rgba.dot] <;> ring

theorem scaled_mul (m n : ColorMatrix R) (s : R) : (m.scaled s).mul n = (m.mul n).scaled s := by
  ext <;> simp only [mul, scaled, transpose, Rgba.map, Rgba.dot] <;> ring

theorem mul_cofactors (m : ColorMatrix R) :
    m.mul (transpose (cofactors m)) = diagonal (Rgba.fill (determinant m)) := by
  ext <;> simp only [mul, cofactors, determinant, transpose, diagonal, Rgba.map, Rgba.dot,
    Rgba.zip, Rgba.fill] <;> ring

theorem cofactors_mul (m : ColorMatrix R) :
    (transpose (cofactors m)).mul m = diagonal (Rgba.fill (determinant m)) := by
  ext <;> simp only [mul, cofactors, determinant, transpose, diagonal, Rgba.map, Rgba.dot,
    Rgba.zip, Rgba.fill] <;> ring

/-- What undoes a matrix from the left is what undoes it from the right. -/
theorem eq_of_mul_eq_identity {l m n : ColorMatrix R} (hl : l.mul m = identity)
    (hn : m.mul n = identity) : l = n :=
  calc
    l = l.mul (m.mul n) := by rw [hn, mul_identity]
    _ = n := by rw [← mul_mul, hl, identity_mul]

/-- The sum that the inverse divides by is the determinant. -/
theorem sum_cofactors (m : ColorMatrix R) :
    m.r.r * (cofactors m).r.r + m.g.r * (cofactors m).g.r + m.b.r * (cofactors m).b.r
      + m.a.r * (cofactors m).a.r = determinant m := by
  simp only [cofactors, determinant, transpose, Rgba.map, Rgba.zip]
  ring

end Ring

section Field

variable {K : Type u} [Field K]

theorem adjugateInverse_eq (m : ColorMatrix K) :
    adjugateInverse m = (transpose (cofactors m)).scaled (1 / determinant m) := by
  rw [← sum_cofactors]
  rfl

theorem scaled_determinant {d : K} (h : d ≠ 0) :
    (diagonal (Rgba.fill d)).scaled (1 / d) = identity := by
  ext <;> simp [scaled, diagonal, identity, Rgba.map, Rgba.fill, h]

theorem mul_adjugateInverse {m : ColorMatrix K} (h : determinant m ≠ 0) :
    m.mul (adjugateInverse m) = identity := by
  rw [adjugateInverse_eq, mul_scaled, mul_cofactors, scaled_determinant h]

theorem adjugateInverse_mul {m : ColorMatrix K} (h : determinant m ≠ 0) :
    (adjugateInverse m).mul m = identity := by
  rw [adjugateInverse_eq, scaled_mul, cofactors_mul, scaled_determinant h]

end Field

section Real

/-- The lengths of the rows multiply to something that is not negative. -/
theorem rowNorms_nonneg (m : ColorMatrix ℝ) : 0 ≤ rowNorms m := by
  have hn (row : Rgba ℝ) : 0 ≤ rowNorm row := Real.sqrt_nonneg _
  exact mul_nonneg (mul_nonneg (mul_nonneg (hn _) (hn _)) (hn _)) (hn _)

/-- The test for an inverse over the real numbers, where no determinant is NaN. -/
theorem isSome_inverse?_iff {m : ColorMatrix ℝ} :
    m.inverse?.isSome ↔ rowNorms m ≠ 0 ∧ 1e-12 * rowNorms m ≤ |determinant m| := by
  have habs : Elementary.abs (determinant m) = |determinant m| := rfl
  simp only [inverse?, habs, Option.isSome_ite', Bool.or_eq_true, beq_iff_eq, decide_eq_true_eq,
    not_or, not_lt, ne_eq]

/-- A determinant that passes the test for an inverse lies away from zero. -/
theorem determinant_ne_zero_of_inverse? {m n : ColorMatrix ℝ} (h : m.inverse? = some n) :
    determinant m ≠ 0 := by
  obtain ⟨hnorms, hle⟩ := isSome_inverse?_iff.mp (Option.isSome_iff_exists.mpr ⟨n, h⟩)
  have hpos : 0 < rowNorms m := lt_of_le_of_ne (rowNorms_nonneg m) hnorms.symm
  have hlow : 0 < 1e-12 * rowNorms m := mul_pos (by norm_num) hpos
  exact abs_pos.mp (hlow.trans_le hle)

theorem eq_adjugateInverse_of_inverse? {m n : ColorMatrix ℝ} (h : m.inverse? = some n) :
    n = adjugateInverse m := by
  simp only [inverse?, Option.ite_none_left_eq_some] at h
  exact (Option.some.inj h.2).symm

theorem mul_of_inverse? {m n : ColorMatrix ℝ} (h : m.inverse? = some n) :
    m.mul n = identity := by
  rw [eq_adjugateInverse_of_inverse? h]
  exact mul_adjugateInverse (determinant_ne_zero_of_inverse? h)

theorem inverse?_mul {m n : ColorMatrix ℝ} (h : m.inverse? = some n) :
    n.mul m = identity := by
  rw [eq_adjugateInverse_of_inverse? h]
  exact adjugateInverse_mul (determinant_ne_zero_of_inverse? h)

/-- With rows that are no longer than one, a determinant as large as the tolerance passes the test. -/
theorem isSome_inverse?_of_rows {m : ColorMatrix ℝ} (hpos : ∀ c, 0 < (m.get c).dot (m.get c))
    (hle : ∀ c, (m.get c).dot (m.get c) ≤ 1) (hdet : 1e-12 ≤ |determinant m|) :
    m.inverse?.isSome := by
  have hlow (c : Channel) : 0 < rowNorm (m.get c) := Real.sqrt_pos.mpr (hpos c)
  have hhigh (c : Channel) : rowNorm (m.get c) ≤ 1 := Real.sqrt_le_one.mpr (hle c)
  have hnorms : 0 < rowNorms m :=
    mul_pos (mul_pos (mul_pos (hlow .r) (hlow .g)) (hlow .b)) (hlow .a)
  have hrg : rowNorm m.r * rowNorm m.g ≤ 1 := mul_le_one₀ (hhigh .r) (hlow .g).le (hhigh .g)
  have hrgb : rowNorm m.r * rowNorm m.g * rowNorm m.b ≤ 1 :=
    mul_le_one₀ hrg (hlow .b).le (hhigh .b)
  have hnorms_le : rowNorms m ≤ 1 := mul_le_one₀ hrgb (hlow .a).le (hhigh .a)
  refine isSome_inverse?_iff.mpr ⟨hnorms.ne', ?_⟩
  linarith

/-- A matrix that passes the test has what undoes it as its inverse. -/
theorem inverse?_eq_some_of_mul {m n : ColorMatrix ℝ} (h : m.inverse?.isSome)
    (hn : m.mul n = identity) : m.inverse? = some n := by
  obtain ⟨l, hl⟩ := Option.isSome_iff_exists.mp h
  rw [hl, eq_of_mul_eq_identity (inverse?_mul hl) hn]

end Real

end ColorMatrix

namespace Affine

/-- The inverse of a map has the inverse matrix, and its offset is the old one moved back. -/
theorem inverse?_eq_some_iff {f g : Affine ℝ} :
    f.inverse? = some g ↔
      f.matrix.inverse? = some g.matrix ∧ g.offset = (g.matrix.apply f.offset).map (- ·) := by
  obtain ⟨matrix, offset⟩ := g
  simp only [inverse?, Option.map_eq_some_iff, mk.injEq]
  constructor
  · rintro ⟨inverse, h, rfl, rfl⟩
    exact ⟨h, rfl⟩
  · rintro ⟨h, rfl⟩
    exact ⟨matrix, h, rfl, rfl⟩

/-- A map followed by its inverse. -/
theorem inverse?_apply_apply {f g : Affine ℝ} (h : f.inverse? = some g) (p : Rgba ℝ) :
    g.apply (f.apply p) = p := by
  obtain ⟨hm, ho⟩ := inverse?_eq_some_iff.mp h
  have hp : g.matrix.apply (f.matrix.apply p) = p := by
    rw [← ColorMatrix.apply_mul, ColorMatrix.inverse?_mul hm, ColorMatrix.apply_identity]
  rw [apply, apply, ColorMatrix.apply_add, hp, ho]
  ext <;> simp [Rgba.zip, Rgba.map]

/-- A map after its inverse. -/
theorem apply_inverse?_apply {f g : Affine ℝ} (h : f.inverse? = some g) (p : Rgba ℝ) :
    f.apply (g.apply p) = p := by
  obtain ⟨hm, ho⟩ := inverse?_eq_some_iff.mp h
  have hp : f.matrix.apply (g.matrix.apply p) = p := by
    rw [← ColorMatrix.apply_mul, ColorMatrix.mul_of_inverse? hm, ColorMatrix.apply_identity]
  have hq : f.matrix.apply ((g.matrix.apply f.offset).map (- ·)) = f.offset.map (- ·) := by
    have hback : f.matrix.apply (g.matrix.apply f.offset) = f.offset := by
      rw [← ColorMatrix.apply_mul, ColorMatrix.mul_of_inverse? hm, ColorMatrix.apply_identity]
    rw [ColorMatrix.apply_neg, hback]
  rw [apply, apply, ColorMatrix.apply_add, hp, ho, hq]
  ext <;> simp [Rgba.zip, Rgba.map]

theorem inverse_eq_ok_iff {f g : Affine ℝ} : f.inverse = .ok g ↔ f.inverse? = some g := by
  unfold Affine.inverse
  cases f.inverse? <;> simp

/-- The inverse of a map, if there is one, is the map that undoes it. -/
theorem eq_of_inverse?_of_after {f g h : Affine ℝ} (hg : f.inverse? = some g)
    (hh : h.after f = identity) : g = h := by
  have hfg : f.after g = identity :=
    eq_identity_of_apply fun p => by rw [apply_after, apply_inverse?_apply hg]
  calc
    g = (h.after f).after g := by rw [hh, identity_after]
    _ = h := by rw [after_after, hfg, after_identity]

end Affine

end ColorChain
