import ColorChain.Color.Affine
import Mathlib.Tactic.LinearCombination
import Mathlib.Tactic.Ring

/-!
# Affine maps over a commutative ring

Read without rounding, a matrix acts linearly on a pixel, the product of two matrices is the action
of one after the other, and the fused affine map is the composition of the two maps it was fused
from.
-/

namespace ColorChain

universe u

attribute [ext] Rgb Rgba

variable {R : Type u} [CommRing R]

namespace ColorMatrix

theorem apply_identity (p : Rgba R) : identity.apply p = p := by
  ext <;> simp [apply, identity, diagonal, Rgba.map, Rgba.dot, Rgba.fill]

/-- A matrix acts on the sum of two pixels channel by channel. -/
theorem apply_add (m : ColorMatrix R) (p q : Rgba R) :
    m.apply (p.zip (· + ·) q) = (m.apply p).zip (· + ·) (m.apply q) := by
  ext <;> simp only [apply, Rgba.map, Rgba.zip, Rgba.dot] <;> ring

theorem apply_neg (m : ColorMatrix R) (p : Rgba R) :
    m.apply (p.map (- ·)) = (m.apply p).map (- ·) := by
  ext <;> simp only [apply, Rgba.map, Rgba.dot] <;> ring

theorem apply_mul (m n : ColorMatrix R) (p : Rgba R) :
    (m.mul n).apply p = m.apply (n.apply p) := by
  ext <;> simp only [apply, mul, transpose, Rgba.map, Rgba.dot] <;> ring

theorem mul_mul (l m n : ColorMatrix R) : (l.mul m).mul n = l.mul (m.mul n) := by
  ext <;> simp only [mul, transpose, Rgba.map, Rgba.dot] <;> ring

theorem identity_mul (m : ColorMatrix R) : identity.mul m = m := by
  ext <;> simp [mul, identity, diagonal, transpose, Rgba.map, Rgba.dot, Rgba.fill]

theorem mul_identity (m : ColorMatrix R) : m.mul identity = m := by
  ext <;> simp [mul, identity, diagonal, transpose, Rgba.map, Rgba.dot, Rgba.fill]

end ColorMatrix

namespace Affine

theorem apply_identity (p : Rgba R) : identity.apply p = p := by
  simp only [apply, identity, ColorMatrix.apply_identity]
  ext <;> simp [Rgba.zip, Rgba.fill]

/-- A map of the color channels scales and moves each of them and keeps alpha. -/
theorem apply_onColor (scale offset : Rgb R) (p : Rgba R) :
    (onColor scale offset).apply p =
      p.setRgb ((scale.zip (· * ·) p.rgb).zip (· + ·) offset) := by
  ext <;> simp [apply, onColor, ColorMatrix.apply, ColorMatrix.diagonal, Rgba.map, Rgba.zip,
    Rgba.dot, Rgba.setRgb, Rgba.rgb, Rgb.withAlpha, Rgb.zip]

theorem apply_onColor_fill (scale offset : R) (p : Rgba R) :
    (onColor (Rgb.fill scale) (Rgb.fill offset)).apply p =
      p.setRgb (p.rgb.map fun x => scale * x + offset) :=
  apply_onColor _ _ p

/-- Scaling and moving the color channels, and the same backwards. -/
theorem apply_onColor_apply_onColor {scale offset scale' offset' : R} (hs : scale' * scale = 1)
    (ho : scale' * offset + offset' = 0) (p : Rgba R) :
    (onColor (Rgb.fill scale') (Rgb.fill offset')).apply
      ((onColor (Rgb.fill scale) (Rgb.fill offset)).apply p) = p := by
  have hx (x : R) : scale' * (scale * x + offset) + offset' = x := by
    linear_combination x * hs + ho
  rw [apply_onColor_fill, apply_onColor_fill]
  ext
  · exact hx p.r
  · exact hx p.g
  · exact hx p.b
  · rfl

/-- The offset of the first map passes through the matrix of the next one. -/
theorem apply_after (next first : Affine R) (p : Rgba R) :
    (next.after first).apply p = next.apply (first.apply p) := by
  have hm := ColorMatrix.apply_mul next.matrix first.matrix p
  have ha := ColorMatrix.apply_add next.matrix (first.matrix.apply p) first.offset
  simp only [apply, after, hm, ha]
  ext <;> simp only [Rgba.zip] <;> ring

/-- Fused maps do not tell in which order they were fused. -/
theorem after_after (h g f : Affine R) : (h.after g).after f = h.after (g.after f) := by
  have hm := ColorMatrix.mul_mul h.matrix g.matrix f.matrix
  have ha := ColorMatrix.apply_add h.matrix (g.matrix.apply f.offset) g.offset
  simp only [after, hm, ha, ColorMatrix.apply_mul, mk.injEq, true_and]
  ext <;> simp only [Rgba.zip] <;> ring

theorem identity_after (f : Affine R) : identity.after f = f := by
  simp only [after, identity, ColorMatrix.identity_mul, ColorMatrix.apply_identity]
  congr 1
  ext <;> simp [Rgba.zip, Rgba.fill]

theorem after_identity (f : Affine R) : f.after identity = f := by
  simp only [after, identity, ColorMatrix.mul_identity]
  congr 1
  ext <;> simp [ColorMatrix.apply, Rgba.map, Rgba.dot, Rgba.zip, Rgba.fill]

/-- A map is told by what it does: black shows the offset, and the pixels with one channel show the
columns of the matrix. -/
theorem eq_of_apply {f g : Affine R} (h : ∀ p, f.apply p = g.apply p) : f = g := by
  obtain ⟨m, o⟩ := f
  obtain ⟨m', o'⟩ := g
  have hoffset : o = o' := by
    have hblack := h (Rgba.fill 0)
    simp only [apply, ColorMatrix.apply, Rgba.map, Rgba.dot, Rgba.zip, Rgba.fill, mul_zero,
      add_zero, zero_add] at hblack
    exact hblack
  subst hoffset
  have hr := h ⟨1, 0, 0, 0⟩
  have hg := h ⟨0, 1, 0, 0⟩
  have hb := h ⟨0, 0, 1, 0⟩
  have ha := h ⟨0, 0, 0, 1⟩
  simp only [apply, ColorMatrix.apply, Rgba.map, Rgba.dot, Rgba.zip, mul_one, mul_zero, add_zero,
    zero_add, Rgba.mk.injEq, add_left_inj] at hr hg hb ha
  have hmatrix : m = m' := by
    ext <;> simp only [hr, hg, hb, ha]
  rw [hmatrix]

/-- Only the identity leaves every pixel as it is. -/
theorem eq_identity_of_apply {f : Affine R} (h : ∀ p, f.apply p = p) : f = identity :=
  eq_of_apply fun p => (h p).trans (apply_identity p).symm

theorem isIdentity_identity [BEq R] [LawfulBEq R] : (identity : Affine R).isIdentity := by
  simp [isIdentity, identity]

/-- The test for the identity finds nothing but the identity map. -/
theorem eq_identity_of_isIdentity [BEq R] [LawfulBEq R] {f : Affine R} (h : f.isIdentity) :
    f = identity := by
  simp only [isIdentity, Bool.and_eq_true, beq_iff_eq] at h
  obtain ⟨matrix, offset⟩ := f
  obtain ⟨rfl, rfl⟩ := h
  rfl

end Affine

end ColorChain
