import ColorChain.Color.Derived
import ColorChain.Proofs.Chain.Undo
import ColorChain.Proofs.Color.Inverse
import Mathlib.Tactic.LinearCombination

/-!
# Saturation

The matrix of a saturation moves every color channel away from the luma by a factor, and a grade does
the same without a matrix. Where the weights sum to one the luma stays where it is, so that a second
saturation moves the channels away from the same value and the two factors are multiplied.
-/

namespace ColorChain

universe u

namespace Affine

section Ring

variable {R : Type u} [CommRing R]

/-- Every color channel moved from the luma, whatever the weights sum to. -/
theorem apply_saturation (s : R) (l : Rgb R) (p : Rgba R) :
    (saturation s l).apply p =
      p.setRgb (p.rgb.map fun x => p.rgb.dot l + s * (x - p.rgb.dot l)) := by
  ext <;> simp only [saturation, ofMatrix, apply, ColorMatrix.apply, Rgba.map, Rgba.zip, Rgba.dot,
    Rgba.fill, Rgba.setRgb, Rgba.rgb, Rgb.withAlpha, Rgb.map, Rgb.dot] <;> ring

theorem determinant_saturation (s : R) (l : Rgb R) :
    ColorMatrix.determinant (saturation s l).matrix =
      s ^ 2 * ((l.r + l.g + l.b) * (1 - s) + s) := by
  simp only [saturation, ofMatrix, ColorMatrix.determinant, ColorMatrix.transpose, Rgba.map, Rgb.map]
  ring

variable {l : Rgb R} (hl : l.r + l.g + l.b = 1)

include hl

/-- Saturation keeps the luma. -/
theorem dot_apply_saturation (s : R) (p : Rgba R) :
    ((saturation s l).apply p).rgb.dot l = p.rgb.dot l := by
  simp only [apply_saturation, Rgba.setRgb, Rgba.rgb, Rgb.withAlpha, Rgb.map, Rgb.dot]
  linear_combination (1 - s) * (p.r * l.r + p.g * l.g + p.b * l.b) * hl

/-- Both saturations move the channels away from one luma. -/
theorem saturation_after_saturation (s t : R) :
    (saturation t l).after (saturation s l) = saturation (s * t) l := by
  refine eq_of_apply fun p => ?_
  rw [apply_after, apply_saturation t, dot_apply_saturation hl, apply_saturation, apply_saturation]
  ext <;> simp only [Rgba.setRgb, Rgba.rgb, Rgb.withAlpha, Rgb.map] <;> ring

omit hl in
theorem saturation_one (l : Rgb R) : saturation 1 l = identity := by
  refine eq_identity_of_apply fun p => ?_
  rw [apply_saturation]
  ext <;> simp [Rgba.setRgb, Rgba.rgb, Rgb.withAlpha, Rgb.map]

end Ring

section Real

variable {l : Rgb ℝ} (hl : l.r + l.g + l.b = 1)

include hl

/-- A saturation that has an inverse is not zero, and is undone by the reciprocal one. -/
theorem eq_saturation_of_inverse? {s : ℝ} {f : Affine ℝ} (h : (saturation s l).inverse? = some f) :
    f = saturation (1 / s) l := by
  have hs : s ≠ 0 := by
    rintro rfl
    have hdet := ColorMatrix.determinant_ne_zero_of_inverse? (inverse?_eq_some_iff.mp h).1
    exact hdet (by simp [determinant_saturation])
  refine eq_of_inverse?_of_after h ?_
  rw [saturation_after_saturation hl, mul_one_div_cancel hs, saturation_one]

end Real

/-- The saturation of a grade is that of the matrix with the weights of Rec. 709. -/
theorem apply_saturation_rec709 (s : ℝ) (p : Rgba ℝ) :
    (saturation s (rec709 : Rgb ℝ)).apply p = p.setRgb (Grade.saturate ℝ s p.rgb) :=
  apply_saturation s rec709 p

/-- A grade is its tone and the matrix of its saturation. -/
theorem run_grade (g : Grade ℝ) (p : Rgba ℝ) :
    Chain.run (Stages.standard : Stages ℝ ℝ) [.grade g] p =
      (saturation g.saturation (rec709 : Rgb ℝ)).apply (p.setRgb (g.tone p.rgb)) :=
  (apply_saturation_rec709 g.saturation (p.setRgb (g.tone p.rgb))).symm

/-- The matrix moves every color channel away from the luma, as a grade does after its tone. With
weights that sum to one, saturations in a row are multiplied, the luma is kept, and a saturation that
has an inverse is undone by the reciprocal one. -/
theorem saturation_law :
    (∀ (s : ℝ) (l : Rgb ℝ) (p : Rgba ℝ), (saturation s l).apply p =
        p.setRgb (p.rgb.map fun x => luma l p.rgb + s * (x - luma l p.rgb))) ∧
      (∀ (s : ℝ) (p : Rgba ℝ),
        (saturation s (rec709 : Rgb ℝ)).apply p = p.setRgb (Grade.saturate ℝ s p.rgb)) ∧
      (∀ (g : Grade ℝ) (p : Rgba ℝ),
        Chain.run (Stages.standard : Stages ℝ ℝ) [.grade g] p =
          (saturation g.saturation (rec709 : Rgb ℝ)).apply (p.setRgb (g.tone p.rgb))) ∧
      ∀ l : Rgb ℝ, l.r + l.g + l.b = 1 →
        (∀ s t, (saturation t l).after (saturation s l) = saturation (s * t) l) ∧
          (∀ s p, luma l ((saturation s l).apply p).rgb = luma l p.rgb) ∧
            ∀ s f, (saturation s l).inverse = .ok f → f = saturation (1 / s) l := by
  refine ⟨apply_saturation, apply_saturation_rec709, run_grade, fun l hl => ?_⟩
  refine ⟨saturation_after_saturation hl, dot_apply_saturation hl, fun s f h => ?_⟩
  exact eq_saturation_of_inverse? hl (inverse_eq_ok_iff.mp h)

/-- Half the saturation has an inverse, which is twice the saturation. -/
theorem saturation_law_half :
    let l : Rgb ℝ := rec709
    l.r + l.g + l.b = 1 ∧
      (saturation 3 l).after (saturation (1 / 2) l) = saturation (1 / 2 * 3) l ∧
        ∃ f, (saturation (1 / 2) l).inverse = .ok f ∧ f = saturation (1 / (1 / 2)) l := by
  intro l
  have hl : l.r + l.g + l.b = 1 := by norm_num [l, rec709]
  let m := (saturation (1 / 2) l).matrix
  have hrow (c : Channel) : 0 < (m.get c).dot (m.get c) ∧ (m.get c).dot (m.get c) ≤ 1 := by
    cases c <;> norm_num [m, l, saturation, ofMatrix, rec709, Rgba.get, Rgb.map, Rgba.dot]
  have hdet : 1e-12 ≤ |ColorMatrix.determinant m| := by
    rw [determinant_saturation, hl]
    norm_num
  have hsome : (saturation (1 / 2) l).inverse?.isSome := by
    rw [inverse?, Option.isSome_map]
    exact ColorMatrix.isSome_inverse?_of_rows (fun c => (hrow c).1) (fun c => (hrow c).2) hdet
  obtain ⟨f, hf⟩ := Option.isSome_iff_exists.mp hsome
  have hok := inverse_eq_ok_iff.mpr hf
  obtain ⟨-, -, -, hlaw⟩ := saturation_law
  obtain ⟨hafter, -, hback⟩ := hlaw l hl
  exact ⟨hl, hafter (1 / 2) 3, f, hok, hback (1 / 2) f hok⟩

end Affine

end ColorChain
