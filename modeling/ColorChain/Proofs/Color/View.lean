import ColorChain.Color.Derived
import ColorChain.Proofs.Color.Linear
import Mathlib.Algebra.Field.Basic
import Mathlib.Algebra.Order.Ring.Rat
import Mathlib.Tactic.NormNum

/-!
# Views of channels

A view is one of three maps: the identity, alpha in every channel, or a gray of the shown colors. The
gray is a sum with weights that were divided by their sum, so that they sum to one: what is gray already
stays as it is, and a view of a view is the view. Weights that have no sum to divide by give no such
mean; without a shown color they are all zero, and the gray is black.
-/

namespace ColorChain

universe u

section Ring

variable {R : Type u} [CommRing R]

def Rgb.total (p : Rgb R) : R := p.r + p.g + p.b

theorem Rgb.dot_fill (p : Rgb R) (x : R) : p.dot (Rgb.fill x) = p.total * x := by
  simp only [dot, fill, total]
  ring

namespace Affine

/-- The weighted sum of the colors in every color channel, alpha kept. -/
def gray (weights : Rgb R) : Affine R :=
  .ofMatrix ⟨weights.withAlpha 0, weights.withAlpha 0, weights.withAlpha 0, ⟨0, 0, 0, 1⟩⟩

/-- Alpha in every channel. -/
def opacity : Affine R := .ofMatrix (Rgba.fill ⟨0, 0, 0, 1⟩)

theorem apply_gray (w : Rgb R) (p : Rgba R) :
    (gray w).apply p = p.setRgb (Rgb.fill (w.dot p.rgb)) := by
  ext <;> simp [gray, ofMatrix, apply, ColorMatrix.apply, Rgba.map, Rgba.zip, Rgba.fill, Rgba.dot,
    Rgba.setRgb, Rgba.rgb, Rgb.withAlpha, Rgb.fill, Rgb.dot]

theorem apply_opacity (p : Rgba R) : opacity.apply p = Rgba.fill p.a := by
  ext <;> simp [opacity, ofMatrix, apply, ColorMatrix.apply, Rgba.map, Rgba.zip, Rgba.fill,
    Rgba.dot]

/-- A gray of gray is the same gray where the weights sum to one, and black where there are none. -/
theorem gray_after_gray {w : Rgb R} (h : w.total = 1 ∨ w = Rgb.fill 0) :
    (gray w).after (gray w) = gray w := by
  refine eq_of_apply fun p => ?_
  have htwice : w.dot (Rgb.fill (w.dot p.rgb)) = w.dot p.rgb := by
    rw [Rgb.dot_fill]
    rcases h with h | rfl
    · rw [h, one_mul]
    · simp [Rgb.dot, Rgb.fill]
  rw [apply_after, apply_gray w p, apply_gray]
  exact congrArg (fun x => p.setRgb (Rgb.fill x)) htwice

theorem opacity_after_opacity : (opacity : Affine R).after opacity = opacity :=
  eq_of_apply fun p => by rw [apply_after, apply_opacity p, apply_opacity]; rfl

end Affine

end Ring

section Field

variable {K : Type u} [Field K]

theorem Rgb.dot_map_div (w p : Rgb K) (s : K) : (w.map (· / s)).dot p = w.dot p / s := by
  simp only [map, dot]
  ring

namespace Affine

variable {shown : Rgba Bool} {weights : Rgb K}

/-- The weights of the shown colors, with zero for the others. -/
def shownWeights (shown : Rgba Bool) (weights : Rgb K) : Rgb K :=
  shown.rgb.zip (fun shown w => if shown then w else 0) weights

/-- No color is shown, or the weights of the shown ones have a sum other than zero. -/
def HasMean (shown : Rgba Bool) (weights : Rgb K) : Prop :=
  shown.rgb = Rgb.fill false ∨ (shownWeights shown weights).total ≠ 0

variable [BEq K]

/-- The weights of the shown colors over their sum, if it is not zero. -/
def meanWeights (shown : Rgba Bool) (weights : Rgb K) : Rgb K :=
  let kept := shownWeights shown weights
  if kept.total == 0 then kept else kept.map (· / kept.total)

/-- The three kinds of views. -/
theorem view_cases (shown : Rgba Bool) (weights : Rgb K) :
    (shown = Rgba.fill true ∧ view shown weights = identity) ∨
      (shown.a = true ∧ view shown weights = opacity) ∨
        (shown.a = false ∧ view shown weights = gray (meanWeights shown weights)) := by
  obtain ⟨r, g, b, a⟩ := shown
  cases a with
  | false => exact .inr (.inr ⟨rfl, by simp only [view, Bool.and_false]; rfl⟩)
  | true =>
    cases hcolors : r && g && b with
    | false => exact .inr (.inl ⟨rfl, by simp [view, hcolors, opacity]⟩)
    | true =>
      simp only [Bool.and_eq_true] at hcolors
      obtain ⟨⟨rfl, rfl⟩, rfl⟩ := hcolors
      exact .inl ⟨rfl, rfl⟩

/-- Hidden colors do not weigh. -/
theorem dot_meanWeights_congr {p q : Rgb K} (hr : shown.r = true → p.r = q.r)
    (hg : shown.g = true → p.g = q.g) (hb : shown.b = true → p.b = q.b) :
    (meanWeights shown weights).dot p = (meanWeights shown weights).dot q := by
  have hone {seen : Bool} {w x y : K} (h : seen = true → x = y) :
      (if seen then w else 0) * x = (if seen then w else 0) * y := by
    cases seen with
    | false => simp
    | true => rw [h rfl]
  have hkept : (shownWeights shown weights).dot p = (shownWeights shown weights).dot q :=
    congrArg₂ (· + ·) (congrArg₂ (· + ·) (hone hr) (hone hg)) (hone hb)
  by_cases hsum : (shownWeights shown weights).total == 0
  · simp only [meanWeights, hsum, if_true, hkept]
  · simp only [meanWeights, hsum, Bool.false_eq_true, if_false, Rgb.dot_map_div, hkept]

variable [LawfulBEq K]

theorem total_meanWeights (h : (shownWeights shown weights).total ≠ 0) :
    (meanWeights shown weights).total = 1 := by
  simp only [meanWeights, beq_iff_eq, h, if_false]
  rw [Rgb.total] at h ⊢
  simp only [Rgb.map, ← add_div]
  exact div_self h

theorem meanWeights_of_hidden (h : shown.rgb = Rgb.fill false) :
    meanWeights shown weights = Rgb.fill 0 := by
  have hkept : shownWeights shown weights = Rgb.fill 0 := by
    rw [shownWeights, h]
    rfl
  simp [meanWeights, hkept, Rgb.total, Rgb.fill]

/-! ### Laws of views -/

theorem view_after_view (h : HasMean shown weights) :
    (view shown weights).after (view shown weights) = view shown weights := by
  rcases view_cases shown weights with ⟨-, hview⟩ | ⟨-, hview⟩ | ⟨-, hview⟩ <;> rw [hview]
  · exact identity_after _
  · exact opacity_after_opacity
  · exact gray_after_gray (h.symm.imp total_meanWeights meanWeights_of_hidden)

omit [LawfulBEq K] in
theorem rgb_apply_view (h : shown ≠ Rgba.fill true) (p : Rgba K) :
    ∃ y, ((view shown weights).apply p).rgb = Rgb.fill y := by
  rcases view_cases shown weights with ⟨hall, -⟩ | ⟨-, hview⟩ | ⟨-, hview⟩
  · exact absurd hall h
  · exact ⟨p.a, by rw [hview, apply_opacity]; rfl⟩
  · exact ⟨(meanWeights shown weights).dot p.rgb, by rw [hview, apply_gray]; rfl⟩

omit [LawfulBEq K] in
/-- A view shows nothing of a hidden color. -/
theorem apply_view_congr {p q : Rgba K} (h : ∀ c, shown.get c = true → p.get c = q.get c)
    (ha : p.a = q.a) : (view shown weights).apply p = (view shown weights).apply q := by
  rcases view_cases shown weights with ⟨hall, -⟩ | ⟨-, hview⟩ | ⟨-, hview⟩
  · have hpq : p = q := Rgba.eq_of_get fun c => h c (by rw [hall, Rgba.get_fill])
    rw [hpq]
  · rw [hview, apply_opacity, apply_opacity, ha]
  · have hdot : (meanWeights shown weights).dot p.rgb = (meanWeights shown weights).dot q.rgb :=
      dot_meanWeights_congr (h .r) (h .g) (h .b)
    rw [hview, apply_gray, apply_gray, hdot, Rgba.setRgb, Rgba.setRgb, ha]

theorem apply_view_fill (h : HasMean shown weights) (ha : shown.a = false)
    (hsome : shown.rgb ≠ Rgb.fill false) (x y : K) :
    (view shown weights).apply ((Rgb.fill x).withAlpha y) = (Rgb.fill x).withAlpha y := by
  have htotal := total_meanWeights (h.resolve_left hsome)
  rcases view_cases shown weights with ⟨hall, -⟩ | ⟨hopacity, -⟩ | ⟨-, hview⟩
  · cases hall ▸ ha
  · cases hopacity.symm.trans ha
  · calc
      (view shown weights).apply ((Rgb.fill x).withAlpha y)
        = (Rgb.fill ((meanWeights shown weights).dot (Rgb.fill x))).withAlpha y := by
          rw [hview, apply_gray]; rfl
      _ = (Rgb.fill x).withAlpha y := by rw [Rgb.dot_fill, htotal, one_mul]

/-- A view of a view is the view, wherever the shown colors have a mean or there are none. Unless all
channels are shown it is gray, and it shows nothing of a hidden color. What is gray is shown as it is
if a color is shown and alpha is not. -/
theorem view_projects (shown : Rgba Bool) (weights : Rgb K) :
    let f := view shown weights
    (HasMean shown weights → f.after f = f ∧ ∀ p, f.apply (f.apply p) = f.apply p) ∧
      (shown ≠ Rgba.fill true → ∀ p, ∃ y, (f.apply p).rgb = Rgb.fill y) ∧
      (∀ p q, (∀ c, shown.get c = true → p.get c = q.get c) → p.a = q.a →
        f.apply p = f.apply q) ∧
      (HasMean shown weights → shown.a = false → shown.rgb ≠ Rgb.fill false →
        ∀ v a, f.apply ((Rgb.fill v).withAlpha a) = (Rgb.fill v).withAlpha a) := by
  refine ⟨fun h => ⟨view_after_view h, fun p => ?_⟩, rgb_apply_view, fun p q => apply_view_congr,
    apply_view_fill⟩
  rw [← apply_after, view_after_view h]

/-- Red and green are shown with weights of different signs. -/
theorem view_projects_negative :
    let shown : Rgba Bool := ⟨true, true, false, false⟩
    let weights : Rgb ℚ := ⟨3, -1, 7⟩
    let f := view shown weights
    HasMean shown weights ∧ f.after f = f ∧ f.matrix.r = ⟨3 / 2, -1 / 2, 0, 0⟩ ∧
      f.apply ⟨4, 2, 9, 1 / 2⟩ = f.apply ⟨4, 2, 0, 1 / 2⟩ ∧
        f.apply ⟨6, 6, 6, 1 / 2⟩ = ⟨6, 6, 6, 1 / 2⟩ := by
  intro shown weights f
  have hmean : HasMean shown weights := by
    refine .inr ?_
    norm_num [shown, weights, shownWeights, Rgb.total, Rgb.zip, Rgba.rgb]
  obtain ⟨htwice, -, hhidden, hgray⟩ := view_projects shown weights
  refine ⟨hmean, (htwice hmean).1, ?_, hhidden _ _ ?_ rfl, hgray hmean rfl (by decide) 6 (1 / 2)⟩
  · norm_num [f, view, shown, weights, ofMatrix, Rgb.zip, Rgb.map, Rgba.rgb, Rgb.withAlpha]
  · rintro (_ | _ | _ | _) h
    · rfl
    · rfl
    · cases h
    · cases h

end Affine

end Field

end ColorChain
