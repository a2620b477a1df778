import ColorChain.Chain.Simplify
import ColorChain.Proofs.Color.Gain

/-!
# Fitting one range onto another

A fit exists exactly if the old range is wide in every channel, and it is the one map that keeps the
channels apart and takes the ends of the old range to those of the new one. So fits in a row are a fit,
and what undoes a fit is the fit back. The fit of a range of colors onto the unit interval is a scale
and an offset of the color channels, and so is its inverse.
-/

namespace ColorChain.Affine

/-- No channel of the range is a single value. -/
def Range.IsWide (range : Range ℝ) : Prop := ∀ c, range.least.get c ≠ range.greatest.get c

theorem Range.IsWide.width_ne_zero {range : Range ℝ} (h : range.IsWide) (c : Channel) :
    range.greatest.get c - range.least.get c ≠ 0 :=
  sub_ne_zero.mpr (h c).symm

/-- No channel is found to be flat exactly if every channel is wide. -/
theorem Range.flat?_eq_none_iff {range : Range ℝ} : range.flat? = none ↔ range.IsWide := by
  have hall (c : Channel) : c ∈ [Channel.r, .g, .b, .a] := by
    cases c <;> simp
  simp only [flat?, List.find?_eq_none, beq_iff_eq, sub_eq_zero]
  constructor
  · exact fun h c heq => h c (hall c) heq.symm
  · exact fun h c _ heq => h c heq.symm

/-! ## Maps of ranges -/

/-- The map keeps the channels apart and takes the ends of the old range to those of the new one. -/
structure Fits (f : Affine ℝ) (old new : Range ℝ) : Prop where
  apart : ∃ factors, f.matrix = ColorMatrix.diagonal factors
  least : f.apply old.least = new.least
  greatest : f.apply old.greatest = new.greatest

theorem get_apply_of_diagonal {f : Affine ℝ} {factors : Rgba ℝ}
    (h : f.matrix = ColorMatrix.diagonal factors) (p : Rgba ℝ) (c : Channel) :
    (f.apply p).get c = factors.get c * p.get c + f.offset.get c := by
  rw [apply, h, Rgba.get_zip, ColorMatrix.apply, Rgba.get_map]
  cases c <;> simp [ColorMatrix.diagonal, Rgba.get, Rgba.dot]

namespace Fits

variable {f g : Affine ℝ} {a b c : Range ℝ}

/-- What becomes of a channel is told by the channel alone. -/
theorem get_apply_congr (hf : f.Fits a b) {p q : Rgba ℝ} {k : Channel} (h : p.get k = q.get k) :
    (f.apply p).get k = (f.apply q).get k := by
  obtain ⟨s, hs⟩ := hf.apart
  rw [get_apply_of_diagonal hs, get_apply_of_diagonal hs, h]

/-- A factor is the ratio of the two widths. -/
theorem factor_mul_width (hf : f.Fits a b) {factors : Rgba ℝ}
    (h : f.matrix = ColorMatrix.diagonal factors) (k : Channel) :
    factors.get k * (a.greatest.get k - a.least.get k) = b.greatest.get k - b.least.get k := by
  rw [← hf.least, ← hf.greatest, get_apply_of_diagonal h, get_apply_of_diagonal h]
  ring

/-- The ends of every channel tell its factor, and one of them its offset. -/
theorem unique (hf : f.Fits a b) (hg : g.Fits a b) (ha : a.IsWide) : f = g := by
  obtain ⟨s, hs⟩ := hf.apart
  obtain ⟨t, ht⟩ := hg.apart
  have hfactors : s = t := by
    refine Rgba.eq_of_get fun k => mul_right_cancel₀ (ha.width_ne_zero k) ?_
    rw [hf.factor_mul_width hs, hg.factor_mul_width ht]
  have hoffset : f.offset = g.offset := by
    refine Rgba.eq_of_get fun k => add_left_cancel (a := s.get k * a.least.get k) ?_
    rw [← get_apply_of_diagonal hs, hf.least, hfactors, ← get_apply_of_diagonal ht, hg.least]
  calc
    f = ⟨f.matrix, f.offset⟩ := rfl
    _ = ⟨g.matrix, g.offset⟩ := by rw [hs, ht, hfactors, hoffset]
    _ = g := rfl

/-- A map of one range followed by a map of the range it leads to. -/
theorem after (hf : f.Fits a b) (hg : g.Fits b c) : (g.after f).Fits a c := by
  obtain ⟨s, hs⟩ := hf.apart
  obtain ⟨t, ht⟩ := hg.apart
  refine ⟨⟨t.zip (· * ·) s, ?_⟩, ?_, ?_⟩
  · rw [Affine.after, hs, ht, ColorMatrix.diagonal_mul_diagonal]
  · rw [apply_after, hf.least, hg.least]
  · rw [apply_after, hf.greatest, hg.greatest]

theorem isWide_iff (hf : f.Fits a b) (ha : a.IsWide) {factors : Rgba ℝ}
    (h : f.matrix = ColorMatrix.diagonal factors) : b.IsWide ↔ ∀ k, factors.get k ≠ 0 := by
  refine forall_congr' fun k => ?_
  rw [ne_comm, ← sub_ne_zero, ← hf.factor_mul_width h, mul_ne_zero_iff_right (ha.width_ne_zero k)]

/-- What undoes the map takes the ends back. -/
theorem of_inverse? (hf : f.Fits a b) (hg : f.inverse? = some g) : g.Fits b a where
  apart := by
    obtain ⟨s, hs⟩ := hf.apart
    have hmatrix := (inverse?_eq_some_iff.mp hg).1
    rw [hs] at hmatrix
    have hfactors := ColorMatrix.isSome_inverse?_diagonal_iff.mp
      (Option.isSome_iff_exists.mpr ⟨_, hmatrix⟩)
    rw [ColorMatrix.inverse?_diagonal hfactors] at hmatrix
    exact ⟨_, (Option.some.inj hmatrix).symm⟩
  least := by rw [← hf.least, inverse?_apply_apply hg]
  greatest := by rw [← hf.greatest, inverse?_apply_apply hg]

/-- A map of a wide range can be undone exactly if it leads to a wide range, and what undoes it is the
map back. -/
theorem inverse?_eq_some_iff (hf : f.Fits a b) (ha : a.IsWide) :
    f.inverse? = some g ↔ b.IsWide ∧ g.Fits b a := by
  obtain ⟨s, hs⟩ := hf.apart
  have hwide : f.inverse?.isSome ↔ b.IsWide := by
    rw [Affine.inverse?, Option.isSome_map, hs, ColorMatrix.isSome_inverse?_diagonal_iff,
      hf.isWide_iff ha hs]
  constructor
  · intro hg
    exact ⟨hwide.mp (Option.isSome_iff_exists.mpr ⟨g, hg⟩), hf.of_inverse? hg⟩
  · rintro ⟨hb, hg⟩
    obtain ⟨back, hback⟩ := Option.isSome_iff_exists.mp (hwide.mpr hb)
    rw [hback, (hf.of_inverse? hback).unique hg hb]

end Fits

section

variable {old new : Range ℝ} {f : Affine ℝ}

theorem isWide_of_fit (h : fit old new = .ok f) : old.IsWide := by
  unfold fit at h
  split at h
  · cases h
  · next hflat => exact Range.flat?_eq_none_iff.mp hflat

/-- The quotient of the widths and the cross product of the ends, over the old width, take the ends to
the ends. -/
theorem exists_fit (new : Range ℝ) (h : old.IsWide) : ∃ f, fit old new = .ok f ∧ f.Fits old new := by
  rw [fit, Range.flat?_eq_none_iff.mpr h]
  refine ⟨_, rfl, ⟨_, rfl⟩, Rgba.eq_of_get fun k => ?_, Rgba.eq_of_get fun k => ?_⟩ <;>
  · have hwidth := h.width_ne_zero k
    rw [get_apply_of_diagonal rfl]
    simp only [Rgba.get_zip]
    field_simp
    ring

/-- The fit of two ranges is the one map that keeps the channels apart and takes ends to ends. -/
theorem fit_eq_ok_iff : fit old new = .ok f ↔ old.IsWide ∧ f.Fits old new := by
  constructor
  · intro h
    have hold := isWide_of_fit h
    obtain ⟨f', hf', hfits⟩ := exists_fit new hold
    rw [h, Except.ok.injEq] at hf'
    exact ⟨hold, hf' ▸ hfits⟩
  · rintro ⟨hold, hf⟩
    obtain ⟨f', hf', hfits⟩ := exists_fit new hold
    rw [hf', hfits.unique hf hold]

end

/-! ## A range of colors -/

/-- A range of colors, the same in each of them, with alpha kept. -/
def Range.ofColor (least greatest : ℝ) : Range ℝ :=
  ⟨(Rgb.fill least).withAlpha 0, (Rgb.fill greatest).withAlpha 1⟩

/-- The unit interval in every channel. -/
def Range.unit : Range ℝ := ⟨Rgba.fill 0, Rgba.fill 1⟩

theorem Range.isWide_ofColor {least greatest : ℝ} (h : least ≠ greatest) :
    (ofColor least greatest).IsWide := by
  intro c
  cases c with
  | a => exact zero_ne_one
  | _ => exact h

/-- A scale and an offset of the color channels that take the ends of a range of colors to the ends of
another. -/
theorem fits_onColor {scale offset least greatest least' greatest' : ℝ}
    (hleast : scale * least + offset = least') (hgreatest : scale * greatest + offset = greatest') :
    (onColor (Rgb.fill scale) (Rgb.fill offset)).Fits (.ofColor least greatest)
      (.ofColor least' greatest') := by
  refine ⟨⟨_, rfl⟩, ?_, ?_⟩ <;> rw [apply_onColor_fill]
  · exact congrArg (fun x => (Rgb.fill x).withAlpha 0) hleast
  · exact congrArg (fun x => (Rgb.fill x).withAlpha 1) hgreatest

section

variable {least greatest : ℝ} (h : least ≠ greatest)

include h

theorem fits_ofColor_unit :
    (onColor (Rgb.fill (1 / (greatest - least))) (Rgb.fill (-least / (greatest - least)))).Fits
      (.ofColor least greatest) .unit := by
  have hwidth : greatest - least ≠ 0 := sub_ne_zero.mpr h.symm
  apply fits_onColor <;> field_simp <;> ring

theorem fit_ofColor_unit : fit (.ofColor least greatest) .unit =
    .ok (onColor (Rgb.fill (1 / (greatest - least))) (Rgb.fill (-least / (greatest - least)))) :=
  fit_eq_ok_iff.mpr ⟨Range.isWide_ofColor h, fits_ofColor_unit h⟩

theorem inverse?_fit_ofColor_unit :
    (onColor (Rgb.fill (1 / (greatest - least))) (Rgb.fill (-least / (greatest - least)))).inverse?
      = some (onColor (Rgb.fill (greatest - least)) (Rgb.fill least)) := by
  have hback : (onColor (Rgb.fill (greatest - least)) (Rgb.fill least)).Fits .unit
      (.ofColor least greatest) := by
    apply fits_onColor <;> ring
  exact ((fits_ofColor_unit h).inverse?_eq_some_iff (Range.isWide_ofColor h)).mpr
    ⟨Range.isWide_ofColor zero_ne_one, hback⟩

end

/-! ## The law of fits -/

/-- A fit takes each end of the old range to the same end of the new one, in every channel by itself. A
fit after a fit is the fit of the first range onto the last, fused or not, and the inverse of a fit is
the fit back, each of them if there is the other. -/
theorem fit_law (a b : Range ℝ) :
    ((∃ f, fit a b = .ok f) ↔ ∀ k, a.least.get k ≠ a.greatest.get k) ∧
      ∀ f, fit a b = .ok f →
        (∀ p k, p.get k = a.least.get k → (f.apply p).get k = b.least.get k) ∧
        (∀ p k, p.get k = a.greatest.get k → (f.apply p).get k = b.greatest.get k) ∧
        ((∀ k, b.least.get k ≠ b.greatest.get k) → ∀ c, ∃ g, fit b c = .ok g ∧
          fit a c = .ok (g.after f) ∧
          Chain.fuse [.affine f, .affine g] = ([.affine (g.after f)] : Chain ℝ ℝ)) ∧
        ∀ g, f.inverse = .ok g ↔ fit b a = .ok g := by
  constructor
  · constructor
    · rintro ⟨f, hf⟩
      exact isWide_of_fit hf
    · intro ha
      obtain ⟨f, hf, -⟩ := exists_fit b ha
      exact ⟨f, hf⟩
  · intro f hf
    obtain ⟨ha, hfits⟩ := fit_eq_ok_iff.mp hf
    refine ⟨fun p k h => ?_, fun p k h => ?_, fun hb c => ?_, fun g => ?_⟩
    · rw [hfits.get_apply_congr h, hfits.least]
    · rw [hfits.get_apply_congr h, hfits.greatest]
    · obtain ⟨g, hg, hgfits⟩ := exists_fit c hb
      exact ⟨g, hg, fit_eq_ok_iff.mpr ⟨ha, hfits.after hgfits⟩, rfl⟩
    · rw [inverse_eq_ok_iff, hfits.inverse?_eq_some_iff ha, fit_eq_ok_iff]

/-- A fit that turns the blue channel around, followed by one onto the unit interval, and undone. -/
theorem fit_law_reversed :
    let a : Range ℝ := ⟨Rgba.fill 0, ⟨1, 2, 4, 1⟩⟩
    let b : Range ℝ := ⟨⟨-1, 0, 1, 0⟩, ⟨1, 1, 0, 2⟩⟩
    ∃ f, fit a b = .ok f ∧ f.apply ⟨0, 2, 4, 0⟩ = ⟨-1, 1, 0, 0⟩ ∧
      (∃ g, fit b .unit = .ok g ∧ fit a .unit = .ok (g.after f)) ∧
        ∃ back, f.inverse = .ok back ∧ fit b a = .ok back := by
  intro a b
  have ha (k : Channel) : a.least.get k ≠ a.greatest.get k := by
    cases k <;> norm_num [a, Rgba.get, Rgba.fill]
  have hb (k : Channel) : b.least.get k ≠ b.greatest.get k := by
    cases k <;> norm_num [b, Rgba.get]
  obtain ⟨f, hf⟩ := (fit_law a b).1.mpr ha
  obtain ⟨hleast, hgreatest, hafter, hback⟩ := (fit_law a b).2 f hf
  obtain ⟨back, hfit⟩ := (fit_law b a).1.mpr hb
  obtain ⟨g, hg, hfused, -⟩ := hafter hb .unit
  refine ⟨f, hf, Rgba.eq_of_get fun k => ?_, ⟨g, hg, hfused⟩, back, (hback back).mpr hfit, hfit⟩
  cases k with
  | r | a => exact hleast _ _ rfl
  | g | b => exact hgreatest _ _ rfl

end ColorChain.Affine
