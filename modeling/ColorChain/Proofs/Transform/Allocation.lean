import ColorChain.Proofs.Color.Fit
import ColorChain.Proofs.Transform.Restore
import ColorChain.Proofs.Transform.Validity
import Mathlib.Analysis.SpecialFunctions.Log.Base

/-!
# What an allocation computes

An allocation is lowered to up to three operations: a shift, a logarithm to base two, and the map of
its span onto the unit interval, or the same backwards. Over the real numbers they compute one formula
of each color channel. For a uniform allocation the single map is the fit of the span onto the unit
interval, and the map of the other direction is the inverse of that fit.
-/

namespace ColorChain

open Chain

namespace Allocation

variable (a : Allocation ℝ)

/-- What an allocation makes of the value of a color channel, as it stands or undone. -/
noncomputable def remap (inverted : Bool) (x : ℝ) : ℝ :=
  let least := a.span.least
  let greatest := a.span.greatest
  let offset := a.span.offset
  match a.encoding, inverted with
  | .uniform, false => (x - least) / (greatest - least)
  | .uniform, true => x * (greatest - least) + least
  | .lg2, false => (Real.logb 2.0 (max (x + offset) logFloor) - least) / (greatest - least)
  | .lg2, true => 2.0 ^ (x * (greatest - least) + least) - offset

section Operations

variable (p : Rgba ℝ)

theorem apply_toUnit (least width : ℝ) :
    (Affine.onColor (Rgb.fill (1 / width)) (Rgb.fill (-least / width))).apply p =
      p.setRgb (p.rgb.map fun x => (x - least) / width) := by
  have hx (x : ℝ) : 1 / width * x + -least / width = (x - least) / width := by ring
  simp only [Affine.apply_onColor_fill, hx]

theorem apply_fromUnit (least width : ℝ) :
    (Affine.onColor (Rgb.fill width) (Rgb.fill least)).apply p =
      p.setRgb (p.rgb.map fun x => x * width + least) := by
  simp only [Affine.apply_onColor_fill, mul_comm width]

theorem apply_shift (offset : ℝ) : (Affine.onColor (Rgb.fill 1) (Rgb.fill offset)).apply p =
    p.setRgb (p.rgb.map fun x => x + offset) := by
  simp only [Affine.apply_onColor_fill, one_mul]

theorem standard_log (base : ℝ) : (Stages.standard : Stages ℝ ℝ).log base p =
    p.setRgb (p.rgb.map fun x => Real.logb base (max x logFloor)) := rfl

theorem standard_antilog (base : ℝ) : (Stages.standard : Stages ℝ ℝ).antilog base p =
    p.setRgb (p.rgb.map fun x => base ^ x) := rfl

end Operations

/-- The operations of an allocation compute its formula in every color channel and keep alpha. -/
theorem run_chain (inverted : Bool) (p : Rgba ℝ) :
    run Stages.standard (a.chain inverted) p = p.setRgb (p.rgb.map (a.remap inverted)) := by
  cases he : a.encoding <;> cases inverted <;>
    simp only [chain, he, run_cons, run_nil, Op.run, standard_isExact.affine]
  case uniform.false =>
    rw [apply_toUnit]
    ext <;> simp only [remap, he, Rgba.setRgb, Rgb.withAlpha, Rgb.map]
  case uniform.true =>
    rw [apply_fromUnit]
    ext <;> simp only [remap, he, Rgba.setRgb, Rgb.withAlpha, Rgb.map]
  case lg2.false =>
    rw [apply_shift, standard_log, apply_toUnit]
    ext <;> simp only [remap, he, Rgba.setRgb, Rgba.rgb, Rgb.withAlpha, Rgb.map]
  case lg2.true =>
    rw [apply_shift, standard_antilog, apply_fromUnit]
    ext <;> simp only [remap, he, Rgba.setRgb, Rgba.rgb, Rgb.withAlpha, Rgb.map, sub_eq_add_neg]

end Allocation

namespace Transform

variable {resolve : Resolver ℝ} {d own : Direction}

/-- A leaf compiles to its own operations, in its effective direction. -/
theorem compile_atom {a : Atom ℝ} {block : Chain ℝ ℝ} (hd : d ≠ .unknown) (hown : own ≠ .unknown)
    (h : a.chain resolve (d.combine own = .inverse) = .ok block) :
    (atom own a).compile resolve d = .ok block := by
  have hschedule : (atom own a).schedule d = [.apply a (d.combine own = .inverse)] := by
    cases d <;> cases own <;> simp_all [schedule, oriented, Direction.combine]
  refine compile_eq_ok_iff.mpr ⟨hd, lower_eq_ok_iff.mpr ⟨[block], ?_, by simp⟩⟩
  rw [hschedule]
  exact .cons h .nil

/-- A valid allocation compiles in every direction that is known, to operations that compute its
formula, simplified or not. A uniform one compiles to the fit of its span onto the unit interval, with
alpha kept, or to the inverse of that fit. -/
theorem compile_allocation_computes {a : Allocation ℝ} (hd : d ≠ .unknown)
    (h : (atom own (.allocation a)).validate = .ok ()) :
    let inverted : Bool := d.combine own = .inverse
    ∃ ops : Chain ℝ ℝ, (atom own (.allocation a)).compile resolve d = .ok ops ∧
      (∀ effort, (atom own (.allocation a)).chain resolve d effort = .ok (ops.optimize effort) ∧
        ∀ p, run Stages.standard (ops.optimize effort) p =
          p.setRgb (p.rgb.map (a.remap inverted))) ∧
      (a.encoding = .uniform → ∃ fit back : Affine ℝ,
        Affine.fit (.ofColor a.span.least a.span.greatest) .unit = .ok fit ∧
          fit.inverse = .ok back ∧ ops = [.affine (if inverted then back else fit)]) := by
  intro inverted
  obtain ⟨hown, hvalid⟩ := validate_atom_iff.mp h
  have hspan : a.span.least ≠ a.span.greatest := Allocation.span_ne_of_validate hvalid
  have hops : (Atom.allocation a).chain resolve inverted = .ok (a.chain inverted : Chain ℝ ℝ) :=
    map_eq_ok_iff.mpr ⟨(), mapError_eq_ok_iff.mpr hvalid, rfl⟩
  have hcompile := compile_atom hd hown hops
  refine ⟨a.chain inverted, hcompile, fun effort => ⟨chain_eq_ok_iff.mpr ⟨_, hcompile, rfl⟩, ?_⟩, ?_⟩
  · intro p
    rw [run_optimize standard_isExact, Allocation.run_chain]
  · intro he
    refine ⟨_, _, Affine.fit_ofColor_unit hspan,
      Affine.inverse_eq_ok_iff.mpr (Affine.inverse?_fit_ofColor_unit hspan), ?_⟩
    cases hinverted : inverted <;> simp [Allocation.chain, he]

/-- Four stops around one, undone: a quarter of the span is black, three quarters are two stops up.
The same span without stops is one fit. -/
theorem compile_allocation_computes_stops :
    let stops : Allocation ℝ := { encoding := .lg2, vars := [-1, 3, 1] }
    let even : Allocation ℝ := { encoding := .uniform, vars := [-1, 3, 1] }
    let t (own : Direction) (a : Allocation ℝ) : Transform ℝ := .atom own (.allocation a)
    let resolve : Resolver ℝ := fun _ => .error .document
    ((t .inverse stops).validate = .ok () ∧
      ∃ ops : Chain ℝ ℝ, (t .inverse stops).compile resolve .forward = .ok ops ∧
        run Stages.standard (ops.optimize .lossless) ⟨1 / 4, 1 / 2, 3 / 4, 1 / 2⟩ =
          ⟨0, 1, 3, 1 / 2⟩) ∧
      ((t .forward even).validate = .ok () ∧ ∃ fit : Affine ℝ,
        Affine.fit (.ofColor (-1) 3) .unit = .ok fit ∧
          (t .forward even).compile resolve .forward = .ok ([.affine fit] : Chain ℝ ℝ)) := by
  intro stops even t resolve
  have hvalid {own : Direction} (hown : own ≠ .unknown) (encoding : Encoding) :
      (t own { encoding, vars := [-1, 3, 1] }).validate = .ok () := by
    refine validate_atom_iff.mpr ⟨hown, ?_⟩
    norm_num [Atom.validate, Allocation.validate, checkVarCount, Allocation.span, Except.bind]
  have hstops : (t .inverse stops).validate = .ok () := hvalid (by decide) .lg2
  have heven : (t .forward even).validate = .ok () := hvalid (by decide) .uniform
  obtain ⟨ops, hops, hrun, -⟩ := @compile_allocation_computes resolve .forward _ _ (by decide) hstops
  obtain ⟨fits, hfits, -, huniform⟩ :=
    @compile_allocation_computes resolve .forward _ _ (by decide) heven
  obtain ⟨fit, back, hfit, -, rfl⟩ := huniform rfl
  refine ⟨⟨hstops, ops, hops, ?_⟩, heven, fit, hfit, hfits⟩
  rw [(hrun .lossless).2]
  ext <;> norm_num [stops, Allocation.remap, Allocation.span, Direction.combine, Rgba.setRgb,
    Rgba.rgb, Rgb.withAlpha, Rgb.map]

end Transform

end ColorChain
