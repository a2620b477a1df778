import ColorChain.Proofs.Chain.Simplify
import ColorChain.Proofs.Real

/-!
# Operations that undo each other

Over the real numbers every operation is one to one on a domain, and there the operation of the other
direction brings the pixel back. A chain brings a pixel back if every operation in it met a pixel of
its domain on the way.
-/

namespace ColorChain

/-- The predicate holds of every channel. -/
def Rgb.All {α : Type} (P : α → Prop) (p : Rgb α) : Prop := P p.r ∧ P p.g ∧ P p.b

/-- The predicate holds of every channel. -/
def Rgba.All {α : Type} (P : α → Prop) (p : Rgba α) : Prop := P p.r ∧ P p.g ∧ P p.b ∧ P p.a

/-- Pixels on which an operation loses nothing. A logarithm loses what it raises to the log floor, an
antilogarithm what falls below it, a grade what it raises to zero. -/
def Op.InDomain : Op ℝ ℝ → Rgba ℝ → Prop
  | .affine _, _ => True
  | .exponent _, p => p.All (0 < ·)
  | .log _, p => p.rgb.All (logFloor ≤ ·)
  | .antilog base, p => p.rgb.All (logFloor ≤ base ^ ·)
  | .grade settings, p =>
      ((p.rgb.zip (· * ·) settings.slope).zip (· + ·) settings.offset).All (0 ≤ ·)
  | .ungrade settings, p => (Grade.desaturate ℝ settings.saturation p.rgb).All (0 ≤ ·)

namespace Chain

/-- Every operation of the chain meets a pixel of its domain. -/
def InDomain : Chain ℝ ℝ → Rgba ℝ → Prop
  | [], _ => True
  | op :: chain, p => op.InDomain p ∧ InDomain chain (op.run Stages.standard p)

theorem inDomain_append (first next : Chain ℝ ℝ) (p : Rgba ℝ) :
    InDomain (first ++ next) p ↔
      InDomain first p ∧ InDomain next (run Stages.standard first p) := by
  induction first generalizing p with
  | nil => simp [InDomain, run_nil]
  | cons op first ih => simp only [List.cons_append, InDomain, run_cons, ih, and_assoc]

/-- The chain `back` brings every pixel back on which `there` loses nothing. -/
def Undoes (back there : Chain ℝ ℝ) : Prop :=
  ∀ p, InDomain there p → run Stages.standard back (run Stages.standard there p) = p

theorem undoes_nil : Undoes [] [] := fun _ _ => rfl

/-- What was done last is undone first. -/
theorem Undoes.append {back there back' there' : Chain ℝ ℝ} (h : Undoes back there)
    (h' : Undoes back' there') : Undoes (back' ++ back) (there ++ there') := by
  intro p hp
  obtain ⟨hthere, hthere'⟩ := (inDomain_append there there' p).mp hp
  rw [run_append, run_append, h' _ hthere', h p hthere]

/-- One operation undoes one other if it does so on its domain. -/
theorem undoes_singleton {back there : Op ℝ ℝ}
    (h : ∀ p, there.InDomain p →
      back.run Stages.standard (there.run Stages.standard p) = p) :
    Undoes [back] [there] := by
  intro p hp
  exact h p hp.1

end Chain

open Chain

/-! ## Affine maps and exponents -/

theorem undoes_affine {back there : Affine ℝ} (h : ∀ p, back.apply (there.apply p) = p) :
    Undoes [.affine back] [.affine there] :=
  undoes_singleton fun p _ => h p

/-- Exponents undo exponents whose products with them are one. -/
theorem undoes_exponent {back there : Rgba ℝ} (h : there.zip (· * ·) back = Rgba.fill 1) :
    Undoes [.exponent back] [.exponent there] := by
  have hpow {x y z : ℝ} (hx : 0 < x) (hyz : y * z = 1) : (x ^ y) ^ z = x := by
    rw [← Real.rpow_mul hx.le, hyz, Real.rpow_one]
  simp only [Rgba.zip, Rgba.fill, Rgba.mk.injEq] at h
  obtain ⟨hr, hg, hb, ha⟩ := h
  refine undoes_singleton fun p hp => ?_
  obtain ⟨hpr, hpg, hpb, hpa⟩ := hp
  ext
  · exact hpow hpr hr
  · exact hpow hpg hg
  · exact hpow hpb hb
  · exact hpow hpa ha

/-! ## Logarithms -/

section Log

variable {base : ℝ} (hpos : 0 < base) (hone : base ≠ 1)

include hpos hone

/-- The power of the base to the logarithm of a value at or above the log floor. -/
theorem rpow_log_max {x : ℝ} (hx : logFloor ≤ x) :
    base ^ (Real.log (max x logFloor) / Real.log base) = x := by
  have hx0 : 0 < x := logFloor_pos.trans_le hx
  have hl := Real.log_ne_zero_of_pos_of_ne_one hpos hone
  rw [max_eq_left hx, Real.rpow_def_of_pos hpos, mul_div_cancel₀ _ hl, Real.exp_log hx0]

/-- The logarithm of a power of the base at or above the log floor. -/
theorem log_max_rpow {x : ℝ} (hx : logFloor ≤ base ^ x) :
    Real.log (max (base ^ x) logFloor) / Real.log base = x := by
  have hl := Real.log_ne_zero_of_pos_of_ne_one hpos hone
  rw [max_eq_left hx, Real.log_rpow hpos, mul_div_cancel_right₀ _ hl]

theorem undoes_log : Undoes [.antilog base] [.log base] := by
  refine undoes_singleton fun p hp => ?_
  obtain ⟨hr, hg, hb⟩ := hp
  ext
  · exact rpow_log_max hpos hone hr
  · exact rpow_log_max hpos hone hg
  · exact rpow_log_max hpos hone hb
  · rfl

theorem undoes_antilog : Undoes [.log base] [.antilog base] := by
  refine undoes_singleton fun p hp => ?_
  obtain ⟨hr, hg, hb⟩ := hp
  ext
  · exact log_max_rpow hpos hone hr
  · exact log_max_rpow hpos hone hg
  · exact log_max_rpow hpos hone hb
  · rfl

end Log

/-! ## Grades -/

namespace Grade

theorem luma_rec709 (p : Rgb ℝ) :
    luma (rec709 : Rgb ℝ) p = p.r * 0.2126 + p.g * 0.7152 + p.b * 0.0722 := rfl

/-- Saturation keeps the luma, because the weights sum to one. -/
theorem luma_saturate (s : ℝ) (p : Rgb ℝ) :
    luma (rec709 : Rgb ℝ) (saturate ℝ s p) = luma (rec709 : Rgb ℝ) p := by
  simp only [luma_rec709, saturate, Rgb.map]
  ring

theorem luma_desaturate (s : ℝ) (p : Rgb ℝ) :
    luma (rec709 : Rgb ℝ) (desaturate ℝ s p) = luma (rec709 : Rgb ℝ) p := by
  simp only [luma_rec709, desaturate, Rgb.map]
  ring

theorem desaturate_saturate {s : ℝ} (hs : s ≠ 0) (p : Rgb ℝ) :
    desaturate ℝ s (saturate ℝ s p) = p := by
  have h := luma_saturate s p
  rw [desaturate, h]
  ext <;> simp only [saturate, Rgb.map] <;> field_simp <;> ring

theorem saturate_desaturate {s : ℝ} (hs : s ≠ 0) (p : Rgb ℝ) :
    saturate ℝ s (desaturate ℝ s p) = p := by
  have h := luma_desaturate s p
  rw [saturate, h]
  ext <;> simp only [desaturate, Rgb.map] <;> field_simp <;> ring

/-- A grade that can be undone: nothing it divides by is zero. -/
structure Invertible (g : Grade ℝ) : Prop where
  slope : g.slope.All (· ≠ 0)
  power : g.power.All (· ≠ 0)
  saturation : g.saturation ≠ 0

theorem rpow_rpow_one_div {x power : ℝ} (hx : 0 ≤ x) (hp : power ≠ 0) :
    (max (x ^ power) 0) ^ (1 / power) = x := by
  rw [max_eq_left (Real.rpow_nonneg hx power), ← Real.rpow_mul hx, mul_one_div_cancel hp,
    Real.rpow_one]

/-- One channel through slope, offset and power and back. -/
theorem untone_tone_channel {x slope offset power : ℝ} (hs : slope ≠ 0) (hp : power ≠ 0)
    (hx : 0 ≤ x * slope + offset) :
    ((max ((max (x * slope + offset) 0) ^ power) 0) ^ (1 / power) - offset) / slope = x := by
  rw [max_eq_left hx, rpow_rpow_one_div hx hp, add_sub_cancel_right, mul_div_cancel_right₀ x hs]

/-- One channel back through slope, offset and power and forth again. -/
theorem tone_untone_channel {x slope offset power : ℝ} (hs : slope ≠ 0) (hp : power ≠ 0)
    (hx : 0 ≤ x) :
    (max (((max x 0) ^ (1 / power) - offset) / slope * slope + offset) 0) ^ power = x := by
  have hroot : 0 ≤ x ^ (1 / power) := Real.rpow_nonneg hx _
  rw [max_eq_left hx, div_mul_cancel₀ _ hs, sub_add_cancel, max_eq_left hroot,
    ← Real.rpow_mul hx, one_div_mul_cancel hp, Real.rpow_one]

theorem untone_tone {g : Grade ℝ} (hg : g.Invertible) {p : Rgb ℝ}
    (hp : ((p.zip (· * ·) g.slope).zip (· + ·) g.offset).All (0 ≤ ·)) :
    g.untone (g.tone p) = p := by
  obtain ⟨hsr, hsg, hsb⟩ := hg.slope
  obtain ⟨her, heg, heb⟩ := hg.power
  obtain ⟨hr, hg', hb⟩ := hp
  ext
  · exact untone_tone_channel hsr her hr
  · exact untone_tone_channel hsg heg hg'
  · exact untone_tone_channel hsb heb hb

theorem tone_untone {g : Grade ℝ} (hg : g.Invertible) {p : Rgb ℝ} (hp : p.All (0 ≤ ·)) :
    g.tone (g.untone p) = p := by
  obtain ⟨hsr, hsg, hsb⟩ := hg.slope
  obtain ⟨her, heg, heb⟩ := hg.power
  obtain ⟨hr, hg', hb⟩ := hp
  ext
  · exact tone_untone_channel hsr her hr
  · exact tone_untone_channel hsg heg hg'
  · exact tone_untone_channel hsb heb hb

end Grade

theorem undoes_grade {g : Grade ℝ} (hg : g.Invertible) : Undoes [.ungrade g] [.grade g] := by
  refine undoes_singleton fun p hp => ?_
  change p.setRgb (g.unapply ℝ (g.apply ℝ p.rgb)) = p
  rw [Grade.unapply, Grade.apply, Grade.desaturate_saturate hg.saturation, Grade.untone_tone hg hp,
    Rgba.setRgb, Rgba.rgb_withAlpha]

theorem undoes_ungrade {g : Grade ℝ} (hg : g.Invertible) : Undoes [.grade g] [.ungrade g] := by
  refine undoes_singleton fun p hp => ?_
  change p.setRgb (g.apply ℝ (g.unapply ℝ p.rgb)) = p
  rw [Grade.apply, Grade.unapply, Grade.tone_untone hg hp, Grade.saturate_desaturate hg.saturation,
    Rgba.setRgb, Rgba.rgb_withAlpha]

end ColorChain
