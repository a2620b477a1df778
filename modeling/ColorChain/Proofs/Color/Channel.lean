import ColorChain.Chain.Op
import ColorChain.Color.Derived
import ColorChain.Proofs.Number.Special

/-!
# What reaches a channel

An affine map of the color channels holds zeros between the channels, and so do the maps fused from
such maps, apart from elements that became NaN. Every zero still takes part in the sum of its row: it
yields NaN from a channel that is not finite, and it decides on the sign of a sum that is zero. This
says exactly when a channel is what its own element and its own offset make of it.
-/

namespace ColorChain

open Number

universe u

instance : Fintype Channel := ⟨{.r, .g, .b, .a}, by rintro (_ | _ | _ | _) <;> decide⟩

theorem Channel.exists_other (c c' : Channel) : ∃ k, c ≠ k ∧ k ≠ c' := by
  revert c c'
  decide

/-- A function of every color channel is read off the channel alone. -/
theorem Rgba.get_setRgb_map {α : Type u} (c : Channel) (f : α → α) {p q : Rgba α}
    (h : p.get c = q.get c) :
    (p.setRgb (p.rgb.map f)).get c = (q.setRgb (q.rgb.map f)).get c := by
  cases c with
  | a => exact h
  | _ => exact congrArg f h

/-! ## Sums over the channels -/

/-- The sum of the channels, from red to alpha. -/
def Rgba.total (p : Rgba Float) : Float := p.r + p.g + p.b + p.a

theorem ColorMatrix.get_mul (m n : ColorMatrix Float) (c c' : Channel) :
    ((m.mul n).get c).get c' = ((m.get c).zip (· * ·) (n.transpose.get c')).total := by
  cases c <;> cases c' <;> rfl

namespace Rgba

variable {p : Rgba Float} {c : Channel}

theorem total_eq_nan (h : p.get c = nan) : p.total = nan := by
  cases c <;> simp only [get] at h <;> simp [total, h]

/-- A sum is positive zero or NaN if there is nothing but zeros and one of them is positive. -/
theorem isNaNOrPositiveZero_total (hall : ∀ c, IsNaNOrZero (p.get c))
    (hpos : IsNaNOrPositiveZero (p.get c)) : IsNaNOrPositiveZero p.total := by
  have hr := hall .r
  have hg := hall .g
  have hb := hall .b
  have ha := hall .a
  cases c with
  | r => exact ((hpos.add hg).add hb).add ha
  | g => exact ((hr.add_positive hpos).add hb).add ha
  | b => exact ((hr.add hg).add_positive hpos).add ha
  | a => exact ((hr.add hg).add hb).add_positive hpos

/-- Zeros add nothing to the one number that is none. -/
theorem total_eq_get (hzeros : ∀ c', c' ≠ c → IsZero (p.get c')) (hc : ¬IsZero (p.get c)) :
    p.total = p.get c := by
  cases c with
  | r =>
    change ¬IsZero p.r at hc
    change p.total = p.r
    have hg : IsZero p.g := hzeros .g (by decide)
    have hb : IsZero p.b := hzeros .b (by decide)
    have ha : IsZero p.a := hzeros .a (by decide)
    rw [total, plus_zero hc hg, plus_zero hc hb, plus_zero hc ha]
  | g =>
    change ¬IsZero p.g at hc
    change p.total = p.g
    have hr : IsZero p.r := hzeros .r (by decide)
    have hb : IsZero p.b := hzeros .b (by decide)
    have ha : IsZero p.a := hzeros .a (by decide)
    rw [total, zero_plus hr hc, plus_zero hc hb, plus_zero hc ha]
  | b =>
    change ¬IsZero p.b at hc
    change p.total = p.b
    have hr : IsZero p.r := hzeros .r (by decide)
    have hg : IsZero p.g := hzeros .g (by decide)
    have ha : IsZero p.a := hzeros .a (by decide)
    rw [total, zero_plus (hr.add hg) hc, plus_zero hc ha]
  | a =>
    change ¬IsZero p.a at hc
    change p.total = p.a
    have hr : IsZero p.r := hzeros .r (by decide)
    have hg : IsZero p.g := hzeros .g (by decide)
    have hb : IsZero p.b := hzeros .b (by decide)
    rw [total, zero_plus ((hr.add hg).add hb) hc]

/-- Zeros and NaN leave of the one other number itself or NaN. -/
theorem total_eq_nan_or_get (hnone : ∀ c', c' ≠ c → IsNaNOrZero (p.get c'))
    (hc : ¬IsZero (p.get c)) : p.total = nan ∨ p.total = p.get c := by
  by_cases hzeros : ∀ c', c' ≠ c → IsZero (p.get c')
  · exact .inr (total_eq_get hzeros hc)
  · push Not at hzeros
    obtain ⟨c', hne, hc'⟩ := hzeros
    exact .inl (total_eq_nan ((hnone c' hne).resolve_right hc'))

/-- A sum of zeros is a zero, and negative only if all of them are. -/
theorem total_zeros (hzeros : ∀ c, IsZero (p.get c)) :
    ∃ negative, p.total = signedZero negative ∧
      (negative = true ↔ ∀ c, p.get c = signedZero true) := by
  obtain ⟨nr, hr⟩ := hzeros .r
  obtain ⟨ng, hg⟩ := hzeros .g
  obtain ⟨nb, hb⟩ := hzeros .b
  obtain ⟨na, ha⟩ := hzeros .a
  refine ⟨nr && ng && nb && na, ?_, ?_⟩
  · simp only [get] at hr hg hb ha
    rw [total, hr, hg, hb, ha]
    simp only [signedZero_add_signedZero]
  · constructor
    · intro h c
      simp only [Bool.and_eq_true] at h
      obtain ⟨⟨⟨rfl, rfl⟩, rfl⟩, rfl⟩ := h
      cases c <;> assumption
    · intro h
      have hnr := signedZero_injective (hr.symm.trans (h .r))
      have hng := signedZero_injective (hg.symm.trans (h .g))
      have hnb := signedZero_injective (hb.symm.trans (h .b))
      have hna := signedZero_injective (ha.symm.trans (h .a))
      rw [hnr, hng, hnb, hna]
      rfl

end Rgba

/-! ## Maps that keep the channels apart -/

namespace Affine

/-- Nothing but zeros stands between the channels, and alpha is kept, apart from elements that became
NaN. -/
structure KeepsChannels (f : Affine Float) : Prop where
  apart : ∀ c c', c ≠ c' → IsNaNOrPositiveZero ((f.matrix.get c).get c')
  alpha : f.matrix.a.a = nan ∨ f.matrix.a.a = 1
  shift : IsNaNOrPositiveZero f.offset.a

theorem keepsChannels_onColor (scale offset : Rgb Float) : (onColor scale offset).KeepsChannels where
  apart c c' h := by
    rw [onColor, ColorMatrix.get_diagonal, if_neg h]
    exact isNaNOrPositiveZero_zero
  alpha := .inr rfl
  shift := isNaNOrPositiveZero_zero

variable {f g : Affine Float}

/-- A product of two elements, one of which stands between channels. -/
theorem KeepsChannels.isNaNOrZero_mul (hf : f.KeepsChannels) (hg : g.KeepsChannels)
    {c c' : Channel} (h : c ≠ c') (k : Channel) :
    IsNaNOrZero ((g.matrix.get c).get k * (f.matrix.get k).get c') := by
  by_cases hk : c = k
  · exact (hf.apart k c' (hk ▸ h)).isNaNOrZero.mul_left _
  · exact (hg.apart c k hk).isNaNOrZero.mul _

/-- The element of alpha keeps a number or makes it NaN. -/
theorem KeepsChannels.alpha_times (hf : f.KeepsChannels) (x : Float) :
    f.matrix.a.a * x = nan ∨ f.matrix.a.a * x = x := by
  rcases hf.alpha with h | h
  · rw [h]
    exact .inl (nan_mul x)
  · rw [h]
    exact .inr (one_times x)

/-- Fusing keeps the channels apart. -/
theorem KeepsChannels.apart_after (hf : f.KeepsChannels) (hg : g.KeepsChannels) {c c' : Channel}
    (h : c ≠ c') : IsNaNOrPositiveZero (((g.after f).matrix.get c).get c') := by
  obtain ⟨k, hk, hk'⟩ := c.exists_other c'
  rw [Affine.after, ColorMatrix.get_mul]
  apply Rgba.isNaNOrPositiveZero_total (c := k)
  · intro k
    rw [Rgba.get_zip, ColorMatrix.get_transpose]
    exact hf.isNaNOrZero_mul hg h k
  · rw [Rgba.get_zip, ColorMatrix.get_transpose]
    exact (hg.apart c k hk).mul (hf.apart k c' hk')

theorem KeepsChannels.alpha_after (hf : f.KeepsChannels) (hg : g.KeepsChannels) :
    (g.after f).matrix.a.a = nan ∨ (g.after f).matrix.a.a = 1 := by
  let products : Rgba Float := (g.matrix.get .a).zip (· * ·) (f.matrix.transpose.get .a)
  have hothers (k : Channel) (hk : k ≠ .a) : IsNaNOrZero (products.get k) := by
    rw [Rgba.get_zip, ColorMatrix.get_transpose]
    exact (hg.apart .a k hk.symm).isNaNOrZero.mul _
  have hown : products.get .a = nan ∨ products.get .a = 1 := by
    rcases hg.alpha_times f.matrix.a.a with h | h
    · exact .inl h
    · exact hf.alpha.imp h.trans h.trans
  have hne : ¬IsZero (products.get .a) := by
    rcases hown with h | h
    · rw [h]
      exact not_isZero_nan
    · rw [h]
      exact not_isZero_one
  change products.total = nan ∨ products.total = 1
  rcases Rgba.total_eq_nan_or_get hothers hne with h | h
  · exact .inl h
  · rwa [h]

theorem KeepsChannels.shift_after (hf : f.KeepsChannels) (hg : g.KeepsChannels) :
    IsNaNOrPositiveZero (g.after f).offset.a := by
  let products : Rgba Float := (g.matrix.get .a).zip (· * ·) f.offset
  have hown : IsNaNOrPositiveZero (products.get .a) := by
    rcases hg.alpha_times f.offset.a with h | h
    · exact .inl h
    · exact hf.shift.imp h.trans h.trans
  have hall (k : Channel) : IsNaNOrZero (products.get k) := by
    by_cases hk : k = .a
    · rw [hk]
      exact hown.isNaNOrZero
    · rw [Rgba.get_zip]
      exact (hg.apart .a k (Ne.symm hk)).isNaNOrZero.mul _
  exact (Rgba.isNaNOrPositiveZero_total hall hown).add hg.shift.isNaNOrZero

theorem KeepsChannels.after (hf : f.KeepsChannels) (hg : g.KeepsChannels) :
    (g.after f).KeepsChannels :=
  ⟨fun _ _ => hf.apart_after hg, hf.alpha_after hg, hf.shift_after hg⟩

/-! ## One channel of an affine stage -/

/-- What the own element and the own offset of a channel make of its value. -/
def onChannel (f : Affine Float) (c : Channel) (x : Float32) : Float32 :=
  narrow ((f.matrix.get c).get c * widen x + f.offset.get c)

/-- The products that are summed up for a channel. -/
def products (f : Affine Float) (c : Channel) (p : Rgba Float32) : Rgba Float :=
  (f.matrix.get c).zip (· * ·) (p.map widen)

/-- No other channel shows in channel `c` of the stage: the elements of its row and its offset are
numbers, the other channels are finite, and where the own product and the offset are negative zeros,
so are the other products. -/
structure Separates (f : Affine Float) (c : Channel) (p : Rgba Float32) : Prop where
  row : ∀ k, (f.matrix.get c).get k ≠ nan
  offset : f.offset.get c ≠ nan
  finite : ∀ k, k ≠ c → (p.get k).isFinite = true
  sign : (f.products c p).get c = signedZero true → f.offset.get c = signedZero true →
    ∀ k, k ≠ c → (f.products c p).get k = signedZero true

instance (f : Affine Float) (c : Channel) (p : Rgba Float32) : Decidable (f.Separates c p) :=
  decidable_of_iff ((∀ k, (f.matrix.get c).get k ≠ nan) ∧ f.offset.get c ≠ nan ∧
      (∀ k, k ≠ c → (p.get k).isFinite = true) ∧
      ((f.products c p).get c = signedZero true → f.offset.get c = signedZero true →
        ∀ k, k ≠ c → (f.products c p).get k = signedZero true))
    ⟨fun ⟨row, offset, finite, sign⟩ => ⟨row, offset, finite, sign⟩,
      fun ⟨row, offset, finite, sign⟩ => ⟨row, offset, finite, sign⟩⟩

theorem get_products (f : Affine Float) (c k : Channel) (p : Rgba Float32) :
    (f.products c p).get k = (f.matrix.get c).get k * widen (p.get k) := by
  rw [products, Rgba.get_zip, Rgba.get_map]

theorem get_affine_stage (f : Affine Float) (c : Channel) (p : Rgba Float32) :
    (Stages.standard.affine f p).get c =
      (narrow ((f.products c p).total + f.offset.get c) : Float32) := by
  cases c <;> rfl

theorem onChannel_get (f : Affine Float) (c : Channel) (p : Rgba Float32) :
    f.onChannel c (p.get c) = narrow ((f.products c p).get c + f.offset.get c) := by
  rw [onChannel, get_products]

variable {c : Channel} {p : Rgba Float32}

theorem KeepsChannels.isNaNOrZero_products (hf : f.KeepsChannels) {k : Channel} (hk : k ≠ c) :
    IsNaNOrZero ((f.products c p).get k) := by
  rw [get_products]
  exact (hf.apart c k hk.symm).isNaNOrZero.mul _

/-- The other products are zeros exactly if the elements are numbers and the channels finite. -/
theorem KeepsChannels.isZero_products_iff (hf : f.KeepsChannels) {k : Channel} (hk : k ≠ c) :
    IsZero ((f.products c p).get k) ↔
      (f.matrix.get c).get k ≠ nan ∧ (p.get k).isFinite = true := by
  rw [get_products]
  rcases hf.apart c k hk.symm with h | h
  · rw [h, nan_mul]
    exact iff_of_false not_isZero_nan fun h => h.1 rfl
  · have hzero : IsZero ((f.matrix.get c).get k) := ⟨false, h⟩
    have hne : (f.matrix.get c).get k ≠ nan := fun h => not_isZero_nan (h ▸ hzero)
    rw [and_iff_right hne, ← isFinite_widen]
    cases hx : (widen (p.get k) : Float).isFinite with
    | true => exact iff_of_true (isZero_mul hzero hx) rfl
    | false =>
      rw [mul_eq_nan hzero hx]
      exact iff_of_false not_isZero_nan (by decide)

/-- Where no other channel shows, the offset meets the own product alone. -/
theorem KeepsChannels.total_add_of_separates (hf : f.KeepsChannels) (h : f.Separates c p) :
    (f.products c p).total + f.offset.get c = (f.products c p).get c + f.offset.get c := by
  have hzeros (k : Channel) (hk : k ≠ c) : IsZero ((f.products c p).get k) :=
    (hf.isZero_products_iff hk).mpr ⟨h.row k, h.finite k hk⟩
  by_cases hown : IsZero ((f.products c p).get c)
  · have hall (k : Channel) : IsZero ((f.products c p).get k) := by
      by_cases hk : k = c
      · exact hk ▸ hown
      · exact hzeros k hk
    obtain ⟨sum, htotal, hsum⟩ := Rgba.total_zeros hall
    rw [htotal]
    by_cases hoffset : IsZero (f.offset.get c)
    · -- Zeros are left on both sides, and a sum of them is negative only if all are.
      obtain ⟨shift, hshift⟩ := hoffset
      obtain ⟨own, hown⟩ := hown
      rw [hshift, hown, signedZero_add_signedZero, signedZero_add_signedZero]
      cases shift with
      | false => rw [Bool.and_false, Bool.and_false]
      | true =>
        cases own with
        | true =>
          have hnegative (k : Channel) : (f.products c p).get k = signedZero true := by
            by_cases hk : k = c
            · exact hk ▸ hown
            · exact h.sign hown hshift k hk
          rw [hsum.mpr hnegative]
        | false =>
          have hpositive : sum = false := by
            rw [← Bool.not_eq_true, hsum]
            exact fun hall => absurd (signedZero_injective (hown.symm.trans (hall c))) (by decide)
          rw [hpositive]
    · rw [zero_plus ⟨sum, rfl⟩ hoffset, zero_plus hown hoffset]
  · rw [Rgba.total_eq_get hzeros hown]

/-- A channel that is NaN by its own element and offset stays so. -/
theorem KeepsChannels.total_add_of_nan (hf : f.KeepsChannels)
    (h : (f.products c p).get c + f.offset.get c = nan) :
    (f.products c p).total + f.offset.get c = nan := by
  by_cases hown : IsZero ((f.products c p).get c)
  · have hoffset : f.offset.get c = nan := by
      by_cases hoffset : IsZero (f.offset.get c)
      · exact absurd (hown.add hoffset) (h ▸ not_isZero_nan)
      · rwa [zero_plus hown hoffset] at h
    rw [hoffset, add_nan]
  · rcases Rgba.total_eq_nan_or_get (fun k hk => hf.isNaNOrZero_products hk) hown with ht | ht
    · rw [ht, nan_add]
    · rwa [ht]

/-- A channel that is a number, and the one that its own element and offset make, lets no other channel
show. -/
theorem KeepsChannels.separates_of_eq (hf : f.KeepsChannels)
    (heq : (narrow ((f.products c p).total + f.offset.get c) : Float32) =
      narrow ((f.products c p).get c + f.offset.get c))
    (hne : (f.products c p).total + f.offset.get c ≠ nan) : f.Separates c p := by
  have hproduct (k : Channel) : (f.products c p).get k ≠ nan := fun hk =>
    hne (by rw [Rgba.total_eq_nan hk, nan_add])
  have hrow (k : Channel) : (f.matrix.get c).get k ≠ nan := fun hk =>
    hproduct k (by rw [get_products, hk, nan_mul])
  have hzeros (k : Channel) (hk : k ≠ c) : IsZero ((f.products c p).get k) :=
    (hf.isNaNOrZero_products hk).resolve_left (hproduct k)
  refine ⟨hrow, fun h => hne (by rw [h, add_nan]),
    fun k hk => ((hf.isZero_products_iff hk).mp (hzeros k hk)).2, fun hown hshift k _ => ?_⟩
  have hall (k : Channel) : IsZero ((f.products c p).get k) := by
    by_cases hk : k = c
    · exact ⟨true, hk ▸ hown⟩
    · exact hzeros k hk
  obtain ⟨sum, htotal, hsum⟩ := Rgba.total_zeros hall
  rw [htotal, hown, hshift, signedZero_add_signedZero, signedZero_add_signedZero,
    Bool.and_true] at heq
  exact hsum.mp (narrow_signedZero_injective heq) k

/-- A channel of an affine stage is what its own element and offset make of it exactly if no other
channel shows in it, or if that is NaN already. -/
theorem KeepsChannels.get_affine_stage_iff (hf : f.KeepsChannels) :
    (Stages.standard.affine f p).get c = f.onChannel c (p.get c) ↔
      f.Separates c p ∨ (f.onChannel c (p.get c)).isNaN = true := by
  rw [get_affine_stage, onChannel_get, isNaN_narrow_iff]
  constructor
  · intro heq
    by_cases hnan : (f.products c p).get c + f.offset.get c = nan
    · exact .inr hnan
    · refine .inl (hf.separates_of_eq heq fun h => hnan ?_)
      rwa [← isNaN_narrow_iff, ← heq, isNaN_narrow_iff]
  · rintro (h | h)
    · rw [hf.total_add_of_separates h]
    · rw [h, hf.total_add_of_nan h]

/-- Alpha is kept where no other channel shows in it, but a zero of either sign becomes positive. -/
theorem KeepsChannels.onChannel_alpha (hf : f.KeepsChannels) (h : f.Separates .a p) :
    f.onChannel .a p.a = p.a ∨ (p.a == 0) = true ∧ f.onChannel .a p.a = 0 := by
  have halpha : f.matrix.a.a = 1 := hf.alpha.resolve_left (h.row .a)
  have hshift : f.offset.a = signedZero false := hf.shift.resolve_left h.offset
  have hvalue : f.onChannel .a p.a = narrow (widen p.a + signedZero false) := by
    rw [← hshift, ← one_times (widen p.a), ← halpha]
    rfl
  rw [hvalue]
  by_cases hzero : IsZero (widen p.a)
  · obtain ⟨negative, hzero⟩ := hzero
    have hp := narrow_widen p.a
    rw [hzero] at hp ⊢
    rw [← hp, signedZero_add_signedZero, Bool.and_false]
    exact .inr ⟨by cases negative <;> decide +kernel, by decide +kernel⟩
  · rw [plus_zero hzero ⟨false, rfl⟩]
    exact .inl (narrow_widen p.a)

end Affine

end ColorChain
