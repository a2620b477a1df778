import ColorChain.Proofs.Chain.Undo
import ColorChain.Proofs.Color.Inverse
import ColorChain.Proofs.Transform.Reversal

/-!
# A transform and its inverse

Over the real numbers the chain of a transform in the inverse direction brings back every pixel on
which the forward chain loses nothing. Leaf by leaf, the operations of the two directions undo each
other; the schedules of the two directions are each the other backwards, so what was done last is
undone first at every depth.
-/

namespace ColorChain

open Chain

/-! ## Leaves -/

theorem undoes_onColor {scale offset scale' offset' : ℝ} (hs : scale' * scale = 1)
    (ho : scale' * offset + offset' = 0) :
    Undoes [.affine (.onColor (Rgb.fill scale') (Rgb.fill offset'))]
      [.affine (.onColor (Rgb.fill scale) (Rgb.fill offset))] :=
  undoes_affine (Affine.apply_onColor_apply_onColor hs ho)

theorem Allocation.undoes_chain {a : Allocation ℝ} (h : a.span.least ≠ a.span.greatest)
    (inverted : Bool) : Undoes (a.chain !inverted) (a.chain inverted) := by
  have hw : a.span.greatest - a.span.least ≠ 0 := sub_ne_zero.mpr (Ne.symm h)
  have htwo : (0 : ℝ) < 2.0 ∧ (2.0 : ℝ) ≠ 1 := by norm_num
  -- The three pairs of operations that an allocation is made of.
  have hshift (offset : ℝ) : Undoes [.affine (.onColor (Rgb.fill 1) (Rgb.fill (-offset)))]
      [.affine (.onColor (Rgb.fill 1) (Rgb.fill offset))] :=
    undoes_onColor (mul_one 1) (by ring)
  have htoUnit := undoes_onColor (mul_one_div_cancel hw)
    (show (a.span.greatest - a.span.least) * (-a.span.least / (a.span.greatest - a.span.least))
      + a.span.least = 0 by field_simp; ring)
  have hfromUnit := undoes_onColor (one_div_mul_cancel hw)
    (show 1 / (a.span.greatest - a.span.least) * a.span.least
      + -a.span.least / (a.span.greatest - a.span.least) = 0 by field_simp; ring)
  cases he : a.encoding <;> cases inverted <;>
    simp only [Allocation.chain, he, Bool.not_true, Bool.not_false]
  case uniform.false => exact htoUnit
  case uniform.true => exact hfromUnit
  case lg2.false =>
    exact ((hshift a.span.offset).append (undoes_log htwo.1 htwo.2)).append htoUnit
  case lg2.true =>
    have hback := hshift (-a.span.offset)
    rw [neg_neg] at hback
    exact (hfromUnit.append (undoes_antilog htwo.1 htwo.2)).append hback

theorem invertExponent_eq_ok_iff {value back : Rgba ℝ} :
    invertExponent value = .ok back ↔ value.All (· ≠ 0) ∧ value.map (1 / ·) = back := by
  have hany : value.toList.any (· == 0) = false ↔ value.All (· ≠ 0) := by
    simp [Rgba.toList, Rgba.All]
  rw [← hany, invertExponent]
  cases value.toList.any (· == 0) <;> simp

theorem validateBase_eq_ok_iff {base : ℝ} :
    validateBase base = .ok () ↔ 0 < base ∧ base ≠ 1 := by
  simp [validateBase]

theorem Allocation.span_ne_of_validate {a : Allocation ℝ} (h : a.validate = .ok ()) :
    a.span.least ≠ a.span.greatest := by
  simp only [validate, bind_eq_ok_iff] at h
  obtain ⟨_, -, h⟩ := h
  intro heq
  simp [heq] at h

theorem Grade.invertible_of_check {g : Grade ℝ} (h : g.checkInvertible = .ok ()) :
    g.Invertible := by
  simp only [checkInvertible, Rgb.toList] at h
  split at h
  · cases h
  · cases h
  · next hslope hpower =>
    simp only [List.find?_eq_none, List.mem_cons, List.not_mem_nil, or_false, decide_eq_true_eq,
      not_le, forall_eq_or_imp, forall_eq] at hslope hpower
    have hsat : g.saturation ≠ 0 := by
      intro hzero
      simp [hzero] at h
    exact ⟨⟨hslope.1.ne', hslope.2.1.ne', hslope.2.2.ne'⟩,
      ⟨hpower.1.ne', hpower.2.1.ne', hpower.2.2.ne'⟩, hsat⟩

theorem Cdl.undoes_chain {c : Cdl ℝ} {inverted : Bool} {there back : Chain ℝ ℝ}
    (h : c.chain inverted = .ok there) (h' : c.chain (!inverted) = .ok back) :
    Undoes back there := by
  cases inverted with
  | false =>
      obtain ⟨_, hcheck, rfl⟩ := map_eq_ok_iff.mp h'
      cases h
      exact undoes_grade (Grade.invertible_of_check hcheck)
  | true =>
      obtain ⟨_, hcheck, rfl⟩ := map_eq_ok_iff.mp h
      cases h'
      exact undoes_ungrade (Grade.invertible_of_check hcheck)

/-- The two exponents of a pair of directions have the product one. -/
theorem undoes_invertExponent {value back : Rgba ℝ} (h : invertExponent value = .ok back) :
    Undoes [.exponent back] [.exponent value] ∧ Undoes [.exponent value] [.exponent back] := by
  obtain ⟨⟨hr, hg, hb, ha⟩, rfl⟩ := invertExponent_eq_ok_iff.mp h
  constructor
  · apply undoes_exponent
    ext <;> simp [Rgba.zip, Rgba.map, Rgba.fill, hr, hg, hb, ha]
  · apply undoes_exponent
    ext <;> simp [Rgba.zip, Rgba.map, Rgba.fill, hr, hg, hb, ha]

/-- The operations of a leaf in one direction undo those in the other. -/
theorem Atom.undoes_chain {resolve : Resolver ℝ} {atom : Atom ℝ} {inverted : Bool}
    {there back : Chain ℝ ℝ} (h : atom.chain resolve inverted = .ok there)
    (h' : atom.chain resolve (!inverted) = .ok back) : Undoes back there := by
  cases atom with
  | matrix map =>
      cases inverted with
      | false =>
          simp only [chain, Bool.not_false, if_true, map_eq_ok_iff, mapError_eq_ok_iff,
            Affine.inverse_eq_ok_iff] at h'
          obtain ⟨inverse, hi, rfl⟩ := h'
          cases h
          exact undoes_affine (Affine.inverse?_apply_apply hi)
      | true =>
          simp only [chain, if_true, map_eq_ok_iff, mapError_eq_ok_iff,
            Affine.inverse_eq_ok_iff] at h
          obtain ⟨inverse, hi, rfl⟩ := h
          cases h'
          exact undoes_affine (Affine.apply_inverse?_apply hi)
  | exponent value =>
      cases inverted with
      | false =>
          simp only [chain, Bool.not_false, if_true, map_eq_ok_iff, mapError_eq_ok_iff] at h'
          obtain ⟨inverse, hi, rfl⟩ := h'
          cases h
          exact (undoes_invertExponent hi).1
      | true =>
          simp only [chain, if_true, map_eq_ok_iff, mapError_eq_ok_iff] at h
          obtain ⟨inverse, hi, rfl⟩ := h
          cases h'
          exact (undoes_invertExponent hi).2
  | log base =>
      simp only [chain, map_eq_ok_iff, mapError_eq_ok_iff] at h h'
      obtain ⟨_, hbase, rfl⟩ := h
      obtain ⟨_, -, rfl⟩ := h'
      obtain ⟨hpos, hone⟩ := validateBase_eq_ok_iff.mp hbase
      cases inverted with
      | false => exact undoes_log hpos hone
      | true => exact undoes_antilog hpos hone
  | cdl c =>
      simp only [chain, mapError_eq_ok_iff] at h h'
      exact Cdl.undoes_chain h h'
  | allocation a =>
      simp only [chain, map_eq_ok_iff, mapError_eq_ok_iff] at h h'
      obtain ⟨_, hvalid, rfl⟩ := h
      obtain ⟨_, -, rfl⟩ := h'
      exact Allocation.undoes_chain (Allocation.span_ne_of_validate hvalid) inverted
  | file reference =>
      simp only [chain, bind_eq_ok_iff, mapError_eq_ok_iff] at h h'
      obtain ⟨c, hc, hthere⟩ := h
      obtain ⟨c', hc', hback⟩ := h'
      cases Except.ok.inj (hc.symm.trans hc')
      exact Cdl.undoes_chain hthere hback
  | colorSpace conversion => simp [chain] at h
  | look reference => simp [chain] at h

/-! ## Schedules and trees -/

/-- If the blocks of the leaves undo each other, so do the chains that they make up. -/
theorem undoes_flatten {leaves : List (Atom ℝ × Bool)} {resolve : Resolver ℝ}
    {blocks undoneBlocks : List (Chain ℝ ℝ)}
    (h : List.Forall₂ (fun leaf block => leaf.1.chain resolve leaf.2 = .ok block) leaves blocks)
    (h' : List.Forall₂ (fun leaf block => leaf.1.chain resolve (!leaf.2) = .ok block) leaves
      undoneBlocks) :
    Undoes undoneBlocks.reverse.flatten blocks.flatten := by
  induction h generalizing undoneBlocks with
  | nil =>
      cases h'
      exact undoes_nil
  | @cons leaf block leaves blocks hblock _ ih =>
      cases h' with
      | @cons _ undone _ undoneBlocks hundone hrest =>
          rw [List.reverse_cons, List.flatten_append, List.flatten_singleton, List.flatten_cons]
          exact (Atom.undoes_chain hblock hundone).append (ih hrest)

namespace Transform

variable {resolve : Resolver ℝ}

theorem chain_eq_ok_iff {d : Direction} {effort : Effort} {t : Transform ℝ}
    {chain : Chain ℝ ℝ} :
    t.chain resolve d effort = .ok chain ↔
      ∃ stages : Chain ℝ ℝ, t.compile resolve d = .ok stages ∧ stages.optimize effort = chain :=
  map_eq_ok_iff

/-- The unsimplified chains of the two directions undo each other. -/
theorem undoes_compile {t : Transform ℝ} {there back : Chain ℝ ℝ}
    (h : t.compile resolve .forward = .ok there) (h' : t.compile resolve .inverse = .ok back) :
    Undoes back there := by
  obtain ⟨leaves, blocks, undoneBlocks, -, -, hb, hu, rfl, rfl⟩ := mirrored_of_compile h h'
  exact undoes_flatten hb hu

/-- The processor of the inverse direction brings back every pixel on whose way through the forward
stages each of them meets a pixel of its domain, with whatever effort the two are simplified. -/
theorem run_inverse_run_forward {t : Transform ℝ} {e e' : Effort} {forward inverse : Chain ℝ ℝ}
    (hf : t.chain resolve .forward e = .ok forward)
    (hi : t.chain resolve .inverse e' = .ok inverse) (p : Rgba ℝ)
    (hp : ∀ stages, t.compile resolve .forward = .ok stages → InDomain stages p) :
    run Stages.standard inverse (run Stages.standard forward p) = p := by
  obtain ⟨there, hthere, rfl⟩ := chain_eq_ok_iff.mp hf
  obtain ⟨back, hback, rfl⟩ := chain_eq_ok_iff.mp hi
  rw [run_optimize standard_isExact, run_optimize standard_isExact]
  exact undoes_compile hthere hback p (hp there hthere)

/-- A logarithm followed by an allocation that is undone, on a pixel in the domain of both. -/
theorem run_inverse_run_forward_log :
    let a : Allocation ℝ := { vars := [0, 4, 0] }
    let t : Transform ℝ := .group .forward [.atom .forward (.log 2),
      .group .inverse [.atom .forward (.allocation a)]]
    let resolve : Resolver ℝ := fun _ => .error .document
    ∃ forward inverse : Chain ℝ ℝ, t.chain resolve .forward .lossless = .ok forward ∧
      t.chain resolve .inverse .lossless = .ok inverse ∧
      run Stages.standard inverse (run Stages.standard forward ⟨1, 2, 4, 1⟩) = ⟨1, 2, 4, 1⟩ := by
  intro a t resolve
  have hbase : validateBase (2 : ℝ) = .ok () := validateBase_eq_ok_iff.mpr (by norm_num)
  have hspan : a.validate = .ok () := by
    simp [a, Allocation.validate, checkVarCount, Allocation.span, Except.bind]
  have hlog (inverted : Bool) : (Atom.log 2).chain resolve inverted =
      .ok (if inverted then [.antilog 2] else [.log 2] : Chain ℝ ℝ) := by
    rw [Atom.chain, hbase]
    rfl
  have hallocation (inverted : Bool) :
      (Atom.allocation a).chain resolve inverted = .ok (a.chain inverted : Chain ℝ ℝ) := by
    rw [Atom.chain, hspan]
    rfl
  have hforward : t.compile resolve .forward = .ok (_ : Chain ℝ ℝ) :=
    compile_eq_ok_iff.mpr ⟨nofun, lower_eq_ok_iff.mpr
      ⟨_, .cons (hlog false) (.cons (hallocation true) .nil), rfl⟩⟩
  have hinverse : t.compile resolve .inverse = .ok (_ : Chain ℝ ℝ) :=
    compile_eq_ok_iff.mpr ⟨nofun, lower_eq_ok_iff.mpr
      ⟨_, .cons (hallocation false) (.cons (hlog true) .nil), rfl⟩⟩
  have hf : t.chain resolve .forward .lossless = .ok (_ : Chain ℝ ℝ) :=
    chain_eq_ok_iff.mpr ⟨_, hforward, rfl⟩
  have hi : t.chain resolve .inverse .lossless = .ok (_ : Chain ℝ ℝ) :=
    chain_eq_ok_iff.mpr ⟨_, hinverse, rfl⟩
  refine ⟨_, _, hf, hi, run_inverse_run_forward hf hi _ fun stages hs => ?_⟩
  cases Except.ok.inj (hforward.symm.trans hs)
  have hle (x : ℝ) (hx : 1 ≤ x) : logFloor ≤ x := logFloor_le_one.trans hx
  exact ⟨⟨hle 1 le_rfl, hle 2 (by norm_num), hle 4 (by norm_num)⟩, trivial, trivial⟩

end Transform

end ColorChain
