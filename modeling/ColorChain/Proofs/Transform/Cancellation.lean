import ColorChain.Proofs.Transform.Leaves
import ColorChain.Proofs.Transform.Restore

/-!
# Affine transforms that cancel

A transform whose leaves scale and move pixels is compiled to affine maps. In a row with its inverse
it leaves every pixel as it is, and the only normal form of affine maps that does so is the empty
chain: a single map would be the identity and two would have been fused.
-/

namespace ColorChain

open Chain

universe u v

namespace Chain

section Ring

variable {R : Type u} [CommRing R] [BEq R] [LawfulBEq R] {stages : Stages R R} {chain : Chain R R}

theorem eq_nil_of_run_eq_self (hs : stages.IsExact) (hnormal : chain.IsNormal)
    (haffine : ∀ op ∈ chain, op.isAffine = true) (hrun : ∀ p, run stages chain p = p) :
    chain = [] := by
  match chain with
  | [] => rfl
  | [op] =>
      have hop := haffine op (.head _)
      cases op with
      | affine map =>
          have hmap : map = Affine.identity := by
            refine Affine.eq_identity_of_apply fun p => ?_
            rw [← hs.affine]
            exact hrun p
          have hproper : (.affine map : Op R R).isIdentity = false := hnormal.proper _ (.head _)
          rw [hmap, Op.isIdentity, Affine.isIdentity_identity] at hproper
          cases hproper
      | _ => cases hop
  | op :: next :: rest =>
      have hapart := (List.isChain_cons_cons.mp hnormal.apart).1
      simp [Apart, haffine op (by simp), haffine next (by simp)] at hapart

/-- Affine maps that leave every pixel as it is are optimized away. -/
theorem optimize_eq_nil (hs : stages.IsExact) (haffine : ∀ op ∈ chain, op.isAffine = true)
    (hrun : ∀ p, run stages chain p = p) : chain.optimize .lossless = [] := by
  refine eq_nil_of_run_eq_self hs (isNormal_simplify chain) ?_ fun p => ?_
  · exact forall_optimize (fun _ _ _ _ => rfl) .lossless haffine
  · exact (run_optimize hs .lossless chain p).trans (hrun p)

end Ring

/-- Affine maps lose nothing. -/
theorem inDomain_of_affine {chain : Chain ℝ ℝ} (h : ∀ op ∈ chain, op.isAffine = true) (p : Rgba ℝ) :
    InDomain chain p := by
  induction chain generalizing p with
  | nil => trivial
  | cons op chain ih =>
      obtain ⟨hop, hrest⟩ := List.forall_mem_cons.mp h
      refine ⟨?_, ih hrest _⟩
      cases op with
      | affine map => trivial
      | _ => cases hop

/-- Affine maps and those that undo them are optimized away. -/
theorem Undoes.optimize_append {back there : Chain ℝ ℝ} (h : Undoes back there)
    (hthere : ∀ op ∈ there, op.isAffine = true) (hback : ∀ op ∈ back, op.isAffine = true) :
    (there ++ back).optimize .lossless = [] := by
  refine optimize_eq_nil standard_isExact ?_ fun p => ?_
  · intro op hop
    rcases List.mem_append.mp hop with hop | hop
    · exact hthere op hop
    · exact hback op hop
  · rw [run_append]
    exact h p (inDomain_of_affine hthere p)

end Chain

/-- Leaves that scale and move pixels: matrices, and allocations that take no logarithm. -/
def Atom.IsAffine {α : Type u} : Atom α → Prop
  | .matrix _ => True
  | .allocation a => a.encoding = .uniform
  | _ => False

/-- A transform and its inverse in a group: whether the group is done or undone, the transform comes
first and is undone after that. -/
theorem Transform.schedule_pair {α : Type u} {d own : Direction} (hd : d ≠ .unknown)
    (hown : own ≠ .unknown) (t : Transform α) :
    (Transform.group own [t, t.inverse]).schedule d = t.schedule .forward ++ t.schedule .inverse := by
  have hforward : t.inverse.schedule .forward = t.schedule .inverse := schedule_inverse .forward t
  have hinverse : t.inverse.schedule .inverse = t.schedule .forward := schedule_inverse .inverse t
  cases d <;> cases own <;>
    simp_all [schedule, oriented, Direction.combine, doAll, undoAll]

section

variable {α : Type u} {β : Type v}
variable [OfScientific α] [Zero α] [One α] [Add α] [Sub α] [Neg α] [Mul α] [Div α] [BEq α] [LT α]
variable [DecidableLT α] [LE α] [DecidableLE α] [Elementary α] [Precision α β]
variable {resolve : Resolver α}

theorem Atom.IsAffine.isAffine_of_mem {a : Atom α} (ha : a.IsAffine) {inverted : Bool}
    {block : Chain α β} (h : a.chain resolve inverted = .ok block) :
    ∀ op ∈ block, op.isAffine = true := by
  cases a with
  | matrix map =>
      cases inverted with
      | false =>
          cases h
          simp [Op.isAffine]
      | true =>
          simp only [chain, if_true, map_eq_ok_iff] at h
          obtain ⟨back, -, rfl⟩ := h
          simp [Op.isAffine]
  | allocation a =>
      have hencoding : a.encoding = .uniform := ha
      simp only [chain, map_eq_ok_iff] at h
      obtain ⟨_, -, rfl⟩ := h
      cases inverted <;> simp [Allocation.chain, hencoding, Op.isAffine]
  | _ => cases ha

namespace Transform

variable {t : Transform α} {d own : Direction}

/-- Every leaf scales and moves pixels. -/
def IsAffine (t : Transform α) : Prop := ∀ own a, Occurs (.atom own a) t → a.IsAffine

theorem IsAffine.isAffine_of_mem (ht : t.IsAffine) {chain : Chain α β}
    (h : t.compile resolve d = .ok chain) : ∀ op ∈ chain, op.isAffine = true := by
  intro op hop
  obtain ⟨a, e, block, hleaf, hblock, hmem⟩ := (mem_compile_iff h).mp hop
  obtain ⟨own, hoccurs⟩ := hleaf.exists_occurs
  exact (ht own a hoccurs).isAffine_of_mem hblock op hmem

theorem compile_pair (hd : d ≠ .unknown) (hown : own ≠ .unknown) {there back : Chain α β}
    (hthere : t.compile resolve .forward = .ok there)
    (hback : t.compile resolve .inverse = .ok back) :
    (group own [t, t.inverse]).compile resolve d = .ok (there ++ back) := by
  obtain ⟨blocks, hblocks, rfl⟩ := lower_eq_ok_iff.mp (compile_eq_ok_iff.mp hthere).2
  obtain ⟨backBlocks, hbackBlocks, rfl⟩ := lower_eq_ok_iff.mp (compile_eq_ok_iff.mp hback).2
  refine compile_eq_ok_iff.mpr ⟨hd, lower_eq_ok_iff.mpr ⟨blocks ++ backBlocks, ?_, ?_⟩⟩
  · rw [schedule_pair hd hown]
    exact List.rel_append hblocks hbackBlocks
  · rw [List.flatten_append]

end Transform

end

namespace Transform

variable {resolve : Resolver ℝ} {t : Transform ℝ} {d own : Direction}

/-- A transform of matrices and uniform allocations that compiles in both directions leaves no
operation in a group with its inverse, whichever of the two comes first. -/
theorem chain_pair_eq_nil {e e' : Effort} {forward inverse : Chain ℝ ℝ} (ht : t.IsAffine)
    (hf : t.chain resolve .forward e = .ok forward) (hi : t.chain resolve .inverse e' = .ok inverse)
    (hd : d ≠ .unknown) (hown : own ≠ .unknown) :
    (group own [t, t.inverse]).chain resolve d .lossless = .ok ([] : Chain ℝ ℝ) ∧
      (group own [t.inverse, t]).chain resolve d .lossless = .ok ([] : Chain ℝ ℝ) := by
  obtain ⟨there, hthere, -⟩ := chain_eq_ok_iff.mp hf
  obtain ⟨back, hback, -⟩ := chain_eq_ok_iff.mp hi
  -- The inverse is a transform of the same kind, with the two directions exchanged.
  have hthere' : t.inverse.compile resolve .forward = .ok back :=
    (compile_inverse resolve t .forward).trans hback
  have hback' : t.inverse.compile resolve .inverse = .ok there :=
    (compile_inverse resolve t .inverse).trans hthere
  have hpair' := compile_pair hd hown hthere' hback'
  rw [inverse_inverse] at hpair'
  have hthereAffine := ht.isAffine_of_mem hthere
  have hbackAffine := ht.isAffine_of_mem hback
  constructor
  · refine chain_eq_ok_iff.mpr ⟨_, compile_pair hd hown hthere hback, ?_⟩
    exact (undoes_compile hthere hback).optimize_append hthereAffine hbackAffine
  · refine chain_eq_ok_iff.mpr ⟨_, hpair', ?_⟩
    exact (undoes_compile hthere' hback').optimize_append hbackAffine hthereAffine

/-- A gain and an allocation that is undone twice over, in a group that is undone. -/
theorem chain_pair_eq_nil_nested :
    let gain : Affine ℝ := .ofMatrix (.diagonal (Rgba.fill 2))
    let a : Allocation ℝ := { vars := [1, 3, 0] }
    let t : Transform ℝ := .group .inverse [.atom .forward (.matrix gain),
      .group .inverse [.atom .inverse (.allocation a)]]
    let resolve : Resolver ℝ := fun _ => .error .document
    t.IsAffine ∧ ∃ forward inverse : Chain ℝ ℝ, t.chain resolve .forward .lossless = .ok forward ∧
      t.chain resolve .inverse .lossless = .ok inverse ∧
      (group .forward [t, t.inverse]).chain resolve .forward .lossless = .ok ([] : Chain ℝ ℝ) ∧
      (group .forward [t.inverse, t]).chain resolve .forward .lossless = .ok ([] : Chain ℝ ℝ) := by
  intro gain a t resolve
  have ht : t.IsAffine := by
    intro own b h
    simp only [t, occurs_group_iff, occurs_atom_iff, List.mem_cons, List.not_mem_nil, or_false,
      exists_eq_or_imp, exists_eq_left, reduceCtorEq, false_or, atom.injEq] at h
    rcases h with ⟨-, rfl⟩ | ⟨-, rfl⟩
    · trivial
    · rfl
  have hinverse : ∃ back, gain.inverse = .ok back := by
    have hsqrt : Real.sqrt 4 = 2 := by
      have hsquare : (4 : ℝ) = 2 * 2 := by norm_num
      rw [hsquare, Real.sqrt_mul_self zero_le_two]
    have hnorms : ColorMatrix.rowNorms gain.matrix = 16 := by
      norm_num [gain, Affine.ofMatrix, ColorMatrix.rowNorms, ColorMatrix.rowNorm,
        ColorMatrix.diagonal, Rgba.dot, Rgba.fill, Elementary.sqrt, hsqrt]
    have hdet : ColorMatrix.determinant gain.matrix = 16 := by
      norm_num [gain, Affine.ofMatrix, ColorMatrix.determinant, ColorMatrix.transpose,
        ColorMatrix.diagonal, Rgba.map, Rgba.fill]
    rw [Affine.exists_inverse_iff, ColorMatrix.inverse?, hnorms, hdet]
    norm_num [Elementary.abs]
  obtain ⟨back, hback⟩ := hinverse
  have hgain (inverted : Bool) : (Atom.matrix gain).chain resolve inverted =
      .ok (if inverted then [.affine back] else [.affine gain] : Chain ℝ ℝ) := by
    cases inverted with
    | false => rfl
    | true =>
        rw [Atom.chain, hback]
        rfl
  have hspan : a.validate = .ok () := by
    simp [a, Allocation.validate, checkVarCount, Allocation.span, Except.bind]
  have hallocation (inverted : Bool) :
      (Atom.allocation a).chain resolve inverted = .ok (a.chain inverted : Chain ℝ ℝ) := by
    rw [Atom.chain, hspan]
    rfl
  have hforward : t.compile resolve .forward = .ok (_ : Chain ℝ ℝ) :=
    compile_eq_ok_iff.mpr ⟨by decide, lower_eq_ok_iff.mpr
      ⟨_, .cons (hallocation true) (.cons (hgain true) .nil), rfl⟩⟩
  have hbackward : t.compile resolve .inverse = .ok (_ : Chain ℝ ℝ) :=
    compile_eq_ok_iff.mpr ⟨by decide, lower_eq_ok_iff.mpr
      ⟨_, .cons (hgain false) (.cons (hallocation false) .nil), rfl⟩⟩
  have hf : t.chain resolve .forward .lossless = .ok (_ : Chain ℝ ℝ) :=
    chain_eq_ok_iff.mpr ⟨_, hforward, rfl⟩
  have hi : t.chain resolve .inverse .lossless = .ok (_ : Chain ℝ ℝ) :=
    chain_eq_ok_iff.mpr ⟨_, hbackward, rfl⟩
  exact ⟨ht, _, _, hf, hi, chain_pair_eq_nil ht hf hi (by decide) (by decide)⟩

end Transform

end ColorChain
