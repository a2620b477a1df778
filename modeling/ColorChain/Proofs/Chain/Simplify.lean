import ColorChain.Chain.Simplify
import ColorChain.Proofs.Color.Linear
import ColorChain.Proofs.Real

/-!
# Simplification keeps what a chain does

The sweep over a chain carries the affine maps it has met since the last operation of another kind as
one pending map. Its invariant: what has been written so far, followed by the pending map, does what
the chain read so far does. Dropping identities before and after the sweep changes nothing either, so
a chain may be optimized as often as one likes.
-/

namespace ColorChain

universe u

variable {R : Type u} [CommRing R]

/-- Stages without rounding: affine maps are computed exactly, and exponents that are all one leave a
pixel as it is. Nothing is asked of the other kinds of operations. -/
structure Stages.IsExact (stages : Stages R R) : Prop where
  affine (map : Affine R) (p : Rgba R) : stages.affine map p = map.apply p
  exponent_one (p : Rgba R) : stages.exponent (Rgba.fill 1) p = p

/-- The stages that chains are evaluated with are exact over the real numbers. -/
theorem standard_isExact : (Stages.standard : Stages ℝ ℝ).IsExact where
  affine _ _ := rfl
  exponent_one p := by
    ext <;> exact Real.rpow_one _

variable {stages : Stages R R}

/-- An operation that counts as an identity is one. -/
theorem Op.run_of_isIdentity [BEq R] [LawfulBEq R] (hs : stages.IsExact) {op : Op R R}
    (h : op.isIdentity) (p : Rgba R) : op.run stages p = p := by
  cases op with
  | affine map =>
      have hm : map = Affine.identity := Affine.eq_identity_of_isIdentity h
      rw [Op.run, hs.affine, hm, Affine.apply_identity]
  | exponent value =>
      have hv : value = Rgba.fill 1 := eq_of_beq h
      rw [Op.run, hv, hs.exponent_one]
  | _ => exact absurd h (by simp [Op.isIdentity])

namespace Chain

theorem run_dropIdentities [BEq R] [LawfulBEq R] (hs : stages.IsExact) (chain : Chain R R)
    (p : Rgba R) : run stages chain.dropIdentities p = run stages chain p := by
  induction chain generalizing p with
  | nil => rfl
  | cons op chain ih =>
      by_cases h : op.isIdentity
      · have hd : dropIdentities (op :: chain) = dropIdentities chain := by
          simp [dropIdentities, h]
        rw [hd, run_cons, Op.run_of_isIdentity hs h, ih]
      · have hd : dropIdentities (op :: chain) = op :: dropIdentities chain := by
          simp [dropIdentities, h]
        rw [hd, run_cons, run_cons, ih]

/-- The pixel that the sweep has reached: moved by the pending map, if there is one. -/
def carried (pending : Option (Affine R)) (p : Rgba R) : Rgba R :=
  pending.elim p (·.apply p)

/-- The invariant of the sweep, for every chain that is still to be read. -/
theorem run_fuseAfter (hs : stages.IsExact) (pending : Option (Affine R)) (chain : Chain R R)
    (p : Rgba R) :
    run stages (fuseAfter pending chain) p = run stages chain (carried pending p) := by
  fun_induction fuseAfter pending chain generalizing p with
  | case1 => rfl
  | case2 pending => simp [run_cons, run_nil, Op.run, hs.affine, carried]
  | case3 map chain ih => simp [ih, run_cons, Op.run, hs.affine, carried]
  | case4 pending map chain ih =>
      -- The fused map goes on as the pending one.
      simp only [ih, run_cons, Op.run, hs.affine, carried, Option.elim_some, Affine.apply_after]
  | case5 op chain _ ih => simp [ih, run_cons, carried]
  | case6 pending op chain _ ih => simp [ih, run_cons, Op.run, hs.affine, carried]

theorem run_fuse (hs : stages.IsExact) (chain : Chain R R) (p : Rgba R) :
    run stages chain.fuse p = run stages chain p :=
  run_fuseAfter hs none chain p

theorem run_simplify [BEq R] [LawfulBEq R] (hs : stages.IsExact) (chain : Chain R R)
    (p : Rgba R) : run stages chain.simplify p = run stages chain p := by
  rw [simplify, run_dropIdentities hs, run_fuse hs, run_dropIdentities hs]

theorem run_optimize [BEq R] [LawfulBEq R] (hs : stages.IsExact) (effort : Effort)
    (chain : Chain R R) (p : Rgba R) : run stages (chain.optimize effort) p = run stages chain p := by
  cases effort with
  | none => rfl
  | lossless => exact run_simplify hs chain p

/-- A chain does to every pixel what it did before it was optimized, however often and with whatever
efforts. -/
theorem run_foldl_optimize [BEq R] [LawfulBEq R] (hs : stages.IsExact) (efforts : List Effort)
    (chain : Chain R R) (p : Rgba R) :
    run stages (efforts.foldl (fun chain effort => chain.optimize effort) chain) p =
      run stages chain p := by
  induction efforts generalizing chain with
  | nil => rfl
  | cons effort efforts ih => rw [List.foldl_cons, ih, run_optimize hs]

/-- Two gains that cancel around a neutral exponent, and a logarithm after them. -/
theorem run_foldl_optimize_gains :
    (Stages.standard : Stages ℝ ℝ).IsExact ∧
      let chain : Chain ℝ ℝ := [.affine (.ofMatrix (.diagonal (Rgba.fill 2))),
        .exponent (Rgba.fill 1), .affine (.ofMatrix (.diagonal (Rgba.fill (1 / 2)))), .log 10]
      run Stages.standard
          ([.lossless, .none, .lossless].foldl (fun c effort => c.optimize effort) chain)
          ⟨1, 2, 3, 4⟩ =
        run Stages.standard chain ⟨1, 2, 3, 4⟩ :=
  ⟨standard_isExact, run_foldl_optimize standard_isExact _ _ _⟩

end Chain

end ColorChain
