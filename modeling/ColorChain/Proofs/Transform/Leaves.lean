import ColorChain.Proofs.Chain.NormalForm
import ColorChain.Proofs.Transform.Compilable

/-!
# Where operations come from

Every operation of a compiled chain was lowered from one leaf of the tree, done or undone as the
directions above the leaf say. Simplification makes new affine maps only, so the operations of other
kinds can still be traced back afterwards.
-/

namespace ColorChain

universe u v

variable {α : Type u} {β : Type v}

namespace Chain

/-- An operation that is no affine map is kept, unless it does nothing and the chain is simplified. -/
theorem mem_optimize_iff [Zero α] [One α] [Add α] [Mul α] [BEq α] [One β] [BEq β] {effort : Effort}
    {chain : Chain α β} {op : Op α β} (hop : op.isAffine = false) :
    op ∈ chain.optimize effort ↔ op ∈ chain ∧ (effort = .lossless → op.isIdentity = false) := by
  cases effort with
  | none => simp [optimize]
  | lossless =>
    have hkept : op ∈ chain.simplify ↔ op ∈ chain.simplify.filter (!·.isAffine) := by
      simp [hop]
    rw [optimize, hkept, filter_simplify]
    simp [hop]

end Chain

variable [OfScientific α] [Zero α] [One α] [Add α] [Sub α] [Neg α] [Mul α] [Div α] [BEq α] [LT α]
variable [DecidableLT α] [LE α] [DecidableLE α] [Elementary α] [Precision α β]
variable {resolve : Resolver α}

/-- The operations of a schedule are those of its entries. -/
theorem mem_lower_iff {steps : List (Step α)} {chain : Chain α β}
    (h : lower resolve steps = .ok chain) {op : Op α β} :
    op ∈ chain ↔ ∃ step ∈ steps, ∃ block, step.chain resolve = .ok block ∧ op ∈ block := by
  induction steps generalizing chain with
  | nil =>
    cases h
    simp
  | cons step steps ih =>
    simp only [lower, do_eq_ok_iff] at h
    obtain ⟨first, hfirst, rest, hrest, hchain⟩ := h
    cases hchain
    simp only [List.mem_append, ih hrest, List.mem_cons, exists_eq_or_imp]
    refine or_congr_left ?_
    constructor
    · exact fun hop => ⟨first, hfirst, hop⟩
    · rintro ⟨block, hblock, hop⟩
      cases Except.ok.inj (hfirst.symm.trans hblock)
      exact hop

namespace Transform

variable {d : Direction} {t : Transform α}

/-- The entries of a schedule that can be lowered are the leaves, by induction on the tree. -/
theorem mem_schedule_iff (hd : d ≠ .unknown) (t : Transform α)
    (hlowers : Lowers β resolve (t.schedule d)) {step : Step α} :
    step ∈ t.schedule d ↔ ∃ a e, LeafAt a e d t ∧ step = .apply a (e = .inverse) := by
  induction t using induction_on_parts generalizing d with
  | step t ih =>
    cases t with
    | atom own a =>
      obtain ⟨hown, -⟩ := (lowers_atom_iff hd).mp hlowers
      simp only [leafAt_atom_iff]
      cases d <;> cases own <;> simp_all [schedule, oriented, Direction.combine]
    | display own settings linear colorTiming channelView displayed =>
      exact absurd hlowers not_lowers_display
    | group own children =>
      obtain ⟨hown, hchildren⟩ := (lowers_group_iff hd).mp hlowers
      have hknown : d.combine own ≠ .unknown := by
        cases d <;> cases own <;> simp_all [Direction.combine]
      have hmem : step ∈ (group own children).schedule d ↔
          ∃ t ∈ children, step ∈ t.schedule (d.combine own) := by
        cases hcombine : d.combine own with
        | unknown => exact absurd hcombine hknown
        | forward => simp [schedule, oriented, hcombine, doAll_eq_flatMap]
        | inverse => simp [schedule, oriented, hcombine, undoAll_eq_flatMap]
      rw [hmem]
      constructor
      · rintro ⟨part, hpart, hstep⟩
        obtain ⟨a, e, hleaf, rfl⟩ := (ih part hpart hknown (hchildren part hpart)).mp hstep
        exact ⟨a, e, .part hpart hleaf, rfl⟩
      · rintro ⟨a, e, hleaf, rfl⟩
        obtain ⟨part, hpart, hleaf⟩ := leafAt_group_iff.mp hleaf
        exact ⟨part, hpart, (ih part hpart hknown (hchildren part hpart)).mpr ⟨a, e, hleaf, rfl⟩⟩

/-- The operations of a compiled transform are those of its leaves. -/
theorem mem_compile_iff {chain : Chain α β} (h : t.compile resolve d = .ok chain) {op : Op α β} :
    op ∈ chain ↔ ∃ a e block, LeafAt a e d t ∧ a.chain resolve (e = .inverse) = .ok block ∧
      op ∈ block := by
  obtain ⟨hd, hlower⟩ := compile_eq_ok_iff.mp h
  rw [mem_lower_iff hlower]
  simp only [mem_schedule_iff hd t (exists_lower_iff.mp ⟨chain, hlower⟩)]
  constructor
  · rintro ⟨step, ⟨a, e, hleaf, rfl⟩, block, hblock, hop⟩
    exact ⟨a, e, block, hleaf, hblock, hop⟩
  · rintro ⟨a, e, block, hleaf, hblock, hop⟩
    exact ⟨_, ⟨a, e, hleaf, rfl⟩, block, hblock, hop⟩

/-- Every operation of a transform that is no affine map is one of a leaf, and every one of a leaf is
there unless it does nothing and the chain is simplified. -/
theorem mem_chain_iff [One β] [BEq β] {effort : Effort} {chain : Chain α β}
    (h : t.chain resolve d effort = .ok chain) {op : Op α β} (hop : op.isAffine = false) :
    op ∈ chain ↔ (∃ a e block, LeafAt a e d t ∧ a.chain resolve (e = .inverse) = .ok block ∧
      op ∈ block) ∧ (effort = .lossless → op.isIdentity = false) := by
  obtain ⟨compiled, hcompiled, rfl⟩ := map_eq_ok_iff.mp h
  rw [Chain.mem_optimize_iff hop, mem_compile_iff hcompiled]

/-- The operations of every leaf can be computed. -/
theorem exists_block_of_leafAt {chain : Chain α β} (h : t.compile resolve d = .ok chain) {a : Atom α}
    {e : Direction} (hleaf : LeafAt a e d t) :
    ∃ block : Chain α β, a.chain resolve (e = .inverse) = .ok block := by
  obtain ⟨hd, hlower⟩ := compile_eq_ok_iff.mp h
  have hlowers := exists_lower_iff.mp ⟨chain, hlower⟩
  exact hlowers _ ((mem_schedule_iff hd t hlowers).mpr ⟨a, e, hleaf, rfl⟩)

end Transform

end ColorChain
