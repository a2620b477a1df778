import ColorChain.Proofs.Chain.Simplify
import Mathlib.Data.List.Chain

/-!
# The normal form of chains

A chain is in normal form if none of its operations is an identity and no two affine maps stand next
to each other. Simplification reaches this form in one pass, whatever the numbers are: fusion touches
affine maps only, so an operation of another kind that has survived the first round survives the
second as well and keeps the affine maps around it apart.
-/

namespace ColorChain

universe u v

variable {α : Type u} {β : Type v}

def Op.isAffine : Op α β → Bool
  | .affine _ => true
  | _ => false

namespace Chain

/-- At most one of two neighbours is an affine map. -/
def Apart (op next : Op α β) : Prop := op.isAffine = false ∨ next.isAffine = false

/-- The shortest form of a chain. -/
structure IsNormal [Zero α] [One α] [BEq α] [One β] [BEq β] (chain : Chain α β) : Prop where
  proper : ∀ op ∈ chain, op.isIdentity = false
  apart : chain.IsChain Apart

theorem isChain_cons_of_not_affine {op : Op α β} (h : op.isAffine = false) {chain : Chain α β}
    (hchain : chain.IsChain Apart) : List.IsChain Apart (op :: chain) :=
  List.isChain_cons.mpr ⟨fun _ _ => .inl h, hchain⟩

/-! ## Dropping identities -/

section DropIdentities

variable [Zero α] [One α] [BEq α] [One β] [BEq β]

theorem mem_dropIdentities_iff {op : Op α β} {chain : Chain α β} :
    op ∈ chain.dropIdentities ↔ op ∈ chain ∧ op.isIdentity = false := by
  simp [dropIdentities]

theorem dropIdentities_eq_self {chain : Chain α β} (h : ∀ op ∈ chain, op.isIdentity = false) :
    chain.dropIdentities = chain :=
  List.filter_eq_self.mpr fun op hop => by simp [h op hop]

/-- Affine maps stay apart if only affine maps are dropped. -/
theorem isChain_dropIdentities {chain : Chain α β} (happart : chain.IsChain Apart)
    (hdropped : ∀ op ∈ chain, op.isIdentity → op.isAffine) :
    chain.dropIdentities.IsChain Apart := by
  induction chain with
  | nil => exact .nil
  | cons op chain ih =>
      obtain ⟨hhead, htail⟩ := List.isChain_cons.mp happart
      have hrest := ih htail fun next hnext => hdropped next (.tail _ hnext)
      by_cases hop : op.isIdentity
      · rwa [dropIdentities, List.filter_cons_of_neg (by simp [hop])]
      · rw [dropIdentities, List.filter_cons_of_pos (by simp [hop])]
        by_cases haffine : op.isAffine
        · -- The neighbour of an affine map is of another kind, so it is still there.
          cases chain with
          | nil => exact .singleton op
          | cons next chain =>
              have hnext : next.isAffine = false := by
                simpa [Apart, haffine] using hhead next rfl
              have hkept : next.isIdentity = false := by
                have := hdropped next (.tail _ (.head _))
                simpa [hnext] using this
              rw [dropIdentities, List.filter_cons_of_pos (by simp [hkept])] at hrest
              rw [List.filter_cons_of_pos (by simp [hkept])]
              exact .cons_cons (.inr hnext) hrest
        · exact isChain_cons_of_not_affine (by simpa using haffine) hrest

end DropIdentities

/-! ## Fusing -/

section Fuse

variable [Add α] [Mul α]

/-- The pending map as the operation that it will be written as. -/
def written (pending : Option (Affine α)) : Chain α β := (pending.map .affine).toList

theorem isChain_fuseAfter (pending : Option (Affine α)) (chain : Chain α β) :
    (fuseAfter pending chain).IsChain Apart := by
  fun_induction fuseAfter pending chain with
  | case1 => exact .nil
  | case2 pending => exact .singleton _
  | case3 map chain ih => exact ih
  | case4 pending map chain ih => exact ih
  | case5 op chain hop ih =>
      have hother : op.isAffine = false := by cases op <;> simp_all [Op.isAffine]
      exact isChain_cons_of_not_affine hother ih
  | case6 pending op chain hop ih =>
      have hother : op.isAffine = false := by cases op <;> simp_all [Op.isAffine]
      exact .cons_cons (.inr hother) (isChain_cons_of_not_affine hother ih)

/-- The sweep leaves the operations of other kinds as they are. -/
theorem filter_fuseAfter (pending : Option (Affine α)) (chain : Chain α β) :
    (fuseAfter pending chain).filter (!·.isAffine) = chain.filter (!·.isAffine) := by
  fun_induction fuseAfter pending chain with
  | case1 => rfl
  | case2 pending => rfl
  | case3 map chain ih => simpa [Op.isAffine] using ih
  | case4 pending map chain ih => simpa [Op.isAffine] using ih
  | case5 op chain hop ih =>
      rw [List.filter_cons, List.filter_cons, ih]
  | case6 pending op chain hop ih =>
      rw [List.filter_cons_of_neg (by simp [Op.isAffine]), List.filter_cons, List.filter_cons, ih]

theorem length_fuseAfter_le (pending : Option (Affine α)) (chain : Chain α β) :
    (fuseAfter pending chain).length ≤ (written pending ++ chain : Chain α β).length := by
  fun_induction fuseAfter pending chain with
  | case1 => simp
  | case2 pending => simp [written]
  | case3 map chain ih => simpa [written] using ih
  | case4 pending map chain ih =>
      simp only [written, Option.map_some, Option.toList_some, List.cons_append, List.nil_append,
        List.length_cons] at ih ⊢
      omega
  | case5 op chain hop ih => simpa [written] using ih
  | case6 pending op chain hop ih => simpa [written] using ih

/-- The sweep changes nothing where affine maps stand apart. -/
theorem fuseAfter_eq_self (pending : Option (Affine α)) (chain : Chain α β)
    (h : List.IsChain Apart (written pending ++ chain)) :
    fuseAfter pending chain = written pending ++ chain := by
  fun_induction fuseAfter pending chain with
  | case1 => rfl
  | case2 pending => rfl
  | case3 map chain ih => exact ih h
  | case4 pending map chain ih =>
      -- A map that meets the pending one stands next to it.
      have hnext : Apart (.affine pending : Op α β) (.affine map) :=
        (List.isChain_cons_cons.mp h).1
      simp [Apart, Op.isAffine] at hnext
  | case5 op chain hop ih => exact congrArg (op :: ·) (ih h.tail)
  | case6 pending op chain hop ih =>
      exact congrArg (.affine pending :: op :: ·) (ih h.tail.tail)

/-- What holds of all operations, and of two fused maps if it holds of both, holds of all operations
that the sweep leaves. -/
theorem forall_fuseAfter {P : Op α β → Prop}
    (hafter : ∀ f g, P (.affine f) → P (.affine g) → P (.affine (g.after f)))
    (pending : Option (Affine α)) (chain : Chain α β) (hpending : ∀ f ∈ pending, P (.affine f))
    (hchain : ∀ op ∈ chain, P op) : ∀ op ∈ fuseAfter pending chain, P op := by
  fun_induction fuseAfter pending chain with
  | case1 => exact hchain
  | case2 pending => simpa using hpending pending rfl
  | case3 map chain ih =>
      rw [List.forall_mem_cons] at hchain
      exact ih (fun f hf => Option.mem_some.mp hf ▸ hchain.1) hchain.2
  | case4 pending map chain ih =>
      rw [List.forall_mem_cons] at hchain
      have hfused := hafter pending map (hpending pending rfl) hchain.1
      exact ih (fun f hf => Option.mem_some.mp hf ▸ hfused) hchain.2
  | case5 op chain hop ih =>
      rw [List.forall_mem_cons] at hchain ⊢
      exact ⟨hchain.1, ih (by simp) hchain.2⟩
  | case6 pending op chain hop ih =>
      rw [List.forall_mem_cons] at hchain
      rw [List.forall_mem_cons, List.forall_mem_cons]
      exact ⟨hpending pending rfl, hchain.1, ih (by simp) hchain.2⟩

end Fuse

/-! ## The whole pass -/

section Simplify

variable [Zero α] [One α] [Add α] [Mul α] [BEq α] [One β] [BEq β]

/-- Fusion makes no identities but affine ones. -/
theorem isAffine_of_mem_fuse {chain : Chain α β} (h : ∀ op ∈ chain, op.isIdentity = false)
    {op : Op α β} (hop : op ∈ chain.fuse) (hidentity : op.isIdentity) : op.isAffine := by
  by_contra hother
  have hkept : op ∈ chain.fuse.filter (!·.isAffine) := by simpa [hop] using hother
  rw [fuse, filter_fuseAfter] at hkept
  have := h op (List.mem_of_mem_filter hkept)
  simp [this] at hidentity

theorem isNormal_simplify (chain : Chain α β) : chain.simplify.IsNormal where
  proper op hop := (mem_dropIdentities_iff.mp hop).2
  apart := by
    have hproper : ∀ op ∈ chain.dropIdentities, op.isIdentity = false :=
      fun op hop => (mem_dropIdentities_iff.mp hop).2
    exact isChain_dropIdentities (isChain_fuseAfter none _) fun op hop =>
      isAffine_of_mem_fuse hproper hop

/-- What fusion keeps holds of all operations after optimization. -/
theorem forall_optimize {P : Op α β → Prop}
    (hafter : ∀ f g, P (.affine f) → P (.affine g) → P (.affine (g.after f))) (effort : Effort)
    {chain : Chain α β} (hchain : ∀ op ∈ chain, P op) : ∀ op ∈ chain.optimize effort, P op := by
  cases effort with
  | none => exact hchain
  | lossless =>
      intro op hop
      have hdropped (op) (hop : op ∈ chain.dropIdentities) : P op :=
        hchain op (mem_dropIdentities_iff.mp hop).1
      exact forall_fuseAfter hafter none _ (by simp) hdropped op (mem_dropIdentities_iff.mp hop).1

theorem simplify_eq_self {chain : Chain α β} (h : chain.IsNormal) : chain.simplify = chain := by
  have hdrop : chain.dropIdentities = chain := dropIdentities_eq_self h.proper
  have hfuse : chain.fuse = chain := fuseAfter_eq_self none chain h.apart
  rw [simplify, hdrop, hfuse, hdrop]

theorem filter_simplify (chain : Chain α β) :
    chain.simplify.filter (!·.isAffine) =
      chain.filter fun op => !op.isAffine && !op.isIdentity := by
  calc chain.simplify.filter (!·.isAffine)
      = (chain.dropIdentities.fuse.filter (!·.isAffine)).filter (!·.isIdentity) := by
        simp only [simplify, dropIdentities, List.filter_filter, Bool.and_comm]
    _ = (chain.dropIdentities.filter (!·.isAffine)).filter (!·.isIdentity) := by
        rw [fuse, filter_fuseAfter]
    _ = chain.filter fun op => !op.isAffine && !op.isIdentity := by
        simp only [dropIdentities, List.filter_filter]
        congr 1
        funext op
        cases op.isAffine <;> cases op.isIdentity <;> rfl

theorem length_simplify_le (chain : Chain α β) : chain.simplify.length ≤ chain.length :=
  calc chain.simplify.length ≤ chain.dropIdentities.fuse.length := List.length_filter_le _ _
    _ ≤ chain.dropIdentities.length := length_fuseAfter_le none _
    _ ≤ chain.length := List.length_filter_le _ _

/-- Lossless optimization gives the normal form of a chain with the operations of other kinds than
affine maps kept in order, identities apart. It never lengthens a chain, leaves exactly the chains in
normal form as they are, and so need not be repeated. -/
theorem optimize_lossless_normal (chain : Chain α β) :
    (chain.optimize .lossless).IsNormal ∧
      ((chain.optimize .lossless).filter fun op => !op.isAffine) =
        (chain.filter fun op => !op.isAffine && !op.isIdentity) ∧
      (chain.optimize .lossless).length ≤ chain.length ∧
      (chain.optimize .lossless = chain ↔ chain.IsNormal) ∧
      (chain.optimize .lossless).optimize .lossless = chain.optimize .lossless := by
  refine ⟨isNormal_simplify chain, filter_simplify chain, length_simplify_le chain, ?_,
    simplify_eq_self (isNormal_simplify chain)⟩
  constructor
  · intro h
    rw [← h]
    exact isNormal_simplify chain
  · exact simplify_eq_self

end Simplify

end Chain

end ColorChain
