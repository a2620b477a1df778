import ColorChain.Proofs.Chain.NormalForm

/-!
# Chains optimized in pieces

Over a commutative ring the normal form of a chain is built up from its end: an operation is put in
front of a normal form, and if both begin with an affine map the two become one, or nothing if they
cancel. Fusing is associative, so it is no matter what was fused before, and a chain may be put
together from parts that were optimized by themselves.
-/

namespace ColorChain

universe u v

namespace Chain

section Push

variable {α : Type u} {β : Type v}
variable [Zero α] [One α] [BEq α] [One β] [BEq β]

/-- The operation in front of a chain, unless it does nothing. -/
def consProper (op : Op α β) (chain : Chain α β) : Chain α β :=
  if op.isIdentity then chain else op :: chain

theorem dropIdentities_cons (op : Op α β) (chain : Chain α β) :
    dropIdentities (op :: chain) = consProper op chain.dropIdentities := by
  by_cases h : op.isIdentity <;> simp [dropIdentities, consProper, h]

/-- The operation in front of a normal form, fused with its first operation if both are affine. -/
def push [Add α] [Mul α] : Op α β → Chain α β → Chain α β
  | .affine first, .affine next :: chain => consProper (.affine (next.after first)) chain
  | op, chain => consProper op chain

/-- After an affine map a normal form goes on with an operation of another kind. -/
theorem IsNormal.head_of_affine {map : Affine α} {chain : Chain α β} (h : IsNormal (.affine map :: chain)) :
    ∀ op ∈ chain.head?, op.isAffine = false := by
  intro op hop
  simpa [Apart, Op.isAffine] using (List.isChain_cons.mp h.apart).1 op hop

variable [Add α] [Mul α]

theorem push_of_not_affine {op : Op α β} (h : op.isAffine = false) (chain : Chain α β) :
    push op chain = consProper op chain := by
  cases op with
  | affine map => cases h
  | _ => rfl

/-- Nothing is fused with an operation that is not affine. -/
theorem push_affine_of_head (map : Affine α) {chain : Chain α β}
    (h : ∀ op ∈ chain.head?, op.isAffine = false) :
    push (.affine map) chain = consProper (.affine map) chain := by
  cases chain with
  | nil => rfl
  | cons op chain =>
      have hop := h op rfl
      cases op with
      | affine next => cases hop
      | _ => rfl

end Push

section Ring

variable {R : Type u} [CommRing R] [BEq R] [LawfulBEq R]
variable {β : Type v} [One β] [BEq β]
variable {chain : Chain R β}

/-- An operation that does nothing leaves a normal form as it is. -/
theorem push_of_isIdentity {op : Op R β} (hop : op.isIdentity) (h : chain.IsNormal) :
    push op chain = chain := by
  have hdrop : consProper op chain = chain := if_pos hop
  cases op with
  | affine first =>
      cases chain with
      | nil => exact hdrop
      | cons next chain =>
          cases next with
          | affine next =>
              have hfirst : first = Affine.identity := Affine.eq_identity_of_isIdentity hop
              have hnext : (.affine next : Op R β).isIdentity = false := h.proper _ (.head _)
              rw [push, hfirst, Affine.after_identity, consProper, hnext]
              rfl
          | _ => exact hdrop
  | _ => exact hdrop

/-- Two affine maps are fused with a normal form one by one or both at once. -/
theorem push_push (first next : Affine R) (h : chain.IsNormal) :
    push (.affine first) (push (.affine next) chain) = push (.affine (next.after first)) chain := by
  -- In front of what does not begin with an affine map the second one may still be dropped.
  have hseparate (map : Affine R) {rest : Chain R β} (hrest : ∀ op ∈ rest.head?, op.isAffine = false) :
      push (.affine first) (consProper (.affine map) rest)
        = consProper (.affine (map.after first)) rest := by
    by_cases hmap : (.affine map : Op R β).isIdentity
    · rw [consProper, if_pos hmap, Affine.eq_identity_of_isIdentity hmap, Affine.identity_after,
        push_affine_of_head first hrest]
    · rw [consProper, if_neg hmap]
      rfl
  cases chain with
  | nil => exact hseparate next (by simp)
  | cons op chain =>
      cases op with
      | affine map =>
          have hrest := h.head_of_affine
          calc push (.affine first) (push (.affine next) (.affine map :: chain))
              = push (.affine first) (consProper (.affine (map.after next)) chain) := rfl
            _ = consProper (.affine ((map.after next).after first)) chain := hseparate _ hrest
            _ = push (.affine (next.after first)) (.affine map :: chain) := by
              rw [Affine.after_after]
              rfl
      | _ => exact hseparate next (by simp [Op.isAffine])

/-- A pending map is fused with the normal form of what follows it. -/
theorem dropIdentities_fuseAfter_some (pending : Affine R)
    (hproper : ∀ op ∈ chain, op.isIdentity = false) :
    (fuseAfter (some pending) chain).dropIdentities
      = push (.affine pending) chain.fuse.dropIdentities := by
  induction chain generalizing pending with
  | nil => exact dropIdentities_cons (.affine pending) []
  | cons op chain ih =>
      obtain ⟨hop, hrest⟩ := List.forall_mem_cons.mp hproper
      cases op with
      | affine map =>
          have hnormal : IsNormal (dropIdentities (fuse chain)) := by
            rw [← dropIdentities_eq_self hrest]
            exact isNormal_simplify chain
          have hfuse : fuse (.affine map :: chain) = fuseAfter (some map) chain := rfl
          rw [fuseAfter, ih _ hrest, hfuse, ih _ hrest, push_push _ _ hnormal]
      | _ =>
          simp only [fuse, fuseAfter, dropIdentities_cons]
          rw [push_affine_of_head]
          simp [consProper, hop, Op.isAffine]

/-- The normal form of a chain, from its end. -/
theorem simplify_cons (op : Op R β) (chain : Chain R β) :
    simplify (op :: chain) = push op chain.simplify := by
  by_cases hop : op.isIdentity
  · rw [push_of_isIdentity hop (isNormal_simplify chain), simplify, dropIdentities_cons, consProper,
      if_pos hop]
    rfl
  · have hproper : ∀ op ∈ chain.dropIdentities, op.isIdentity = false :=
      fun op hop => (mem_dropIdentities_iff.mp hop).2
    rw [simplify, dropIdentities_cons, consProper, if_neg hop]
    cases op with
    | affine map => exact dropIdentities_fuseAfter_some map hproper
    | _ =>
        rw [push_of_not_affine rfl]
        exact dropIdentities_cons _ _

theorem simplify_append_simplify (first next : Chain R β) :
    (first ++ next.simplify).simplify = (first ++ next).simplify := by
  induction first with
  | nil => exact simplify_eq_self (isNormal_simplify next)
  | cons op first ih => rw [List.cons_append, List.cons_append, simplify_cons, simplify_cons, ih]

/-- What is put in front of a chain may be fused with its first operation beforehand. -/
theorem simplify_push_append (op : Op R β) (first next : Chain R β) :
    (push op first ++ next).simplify = simplify (op :: first ++ next) := by
  have hcons (op : Op R β) (chain : Chain R β) :
      (consProper op chain ++ next).simplify = simplify (op :: chain ++ next) := by
    by_cases hop : op.isIdentity
    · rw [consProper, if_pos hop, List.cons_append, simplify_cons,
        push_of_isIdentity hop (isNormal_simplify _)]
    · rw [consProper, if_neg hop]
  cases op with
  | affine map =>
      cases first with
      | nil => exact hcons (.affine map) []
      | cons op first =>
          cases op with
          | affine map' =>
              rw [push, hcons]
              simp only [List.cons_append, simplify_cons]
              rw [push_push _ _ (isNormal_simplify _)]
          | _ => exact hcons (.affine map) _
  | _ => exact hcons _ _

theorem simplify_simplify_append (first next : Chain R β) :
    (first.simplify ++ next).simplify = (first ++ next).simplify := by
  induction first with
  | nil => rfl
  | cons op first ih =>
      rw [simplify_cons, simplify_push_append, List.cons_append, simplify_cons, ih, List.cons_append,
        simplify_cons]

/-- Two chains may be optimized before they are joined. -/
theorem simplify_append (first next : Chain R β) :
    (first ++ next).simplify = (first.simplify ++ next.simplify).simplify := by
  rw [simplify_append_simplify, simplify_simplify_append]

end Ring

end Chain

/-- A way to put a chain together: from pieces that are joined in any grouping, with any part on the
way optimized before it is used. -/
inductive Assembly (α : Type u) (β : Type v) where
  | piece (chain : Chain α β)
  | join (first next : Assembly α β)
  | optimized (effort : Effort) (part : Assembly α β)

namespace Assembly

variable {α : Type u} {β : Type v}

/-- All pieces in a row. -/
def joined : Assembly α β → Chain α β
  | piece chain => chain
  | join first next => first.joined ++ next.joined
  | optimized _ part => part.joined

/-- The chain that is put together. -/
def result [Zero α] [One α] [Add α] [Mul α] [BEq α] [One β] [BEq β] : Assembly α β → Chain α β
  | piece chain => chain
  | join first next => first.result ++ next.result
  | optimized effort part => part.result.optimize effort

end Assembly

namespace Chain

variable {R : Type u} [CommRing R] [BEq R] [LawfulBEq R]
variable {β : Type v} [One β] [BEq β]

theorem simplify_result (assembly : Assembly R β) :
    assembly.result.simplify = assembly.joined.simplify := by
  induction assembly with
  | piece chain => rfl
  | join first next ihFirst ihNext =>
      rw [Assembly.result, Assembly.joined, simplify_append, ihFirst, ihNext, ← simplify_append]
  | optimized effort part ih =>
      cases effort with
      | none => exact ih
      | lossless => exact (simplify_eq_self (isNormal_simplify _)).trans ih

/-- Optimizing two chains and then the two in a row gives the very operations that optimizing the two
in a row gives. So however a chain is put together, and whatever parts are optimized on the way, it
becomes the same list of operations in the end. -/
theorem optimize_append_optimize (first next : Chain R β) (assembly : Assembly R β) :
    (first ++ next).optimize .lossless =
        (first.optimize .lossless ++ next.optimize .lossless).optimize .lossless ∧
      assembly.result.optimize .lossless = assembly.joined.optimize .lossless :=
  ⟨simplify_append first next, simplify_result assembly⟩

/-- Two gains cancel at the seam, and two exponents there are met by none. -/
theorem optimize_append_optimize_gains :
    let double : Op ℚ ℚ := .affine (.ofMatrix (.diagonal (Rgba.fill 2)))
    let halve : Op ℚ ℚ := .affine (.ofMatrix (.diagonal (Rgba.fill (1 / 2))))
    let first : Chain ℚ ℚ := [.log 10, double, .exponent (Rgba.fill 1)]
    let next : Chain ℚ ℚ := [halve, .exponent (Rgba.fill 2), double]
    let assembly : Assembly ℚ ℚ :=
      .join (.optimized .lossless (.piece first)) (.optimized .lossless (.piece next))
    (first ++ next).optimize .lossless =
        (first.optimize .lossless ++ next.optimize .lossless).optimize .lossless ∧
      assembly.result.optimize .lossless = assembly.joined.optimize .lossless :=
  optimize_append_optimize _ _ _

end Chain

end ColorChain
