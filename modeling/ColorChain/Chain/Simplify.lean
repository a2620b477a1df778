import ColorChain.Chain.Op

/-!
# Simplifying a chain

Operations that do nothing are dropped and neighbouring affine maps become one. Fusion can leave an
identity behind, so operations are dropped once more afterwards.
-/

namespace ColorChain

universe u v

variable {α : Type u} {β : Type v}

/-- How far a chain is simplified. -/
inductive Effort where
  | none
  | lossless
deriving DecidableEq, Repr

namespace Chain

/-- The chain without the operations that do nothing. -/
def dropIdentities [Zero α] [One α] [BEq α] [One β] [BEq β] (chain : Chain α β) : Chain α β :=
  chain.filter fun op => !op.isIdentity

/-- The chain with every run of affine maps fused, after an affine map that is still `pending`. -/
def fuseAfter [Add α] [Mul α] : Option (Affine α) → Chain α β → Chain α β
  | none, [] => []
  | some pending, [] => [.affine pending]
  | none, .affine map :: chain => fuseAfter (some map) chain
  | some pending, .affine map :: chain => fuseAfter (some (map.after pending)) chain
  | none, op :: chain => op :: fuseAfter none chain
  | some pending, op :: chain => .affine pending :: op :: fuseAfter none chain

/-- The chain with every run of affine maps fused into one. -/
def fuse [Add α] [Mul α] (chain : Chain α β) : Chain α β := fuseAfter none chain

/-- The chain in its shortest form: no identity and no two affine maps in a row. -/
def simplify [Zero α] [One α] [Add α] [Mul α] [BEq α] [One β] [BEq β] (chain : Chain α β) :
    Chain α β :=
  chain.dropIdentities.fuse.dropIdentities

/-- The chain simplified with the given effort. -/
def optimize [Zero α] [One α] [Add α] [Mul α] [BEq α] [One β] [BEq β] :
    Effort → Chain α β → Chain α β
  | .none, chain => chain
  | .lossless, chain => chain.simplify

end Chain

end ColorChain
