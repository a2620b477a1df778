import ColorChain.Transform.Tree

/-!
# Schedules

A schedule is a transform laid out flat: which atoms to apply in which order, each as it stands or
undone. A node that cannot be evaluated keeps its place as an obstacle.
-/

namespace ColorChain

universe u

/-- Why a node cannot be evaluated at all. -/
inductive Obstacle where
  | unknownDirection (kind : Kind)
  | unresolved (kind : Kind)
deriving DecidableEq, Repr

/-- One entry of a schedule. -/
inductive Step (α : Type u) where
  | apply (atom : Atom α) (inverted : Bool)
  | stuck (obstacle : Obstacle)

variable {α : Type u}

namespace Transform

/-- The entries of a node with the given direction inside its whole: those of `known`, told whether
the node is undone, unless the direction is unknown. -/
def oriented (kind : Kind) (known : Bool → List (Step α)) : Direction → List (Step α)
  | .forward => known false
  | .inverse => known true
  | .unknown => [.stuck (.unknownDirection kind)]

mutual

/-- The schedule of a transform inside a whole with the direction `outer`. A group that is undone
undoes its children from last to first. -/
def schedule (outer : Direction) : Transform α → List (Step α)
  | atom d a => oriented a.kind (fun inverted => [.apply a inverted]) (outer.combine d)
  | display d .. => oriented .display (fun _ => [.stuck (.unresolved .display)]) (outer.combine d)
  | group d children =>
    oriented .group (fun inverted => if inverted then undoAll children else doAll children)
      (outer.combine d)

def doAll : List (Transform α) → List (Step α)
  | [] => []
  | t :: ts => schedule .forward t ++ doAll ts

def undoAll : List (Transform α) → List (Step α)
  | [] => []
  | t :: ts => undoAll ts ++ schedule .inverse t

end

theorem doAll_eq_flatMap (ts : List (Transform α)) : doAll ts = ts.flatMap (schedule .forward) := by
  induction ts with
  | nil => rfl
  | cons t ts ih => simp [doAll, ih]

theorem undoAll_eq_flatMap (ts : List (Transform α)) :
    undoAll ts = ts.reverse.flatMap (schedule .inverse) := by
  induction ts with
  | nil => rfl
  | cons t ts ih => simp [undoAll, ih]

end Transform

end ColorChain
