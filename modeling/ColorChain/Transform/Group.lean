import ColorChain.FileFormat
import ColorChain.Transform.Tree

/-!
# Groups

Reading and changing the children of a group. A transform of another kind has no children and is
left as it is.
-/

namespace ColorChain.Transform

universe u

variable {α : Type u}

/-- The children of a group, in order. -/
def children : Transform α → List (Transform α)
  | group _ children => children
  | _ => []

/-- The group with its children replaced. -/
def setChildren (t : Transform α) (children : List (Transform α)) : Transform α :=
  match t with
  | group d _ => group d children
  | t => t

/-- The group with one more child at its end. -/
def push (t child : Transform α) : Transform α := t.setChildren (t.children ++ [child])

/-- The child at an index. -/
def child (t : Transform α) (index : Nat) : Except IndexFault (Transform α) :=
  itemAt t.children index

/-- The group with the child at an index changed. -/
def modifyChild (t : Transform α) (index : Nat) (change : Transform α → Transform α) :
    Except IndexFault (Transform α) :=
  (t.child index).map fun child => t.setChildren (t.children.set index (change child))

end ColorChain.Transform
