import ColorChain.Transform.Atom
import ColorChain.Transform.Direction

/-!
# Transforms

A transform is a tree: atoms at the leaves, groups that apply their children in order, and displays
that hold up to four transforms for the stages of viewing. Every node has a direction.
-/

namespace ColorChain

universe u

/-- What a display shows and how. -/
structure DisplaySettings where
  inputSpace : String := ""
  display : String := ""
  view : String := ""
  looksOverride : String := ""
  looksOverrideEnabled : Bool := false
deriving DecidableEq, Repr

/-- A tree of transforms. -/
inductive Transform (α : Type u) where
  | atom (direction : Direction) (atom : Atom α)
  | display (direction : Direction) (settings : DisplaySettings)
      (linear colorTiming channelView displayed : Option (Transform α))
  | group (direction : Direction) (children : List (Transform α))
deriving BEq, Repr

namespace Transform

variable {α : Type u}

def kind : Transform α → Kind
  | atom _ a => a.kind
  | display .. => .display
  | group .. => .group

def direction : Transform α → Direction
  | atom d _ => d
  | display d .. => d
  | group d _ => d

/-- The transform with the direction of its root replaced. -/
def setDirection (d : Direction) : Transform α → Transform α
  | atom _ a => atom d a
  | display _ settings linear colorTiming channelView displayed =>
    display d settings linear colorTiming channelView displayed
  | group _ children => group d children

/-- The transform with the direction of its root turned round. -/
def inverse (t : Transform α) : Transform α := t.setDirection t.direction.flip

theorem direction_setDirection (d : Direction) (t : Transform α) :
    (t.setDirection d).direction = d := by cases t <;> rfl

theorem inverse_inverse (t : Transform α) : t.inverse.inverse = t := by
  cases t <;> simp [inverse, direction, setDirection, Direction.flip_flip]

/-- The transforms directly below the root, in order. -/
def parts : Transform α → List (Transform α)
  | atom .. => []
  | display _ _ linear colorTiming channelView displayed =>
    [linear, colorTiming, channelView, displayed].filterMap id
  | group _ children => children

end Transform

end ColorChain
