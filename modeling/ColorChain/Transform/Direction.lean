/-!
# Directions

A transform is applied as it stands or undone. A direction that is not known is kept as such and
cannot be evaluated.
-/

namespace ColorChain

inductive Direction where
  | forward
  | inverse
  | unknown
deriving DecidableEq, Repr

namespace Direction

/-- The opposite direction. An unknown one stays unknown. -/
def flip : Direction → Direction
  | forward => inverse
  | inverse => forward
  | unknown => unknown

/-- The direction of a part inside a whole: forward if both agree, unknown if one of them is. -/
def combine : Direction → Direction → Direction
  | unknown, _ => unknown
  | _, unknown => unknown
  | forward, forward => forward
  | inverse, inverse => forward
  | forward, inverse => inverse
  | inverse, forward => inverse

theorem flip_flip (d : Direction) : d.flip.flip = d := by cases d <;> rfl

theorem combine_comm (d e : Direction) : d.combine e = e.combine d := by cases d <;> cases e <;> rfl

theorem flip_combine (d e : Direction) : d.flip.combine e = (d.combine e).flip := by
  cases d <;> cases e <;> rfl

def name : Direction → String
  | forward => "forward"
  | inverse => "inverse"
  | unknown => "unknown"

def all : List Direction := [forward, inverse, unknown]

end Direction

end ColorChain
