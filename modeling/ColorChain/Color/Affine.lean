import ColorChain.Color.Matrix

/-!
# Affine maps

A matrix and an offset added after it. Two maps in a row are one map, and an invertible matrix gives
the map that undoes it.
-/

namespace ColorChain

universe u

/-- The map `matrix * p + offset`. -/
structure Affine (α : Type u) where
  matrix : ColorMatrix α
  offset : Rgba α
deriving BEq, ReflBEq, LawfulBEq, DecidableEq, Repr

namespace Affine

variable {α : Type u}

def identity [Zero α] [One α] : Affine α := ⟨ColorMatrix.identity, Rgba.fill 0⟩

def ofMatrix [Zero α] (m : ColorMatrix α) : Affine α := ⟨m, Rgba.fill 0⟩

/-- Whether the map is the identity, element by element. -/
def isIdentity [Zero α] [One α] [BEq α] (f : Affine α) : Bool :=
  f.matrix == ColorMatrix.identity && f.offset == Rgba.fill 0

def apply [Add α] [Mul α] (f : Affine α) (p : Rgba α) : Rgba α :=
  Rgba.zip (· + ·) (f.matrix.apply p) f.offset

/-- The map that applies `first` and then `next`. -/
def after [Add α] [Mul α] (next first : Affine α) : Affine α :=
  ⟨next.matrix.mul first.matrix, Rgba.zip (· + ·) (next.matrix.apply first.offset) next.offset⟩

/-- The map that undoes `f`, if its matrix has an inverse. -/
def inverse? [Zero α] [One α] [Add α] [Sub α] [Neg α] [Mul α] [Div α] [BEq α] [LT α]
    [DecidableLT α] [OfScientific α] [Elementary α] (f : Affine α) : Option (Affine α) :=
  f.matrix.inverse?.map fun inverse => ⟨inverse, (inverse.apply f.offset).map (- ·)⟩

/-- A scale and an offset for the color channels, alpha kept. -/
def onColor [Zero α] [One α] (scale offset : Rgb α) : Affine α :=
  ⟨ColorMatrix.diagonal (scale.withAlpha 1), offset.withAlpha 0⟩

end Affine

end ColorChain
