import ColorChain.Number.Binary

/-!
# Arithmetic of parameters and pixels

Evaluation is written over any two types of numbers: `α` for parameters and `β` for pixels. It asks
for operations and no laws, so the same definitions run on floating point and can be read over the
reals. The classes here are the operations that are not field operations or comparisons; their
instances for `Float` and `Float32` say how a chain runs.
-/

namespace ColorChain

universe u v

/-- The functions of analysis that evaluation uses. -/
class Elementary (α : Type u) where
  abs : α → α
  sqrt : α → α
  log : α → α
  pow : α → α → α
  max : α → α → α

/-- How parameters of type `α` meet pixels of type `β`. -/
class Precision (α : Type u) (β : Type v) where
  narrow : α → β
  widen : β → α
  /-- The least pixel value whose logarithm is taken. -/
  logFloor : β

export Precision (narrow widen)

instance zeroFloat : Zero Float := ⟨0.0⟩

instance oneFloat : One Float := ⟨1.0⟩

instance zeroFloat32 : Zero Float32 := ⟨0.0⟩

instance oneFloat32 : One Float32 := ⟨1.0⟩

/-- The greater of two numbers. If one of them is NaN it is the other. -/
def Float.greater (x y : Float) : Float :=
  if x.isNaN then y else if y.isNaN then x else if y < x then x else y

/-- The greater of two numbers. If one of them is NaN it is the other. -/
def Float32.greater (x y : Float32) : Float32 :=
  if x.isNaN then y else if y.isNaN then x else if y < x then x else y

instance : Elementary Float where
  abs := Float.abs
  sqrt := Float.sqrt
  log := Float.log
  pow := Float.pow
  max := Float.greater

instance : Elementary Float32 where
  abs := Float32.abs
  sqrt := Float32.sqrt
  log := Float32.log
  pow := Float32.pow
  max := Float32.greater

/-- Parameters in double and pixels in single precision. Pixels below the least normal number are
raised to it before a logarithm. -/
instance : Precision Float Float32 where
  narrow := Number.BinaryFloat.convert
  widen := Number.BinaryFloat.convert
  logFloor := Float32.ofBits 0x00800000

end ColorChain
