/-!
# Binary floating point

The two binary interchange formats as arithmetic on natural numbers: what a bit pattern stands for,
and the pattern nearest to an exact quotient. Every conversion between widths and from text is one
call of `Format.nearest`.
-/

namespace ColorChain.Number

/-- A binary interchange format: the widths of its fraction and exponent fields. -/
structure Format where
  fractionBits : Nat
  exponentBits : Nat
deriving DecidableEq, Repr

/-- Two to the power `n`. -/
def twoTo (n : Nat) : Nat := Nat.pow 2 n

def Format.binary64 : Format := ⟨52, 11⟩

def Format.binary32 : Format := ⟨23, 8⟩

namespace Format

/-- The exponent of the least unit: every finite value is a whole multiple of two to this power. -/
def leastExponent (f : Format) : Int := 2 - (twoTo (f.exponentBits - 1) : Int) - f.fractionBits

/-- The pattern of positive infinity, the first that is no finite value. -/
def infinityBits (f : Format) : Nat := (twoTo f.exponentBits - 1) * twoTo f.fractionBits

/-- The weight of the sign bit. -/
def signWeight (f : Format) : Nat := twoTo (f.fractionBits + f.exponentBits)

end Format

/-- What a bit pattern stands for. A finite value is `significand * 2 ^ exponent`. -/
inductive Datum where
  | nan
  | infinity (negative : Bool)
  | finite (negative : Bool) (significand : Nat) (exponent : Int)
deriving DecidableEq, Repr

/-- The significand and exponent of the finite pattern `bits`, its sign left out. -/
def Format.magnitude (f : Format) (bits : Nat) : Nat × Int :=
  let biased := bits / twoTo f.fractionBits
  let fraction := bits % twoTo f.fractionBits
  if biased = 0 then (fraction, f.leastExponent)
  else (twoTo f.fractionBits + fraction, f.leastExponent + (biased - 1))

/-- What the pattern `bits` stands for. -/
def Format.datum (f : Format) (bits : Nat) : Datum :=
  let negative := bits / f.signWeight % 2 == 1
  let rest := bits % f.signWeight
  if rest < f.infinityBits then
    let (significand, exponent) := f.magnitude rest
    .finite negative significand exponent
  else if rest = f.infinityBits then .infinity negative
  else .nan

/-- The whole number nearest to `num / den`, a half going to the even neighbour. -/
def roundQuotient (num den : Nat) : Nat :=
  let quotient := num / den
  let rest := num % den
  if 2 * rest < den then quotient
  else if den < 2 * rest then quotient + 1
  else if quotient % 2 = 0 then quotient
  else quotient + 1

/-- Two to the power `e` as a factor of a numerator: one if `e` is negative. -/
def upScale (e : Int) : Nat := twoTo e.toNat

/-- The greatest `k` with `2 ^ k ≤ num / den`, for positive arguments. -/
def floorLog2 (num den : Nat) : Int :=
  let k : Int := (num.log2 : Int) - den.log2
  if den * upScale k ≤ num * upScale (-k) then k else k - 1

/-- The pattern of the value nearest to `num / den`, a half going to the even pattern, and
infinity if the quotient is too large. The pattern counts the values from zero up, so that a
significand that rounds up to the next power of two needs no case of its own. -/
def Format.nearest (f : Format) (num den : Nat) : Nat :=
  if num = 0 then 0
  else
    let exponent := max f.leastExponent (floorLog2 num den - f.fractionBits)
    let significand := roundQuotient (num * upScale (-exponent)) (den * upScale exponent)
    min f.infinityBits ((exponent - f.leastExponent).toNat * twoTo f.fractionBits + significand)

/-- The pattern of a NaN. -/
def Format.nanBits (f : Format) : Nat := f.infinityBits + twoTo (f.fractionBits - 1)

/-- A pattern with its sign set. -/
def Format.signed (f : Format) (negative : Bool) (bits : Nat) : Nat :=
  if negative then f.signWeight + bits else bits

/-- The pattern of the value nearest to a datum of any format. -/
def Format.ofDatum (f : Format) : Datum → Nat
  | .nan => f.nanBits
  | .infinity negative => f.signed negative f.infinityBits
  | .finite negative significand exponent =>
    f.signed negative (f.nearest (significand * upScale exponent) (upScale (-exponent)))

/-- A type of floating-point numbers given by the patterns of a format. -/
class BinaryFloat (F : Type) where
  format : Format
  toBits : F → Nat
  ofBits : Nat → F

instance : BinaryFloat Float where
  format := .binary64
  toBits x := x.toBits.toNat
  ofBits n := Float.ofBits (UInt64.ofNat n)

instance : BinaryFloat Float32 where
  format := .binary32
  toBits x := x.toBits.toNat
  ofBits n := Float32.ofBits (UInt32.ofNat n)

namespace BinaryFloat

variable {F G : Type} [BinaryFloat F] [BinaryFloat G]

/-- What a number stands for. -/
def datum (x : F) : Datum := (format F).datum (toBits x)

/-- The number nearest to a datum. -/
def ofDatum (d : Datum) : F := ofBits ((format F).ofDatum d)

/-- The number of another width nearest to `x`. -/
def convert (x : F) : G := ofDatum (datum x)

/-- The number nearest to an integer. -/
def ofInteger (n : Int) : F := ofDatum (.finite (n < 0) n.natAbs 0)

end BinaryFloat

end ColorChain.Number
