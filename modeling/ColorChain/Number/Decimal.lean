import ColorChain.Number.Binary

/-!
# Decimal numbers

A decimal number is a coefficient and a power of ten. `Format.shortest` gives the fewest decimal
digits that read back as a given value; that they do is tested by the search itself, and the exact
expansion of the value is there if no short candidate passes.
-/

namespace ColorChain.Number

/-- The number `coefficient * 10 ^ exponent`. -/
structure Decimal where
  coefficient : Nat
  exponent : Int
deriving DecidableEq, Repr

/-- The decimal digits of a number, most significant first. -/
def digits (n : Nat) : List Char := Nat.toDigits 10 n

namespace Decimal

/-- Ten to the power `e` as a factor: one if `e` is negative. -/
def tenScale (e : Int) : Nat := Nat.pow 10 e.toNat

/-- The place of the decimal point, counted from before the first digit: the number is
`0.DIGITS * 10 ^ point`. -/
def point (d : Decimal) : Int := d.exponent + (digits d.coefficient).length

/-- The pattern nearest to a decimal number. A number whose point lies beyond what the format can
hold, to the left or to the right, is settled without computing its power of ten. -/
def nearest (f : Format) (d : Decimal) : Nat :=
  if d.coefficient = 0 then 0
  else if (twoTo f.exponentBits : Int) < d.point then f.infinityBits
  else if d.point < -((twoTo f.exponentBits : Int) + f.fractionBits) then 0
  else f.nearest (d.coefficient * tenScale d.exponent) (tenScale (-d.exponent))

/-- The same number without trailing zeros in its coefficient, at most `fuel` of them. -/
def stripZeros : Nat → Decimal → Decimal
  | 0, d => d
  | fuel + 1, d =>
    if d.coefficient ≠ 0 ∧ d.coefficient % 10 = 0 then
      stripZeros fuel ⟨d.coefficient / 10, d.exponent + 1⟩
    else d

/-- The same number with the shortest coefficient. -/
def normal (d : Decimal) : Decimal := stripZeros (digits d.coefficient).length d

/-- The decimal number that equals `significand * 2 ^ exponent`. -/
def ofBinary (significand : Nat) (exponent : Int) : Decimal :=
  if 0 ≤ exponent then ⟨significand * twoTo exponent.toNat, 0⟩
  else ⟨significand * Nat.pow 5 (-exponent).toNat, exponent⟩

end Decimal

/-- Which of two equally near neighbours is taken. -/
inductive Tie where
  | up
  | toEven
deriving DecidableEq, Repr

/-- The greatest `k` with `10 ^ k ≤ num / den`, for positive arguments. -/
def floorLog10 (num den : Nat) : Int :=
  let k : Int := ((digits num).length : Int) - (digits den).length
  if den * Decimal.tenScale k ≤ num * Decimal.tenScale (-k) then k else k - 1

/-- Of the two neighbours of `num / den` on the grid of multiples of `10 ^ exponent`, the nearer
one that reads back as `bits`. -/
def Format.neighbour? (f : Format) (tie : Tie) (bits num den : Nat) (exponent : Int) :
    Option Decimal :=
  let top := num * Decimal.tenScale (-exponent)
  let bottom := den * Decimal.tenScale exponent
  let below : Decimal := ⟨top / bottom, exponent⟩
  let above : Decimal := ⟨top / bottom + 1, exponent⟩
  let twice := 2 * (top % bottom)
  let upper := bottom < twice ∨
    (twice = bottom ∧ (tie = .up ∨ below.coefficient % 2 = 1))
  match below.nearest f == bits, above.nearest f == bits with
  | true, true => some (if upper then above else below)
  | true, false => some below
  | false, true => some above
  | false, false => none

/-- The fewest digits that read back as the positive finite pattern `bits`, the nearest of those. -/
def Format.shortest (f : Format) (tie : Tie) (bits : Nat) : Decimal :=
  let (significand, exponent) := f.magnitude bits
  let num := significand * upScale exponent
  let den := upScale (-exponent)
  let leading := floorLog10 num den
  let found := (List.range 17).findSome? fun (n : Nat) =>
    f.neighbour? tie bits num den (leading - n)
  (found.getD (Decimal.ofBinary significand exponent)).normal

end ColorChain.Number
