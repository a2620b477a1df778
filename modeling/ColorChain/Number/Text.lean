import ColorChain.Number.Decimal

/-!
# Numbers as text

A `Layout` holds the decisions of one way to write numbers: when a number is written positionally
and when with an exponent, whether whole numbers end in `.0`, and the words for infinity and NaN.
`read` is the one reader: it accepts every positional and exponent form.
-/

namespace ColorChain.Number

/-- One way to write numbers. -/
structure Layout where
  /-- Which of two equally near shortest forms is written. -/
  tie : Tie
  /-- Written positionally where the decimal point of `0.DIGITS * 10 ^ point` allows it. -/
  positional : Int → Bool
  /-- Whole numbers end in `.0`. -/
  pointZero : Bool
  infinity : List Char
  nan : List Char

/-- Always positional, whole numbers without a fraction. -/
def Layout.plain : Layout where
  tie := .up
  positional _ := true
  pointZero := false
  infinity := ['i', 'n', 'f']
  nan := ['N', 'a', 'N']

/-- Positional from 1e-4 to below 1e16, always with a fraction. -/
def Layout.detailed : Layout where
  tie := .up
  positional point := -4 < point && point ≤ 16
  pointZero := true
  infinity := ['i', 'n', 'f']
  nan := ['N', 'a', 'N']

def zeros (n : Nat) : List Char := List.replicate n '0'

namespace Layout

/-- Digits with a decimal point at `point`. -/
def placed (l : Layout) (ds : List Char) (point : Int) : List Char :=
  if point ≤ 0 then '0' :: '.' :: (zeros (-point).toNat ++ ds)
  else if ds.length ≤ point.toNat then
    ds ++ zeros (point.toNat - ds.length) ++ (if l.pointZero then ['.', '0'] else [])
  else ds.take point.toNat ++ '.' :: ds.drop point.toNat

/-- The digits of an integer with a minus sign if it is negative. -/
def integer (n : Int) : List Char :=
  if n < 0 then '-' :: digits n.natAbs else digits n.natAbs

/-- Digits with one digit before the decimal point and a power of ten. -/
def scientific (ds : List Char) (point : Int) : List Char :=
  let mantissa := if ds.length ≤ 1 then ds else ds.take 1 ++ '.' :: ds.drop 1
  mantissa ++ 'e' :: integer (point - 1)

/-- A positive decimal number. -/
def decimal (l : Layout) (d : Decimal) : List Char :=
  let ds := digits d.coefficient
  if l.positional d.point then l.placed ds d.point else scientific ds d.point

def sign (negative : Bool) : List Char := if negative then ['-'] else []

/-- The text of the number with the pattern `bits`. -/
def ofBits (l : Layout) (f : Format) (bits : Nat) : List Char :=
  match f.datum bits with
  | .nan => l.nan
  | .infinity negative => sign negative ++ l.infinity
  | .finite negative significand _ =>
    if significand = 0 then sign negative ++ l.placed ['0'] 1
    else sign negative ++ l.decimal (f.shortest l.tie (bits % f.signWeight))

/-- The text of a number. -/
def chars {F : Type} [BinaryFloat F] (l : Layout) (x : F) : List Char :=
  l.ofBits (BinaryFloat.format F) (BinaryFloat.toBits x)

end Layout

/-- A number as text: shortest digits, positional, whole numbers without a fraction. -/
def text {F : Type} [BinaryFloat F] (x : F) : String := String.ofList (Layout.plain.chars x)

/-- A number with `places` decimal places, exactly rounded, a half going to the even neighbour. -/
def fixed {F : Type} [BinaryFloat F] (places : Nat) (x : F) : List Char :=
  match BinaryFloat.datum x with
  | .nan => Layout.plain.nan
  | .infinity negative => Layout.sign negative ++ Layout.plain.infinity
  | .finite negative significand exponent =>
    let scaled :=
      roundQuotient (significand * upScale exponent * Decimal.tenScale places) (upScale (-exponent))
    let ds := digits scaled
    let ds := zeros (places + 1 - ds.length) ++ ds
    let whole := ds.length - places
    Layout.sign negative ++ ds.take whole ++ '.' :: ds.drop whole

/-- Why a text is no number. -/
inductive ReadFault where
  | empty
  | malformed
deriving DecidableEq, Repr

def ReadFault.message : ReadFault → String
  | .empty => "cannot parse float from empty string"
  | .malformed => "invalid float literal"

/-- A number as read: exact, and not yet of any width. -/
inductive Literal where
  | nan
  | infinity (negative : Bool)
  | decimal (negative : Bool) (value : Decimal)
deriving DecidableEq, Repr

/-- The value of a run of digits. -/
def ofDigits (ds : List Char) : Nat := Nat.ofDigitChars 10 ds 0

/-- The power of ten that ends a decimal number: nothing, or `e` with a signed whole number. -/
def readExponent : List Char → Option Int
  | [] => some 0
  | c :: cs =>
    if c = 'e' ∨ c = 'E' then
      let (negative, ds) := match cs with
        | '-' :: ds => (true, ds)
        | '+' :: ds => (false, ds)
        | ds => (false, ds)
      if ds ≠ [] ∧ ds.all Char.isDigit then
        some (if negative then -(ofDigits ds : Int) else (ofDigits ds : Int))
      else none
    else none

/-- A decimal number without a sign: digits with an optional point, at least one digit, and an
optional power of ten. -/
def readDecimal (cs : List Char) : Option Decimal :=
  let whole := cs.takeWhile Char.isDigit
  let rest := cs.dropWhile Char.isDigit
  let (fraction, rest) := match rest with
    | '.' :: rest => (rest.takeWhile Char.isDigit, rest.dropWhile Char.isDigit)
    | rest => ([], rest)
  if whole ++ fraction = [] then none
  else (readExponent rest).map fun e => ⟨ofDigits (whole ++ fraction), e - fraction.length⟩

/-- A number without a sign. The words for infinity and NaN are read in any case. -/
def readUnsigned (negative : Bool) (cs : List Char) : Option Literal :=
  let word := String.ofList (cs.map Char.toLower)
  if word = "inf" ∨ word = "infinity" then some (.infinity negative)
  else if word = "nan" then some .nan
  else (readDecimal cs).map (.decimal negative)

/-- A number with an optional sign and nothing around it. -/
def readLiteral (cs : List Char) : Except ReadFault Literal :=
  if cs = [] then .error .empty
  else
    let found := match cs with
      | '-' :: rest => readUnsigned true rest
      | '+' :: rest => readUnsigned false rest
      | _ => readUnsigned false cs
    match found with
    | some literal => .ok literal
    | none => .error .malformed

/-- The pattern nearest to a literal. -/
def Literal.nearest (f : Format) : Literal → Nat
  | .nan => f.nanBits
  | .infinity negative => f.signed negative f.infinityBits
  | .decimal negative value => f.signed negative (value.nearest f)

/-- The number nearest to the one a text gives. -/
def read {F : Type} [BinaryFloat F] (cs : List Char) : Except ReadFault F :=
  (readLiteral cs).map fun literal =>
    BinaryFloat.ofBits (literal.nearest (BinaryFloat.format F))

end ColorChain.Number
