import ColorChain.Number.Text
import ColorChain.Text.Utf8
import ColorChain.Yaml.Scalar
import ColorChain.Yaml.Value

/-!
# Scalars with types

A plain scalar is null, a truth value, a number or a string by its spelling. A tag can force one of
these types on any scalar.
-/

namespace ColorChain.Yaml

/-- The spellings of null, apart from the empty one. -/
def isNull (cs : List Char) : Bool :=
  ["~", "null", "Null", "NULL"].contains (String.ofList cs)

def truth? (cs : List Char) : Option Bool :=
  let s := String.ofList cs
  if ["true", "True", "TRUE"].contains s then some true
  else if ["false", "False", "FALSE"].contains s then some false
  else none

/-- Whether a text is a zero with more digits after it, which is no number. -/
def isPaddedDigits (cs : List Char) : Bool :=
  let ds := match cs with
    | '-' :: ds => ds
    | '+' :: ds => ds
    | ds => ds
  match ds with
  | '0' :: d :: ds => (d :: ds).all Char.isDigit
  | _ => false

/-- The value of at least one digit, all below the base. -/
def digitsIn? (base : Nat) (cs : List Char) : Option Nat :=
  if cs = [] then none
  else cs.foldl (fun value? c => do
    let value ← value?
    let digit ← hexDigit? c
    if digit < base then some (value * base + digit) else none) (some 0)

/-- A whole number without a sign: decimal, or in base 16, 8 or 2 after a mark. -/
def magnitude? : List Char → Option Nat
  | '0' :: 'x' :: ds => digitsIn? 16 ds
  | '0' :: 'o' :: ds => digitsIn? 8 ds
  | '0' :: 'b' :: ds => digitsIn? 2 ds
  | ds => if isPaddedDigits ds then none else digitsIn? 10 ds

/-- A whole number of any size. -/
def whole? : List Char → Option Int
  | '-' :: cs => (magnitude? cs).map fun n => -(n : Int)
  | '+' :: cs => (magnitude? cs).map fun n => (n : Int)
  | cs => (magnitude? cs).map fun n => (n : Int)

/-- Whether a whole number has at most 64 bits, with or without a sign bit. -/
def fits64 (n : Int) : Bool := -(Number.twoTo 63 : Int) ≤ n && n < Number.twoTo 64

/-- Whether a whole number has at most 128 bits, with or without a sign bit. -/
def fits128 (n : Int) : Bool := -(Number.twoTo 127 : Int) ≤ n && n < Number.twoTo 128

def infinity : Float := Number.BinaryFloat.ofDatum (.infinity false)

def notANumber : Float := Number.BinaryFloat.ofDatum .nan

/-- A number with a fraction or an exponent, or one of the words for infinity and NaN. A number that
is too large is none. -/
def fractional? (cs : List Char) : Option Float :=
  let s := String.ofList cs
  let unsigned := if cs.head? = some '+' then cs.drop 1 else cs
  let doubleSign := cs.head? == some '+'
    && (unsigned.head? == some '+' || unsigned.head? == some '-')
  if doubleSign then none
  else if [".inf", ".Inf", ".INF"].contains (String.ofList unsigned) then some infinity
  else if ["-.inf", "-.Inf", "-.INF"].contains s then some (-infinity)
  else if [".nan", ".NaN", ".NAN"].contains s then some notANumber
  else
    match Number.read unsigned with
    | .ok (x : Float) => if x.isFinite then some x else none
    | .error _ => none

/-- What a plain scalar says. A whole number of more than 64 but at most 128 bits is refused. -/
def plainValue? (cs : List Char) : Option Value :=
  if cs = [] ∨ isNull cs then some .null
  else
    match truth? cs, whole? cs with
    | some b, _ => some (.boolean b)
    | none, some n =>
      if fits64 n then some (.integer n)
      else if fits128 n then none
      else (fractional? cs).map .floating
    | none, none =>
      match if isPaddedDigits cs then none else fractional? cs with
      | some x => some (.floating x)
      | none => some (.string (String.ofList cs))

/-- What a tag does to a value. -/
inductive Tag where
  /-- It becomes a part of the value. -/
  | named (name : String)
  | integer
  | floating
  | boolean
  | null
  /-- A plain scalar under it is a string. -/
  | other
deriving DecidableEq, Repr

/-- What a tag in full does, if anything. -/
def Tag.ofBytes? (bytes : Text.Bytes) : Option Tag :=
  match Text.decode bytes with
  | .error _ => if bytes.head? = some 0x21 then none else some .other
  | .ok ['!'] => none
  | .ok ('!' :: name) => some (.named (String.ofList name))
  | .ok name =>
    match String.ofList name with
    | "tag:yaml.org,2002:int" => some .integer
    | "tag:yaml.org,2002:float" => some .floating
    | "tag:yaml.org,2002:bool" => some .boolean
    | "tag:yaml.org,2002:null" => some .null
    | _ => some .other

/-- What a scalar says. -/
def scalarValue? (tag? : Option Tag) (plain : Bool) (cs : List Char) : Option Value :=
  let untagged := if plain then plainValue? cs else some (.string (String.ofList cs))
  match tag? with
  | none => untagged
  | some (.named name) => untagged.map (.tagged name)
  | some .integer => ((whole? cs).filter fits64).map .integer
  | some .floating => (fractional? cs).map .floating
  | some .boolean => (truth? cs).map .boolean
  | some .null => if isNull cs then some .null else none
  | some .other => some (.string (String.ofList cs))

end ColorChain.Yaml
