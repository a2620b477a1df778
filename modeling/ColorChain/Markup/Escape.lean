/-!
# Escaped text

The five characters that markup reserves have names; every character has a number. `escape` writes
names for the five and leaves all else as it is, `unescape` reads names and numbers.
-/

namespace ColorChain.Markup

/-- The escaped form of a character. -/
def escapeChar : Char → List Char
  | '<' => ['&', 'l', 't', ';']
  | '>' => ['&', 'g', 't', ';']
  | '&' => ['&', 'a', 'm', 'p', ';']
  | '\'' => ['&', 'a', 'p', 'o', 's', ';']
  | '"' => ['&', 'q', 'u', 'o', 't', ';']
  | c => [c]

def escape (cs : List Char) : List Char := cs.flatMap escapeChar

/-- The character with the given name. -/
def namedChar? : List Char → Option Char
  | ['l', 't'] => some '<'
  | ['g', 't'] => some '>'
  | ['a', 'm', 'p'] => some '&'
  | ['a', 'p', 'o', 's'] => some '\''
  | ['q', 'u', 'o', 't'] => some '"'
  | _ => none

/-- Why a number names no character. -/
inductive NumberFault where
  | sign
  | empty
  | digit
  | tooLarge
  | zero
  | notACharacter (value : Nat)
deriving DecidableEq, Repr

def NumberFault.message : NumberFault → String
  | .sign => "invalid character reference: unexpected number sign"
  | .empty => "invalid character reference: cannot parse integer from empty string"
  | .digit => "invalid character reference: invalid digit found in string"
  | .tooLarge => "invalid character reference: number too large to fit in target type"
  | .zero => "invalid character reference: 0x0 character is not permitted in XML"
  | .notACharacter value =>
    "invalid character reference: `" ++ toString value ++ "` is not a valid codepoint"

/-- The value of a digit in the given base. -/
def digitValue? (base : Nat) (c : Char) : Option Nat :=
  let value? :=
    if c.isDigit then some (c.toNat - '0'.toNat)
    else if 'a' ≤ c ∧ c ≤ 'f' then some (c.toNat - 'a'.toNat + 10)
    else if 'A' ≤ c ∧ c ≤ 'F' then some (c.toNat - 'A'.toNat + 10)
    else none
  value?.filter (· < base)

/-- A number of at most 32 bits, `value` read so far. The first fault from the left counts, and a
character that is no digit comes before a number that is too large. -/
def readDigits (base : Nat) (value : Nat) : List Char → Except NumberFault Nat
  | [] => .ok value
  | c :: cs =>
    match digitValue? base c with
    | none => .error .digit
    | some digit =>
      if 0x100000000 ≤ value * base + digit then .error .tooLarge
      else readDigits base (value * base + digit) cs

/-- A number without a sign, of at least one digit. -/
def readNumber (base : Nat) (cs : List Char) : Except NumberFault Nat :=
  match cs with
  | [] => .error .empty
  | c :: _ => if c = '+' ∨ c = '-' then .error .sign else readDigits base 0 cs

/-- The character with the number that follows `#`, in base sixteen after an `x`. -/
def numberedChar (cs : List Char) : Except NumberFault Char :=
  let number := match cs with
    | 'x' :: ds => readNumber 16 ds
    | ds => readNumber 10 ds
  number.bind fun n =>
    if n = 0 then .error .zero
    else if n.isValidChar then .ok (Char.ofNat n)
    else .error (.notACharacter n)

/-- Why an escaped text cannot be read. Places count bytes. -/
inductive EscapeFault where
  | unknownName (first last : Nat) (name : List Char)
  | unterminated (first last : Nat)
  | number (fault : NumberFault)
deriving DecidableEq, Repr

def EscapeFault.message : EscapeFault → String
  | .unknownName first last name =>
    s!"at {first}..{last}: unrecognized entity `" ++ String.ofList name ++ "`"
  | .unterminated first last =>
    s!"Error while escaping character at range {first}..{last}: Cannot find ';' after '&'"
  | .number fault => fault.message

def byteLength : List Char → Nat
  | [] => 0
  | c :: cs => c.utf8Size + byteLength cs

/-- The text that an escaped text stands for, from the byte `index` on of `total` bytes. A round
drops at least one character, so `fuel` need not exceed their number. -/
def unescapeWith : Nat → Nat → Nat → List Char → Except EscapeFault (List Char)
  | 0, _, _, _ => .ok []
  | _ + 1, _, _, [] => .ok []
  | fuel + 1, total, index, '&' :: cs =>
    let name := cs.takeWhile fun c => c ≠ ';' ∧ c ≠ '&'
    let first := index + 1
    let last := first + byteLength name
    match cs.dropWhile fun c => c ≠ ';' ∧ c ≠ '&' with
    | ';' :: rest =>
      let found : Except EscapeFault Char := match name with
        | '#' :: number => (numberedChar number).mapError .number
        | _ =>
          match namedChar? name with
          | some c => .ok c
          | none => .error (.unknownName first last name)
      found.bind fun c => (unescapeWith fuel total (last + 1) rest).map (c :: ·)
    | _ => .error (.unterminated index total)
  | fuel + 1, total, index, c :: cs =>
    (unescapeWith fuel total (index + c.utf8Size) cs).map (c :: ·)

/-- The text that an escaped text stands for. -/
def unescape (cs : List Char) : Except EscapeFault (List Char) :=
  unescapeWith cs.length (byteLength cs) 0 cs

end ColorChain.Markup
