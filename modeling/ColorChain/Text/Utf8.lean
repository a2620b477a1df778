/-!
# UTF-8 text

Bytes to characters and back. A byte sequence splits into characters and faults: `decode` stops at
the first fault and says where it lies, `decodeLossy` puts one replacement character in its place.
-/

namespace ColorChain.Text

/-- A sequence of bytes, as a file or a document holds it. -/
abbrev Bytes := List UInt8

/-- The UTF-8 bytes of a text. -/
def encode (cs : List Char) : Bytes := cs.flatMap String.utf8EncodeChar

/-- The UTF-8 bytes of a string. -/
def encodeString (s : String) : Bytes := encode s.toList

/-- Why a byte sequence is not UTF-8. -/
inductive Utf8Fault where
  /-- The `length` bytes from `index` on begin no character. -/
  | invalid (index length : Nat)
  /-- The bytes from `index` on begin a character that the end of the input cuts off. -/
  | truncated (index : Nat)
deriving DecidableEq, Repr

def Utf8Fault.message : Utf8Fault → String
  | .invalid index length => s!"invalid utf-8 sequence of {length} bytes from index {index}"
  | .truncated index => s!"incomplete utf-8 byte sequence from index {index}"

/-- What a byte sequence begins with. -/
inductive Head where
  | char (c : Char) (rest : Bytes)
  | invalid (length : Nat)
  | truncated

/-- The bytes that follow the first byte of a longer character. -/
def isTail (b : UInt8) : Bool := 0x80 ≤ b && b ≤ 0xBF

def tailValue (b : UInt8) : Nat := b.toNat - 0x80

/-- The second bytes that may follow the first byte of a three-byte character: they keep out
longer spellings of shorter characters and the surrogates. -/
def isSecondOfThree (a b : UInt8) : Bool :=
  if a = 0xE0 then 0xA0 ≤ b && b ≤ 0xBF
  else if a = 0xED then 0x80 ≤ b && b ≤ 0x9F
  else isTail b

/-- The second bytes that may follow the first byte of a four-byte character. -/
def isSecondOfFour (a b : UInt8) : Bool :=
  if a = 0xF0 then 0x90 ≤ b && b ≤ 0xBF
  else if a = 0xF4 then 0x80 ≤ b && b ≤ 0x8F
  else isTail b

/-- Splits the first character, or the first fault, from a non-empty byte sequence. -/
def head (a : UInt8) (rest : Bytes) : Head :=
  if a < 0x80 then .char (Char.ofNat a.toNat) rest
  else if a < 0xC2 then .invalid 1
  else if a < 0xE0 then
    match rest with
    | [] => .truncated
    | b :: rest =>
      if isTail b then .char (Char.ofNat ((a.toNat - 0xC0) * 64 + tailValue b)) rest
      else .invalid 1
  else if a < 0xF0 then
    match rest with
    | [] => .truncated
    | b :: rest =>
      if isSecondOfThree a b then
        match rest with
        | [] => .truncated
        | c :: rest =>
          if isTail c then
            .char (Char.ofNat ((a.toNat - 0xE0) * 4096 + tailValue b * 64 + tailValue c)) rest
          else .invalid 2
      else .invalid 1
  else if a < 0xF5 then
    match rest with
    | [] => .truncated
    | b :: rest =>
      if isSecondOfFour a b then
        match rest with
        | [] => .truncated
        | c :: rest =>
          if isTail c then
            match rest with
            | [] => .truncated
            | d :: rest =>
              if isTail d then
                .char (Char.ofNat ((a.toNat - 0xF0) * 262144 + tailValue b * 4096
                  + tailValue c * 64 + tailValue d)) rest
              else .invalid 3
          else .invalid 2
      else .invalid 1
  else .invalid 1

theorem length_le_of_head {a : UInt8} {bs rest : Bytes} {c : Char}
    (h : head a bs = .char c rest) : rest.length ≤ bs.length := by
  unfold head at h
  repeat' split at h
  all_goals first
    | exact Head.noConfusion h
    | (have hr := (Head.char.inj h).2; subst hr; simp)
  all_goals omega

/-- The characters of the bytes, or the first fault, counting bytes from `index`. -/
def decodeFrom (index : Nat) : Bytes → Except Utf8Fault (List Char)
  | [] => .ok []
  | a :: bs =>
    match h : head a bs with
    | .char c rest =>
      have := length_le_of_head h
      (decodeFrom (index + (bs.length - rest.length) + 1) rest).map (c :: ·)
    | .invalid length => .error (.invalid index length)
    | .truncated => .error (.truncated index)
termination_by bs => bs.length

/-- The characters of the bytes, or the first fault. -/
def decode (bs : Bytes) : Except Utf8Fault (List Char) := decodeFrom 0 bs

/-- What stands for bytes that are no character. -/
def replacement : Char := Char.ofNat 0xFFFD

/-- The characters of the bytes, each fault replaced by one `replacement`. -/
def decodeLossy : Bytes → List Char
  | [] => []
  | a :: bs =>
    match h : head a bs with
    | .char c rest =>
      have := length_le_of_head h
      c :: decodeLossy rest
    | .invalid length => replacement :: decodeLossy (bs.drop (length - 1))
    | .truncated => [replacement]
termination_by bs => bs.length
decreasing_by
  · exact Nat.lt_succ_of_le this
  · simp only [List.length_drop, List.length_cons]
    omega

end ColorChain.Text
