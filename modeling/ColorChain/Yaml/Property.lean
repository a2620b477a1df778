import ColorChain.Text.Utf8
import ColorChain.Yaml.Scalar
import ColorChain.Yaml.Token

/-!
# Names, tags and directives as they stand in a text
-/

namespace ColorChain.Yaml

open Text

/-- The characters of names: ASCII letters and digits, dash and underscore. -/
def isWord (c : Char) : Bool := c.isAlphanum || c == '-' || c == '_'

/-- The word at the head of a text. -/
def word (gs : List Glyph) : Lexeme :=
  ⟨textOf (gs.takeWhile fun g => isWord g.char), gs.dropWhile fun g => isWord g.char⟩

/-- The name of an anchor or an alias. It is not empty, and a gap or one of a few marks follows. -/
def anchorName? (gs : List Glyph) : Option Lexeme :=
  let name := word gs
  let ends := atGap name.rest
    || name.rest.head?.any fun g => ['?', ':', ',', ']', '}', '%', '@', '`'].contains g.char
  if name.text ≠ [] ∧ ends then some name else none

/-! ## Tags -/

/-- The characters of a tag, and, if it is `verbatim`, those that would end it otherwise. -/
def isTagChar (verbatim : Bool) (c : Char) : Bool :=
  isWord c || [';', '/', '?', ':', '@', '&', '=', '+', '$', '.', '!', '~', '*', '\'', '(', ')'].contains c
    || (verbatim && (c == ',' || c == '[' || c == ']'))

/-- How many bytes a character with the given first byte has. -/
def byteCount? (b : Nat) : Option Nat :=
  if b < 0x80 then some 1
  else if 0xC0 ≤ b ∧ b < 0xE0 then some 2
  else if 0xE0 ≤ b ∧ b < 0xF0 then some 3
  else if 0xF0 ≤ b ∧ b < 0xF8 then some 4
  else none

/-- The bytes of a tag. A percent sign and two hexadecimal digits stand for a byte; `missing` more of
them have to complete a character. -/
def tagBytes (verbatim : Bool) (missing : Nat) : List Glyph → Option (Bytes × List Glyph)
  | [] => if missing = 0 then some ([], []) else none
  | g :: gs =>
    if g.char = '%' then
      match gs with
      | x :: y :: rest => do
        let high ← hexDigit? x.char
        let low ← hexDigit? y.char
        let byte := high * 16 + low
        let left ←
          if missing = 0 then (byteCount? byte).map (· - 1)
          else if 0x80 ≤ byte ∧ byte < 0xC0 then some (missing - 1)
          else none
        let (bytes, rest) ← tagBytes verbatim left rest
        return (UInt8.ofNat byte :: bytes, rest)
      | _ => none
    else if missing ≠ 0 then none
    else if isTagChar verbatim g.char then
      (tagBytes verbatim 0 gs).map fun (bytes, rest) => (UInt8.ofNat g.char.toNat :: bytes, rest)
    else some ([], g :: gs)

/-- The handle at the head of a text: an exclamation mark, a word, and perhaps another mark. -/
def handle? (gs : List Glyph) : Option Lexeme :=
  match gs with
  | [] => none
  | g :: gs =>
    if g.char = '!' then
      let name := word gs
      if startsWith '!' name.rest then some ⟨'!' :: name.text ++ ['!'], name.rest.drop 1⟩
      else some ⟨'!' :: name.text, name.rest⟩
    else none

/-- A tag as written: a handle, which directives explain, and the rest. -/
structure TagLexeme where
  handle : List Char
  suffix : Bytes
  rest : List Glyph

/-- The tag at the head of a text, with nothing said of what follows it. -/
def tagBody? (gs : List Glyph) : Option TagLexeme :=
  if startsWith '<' (gs.drop 1) then do
    let (bytes, rest) ← tagBytes true 0 (gs.drop 2)
    if bytes ≠ [] ∧ startsWith '>' rest then return ⟨[], bytes, rest.drop 1⟩ else none
  else do
    let handle ← handle? gs
    let (bytes, rest) ← tagBytes false 0 handle.rest
    if handle.text.length > 1 ∧ handle.text.getLast? = some '!' then
      if bytes = [] then none else return ⟨handle.text, bytes, rest⟩
    else
      let bytes := encode (handle.text.drop 1) ++ bytes
      if bytes = [] then return ⟨[], encode ['!'], rest⟩ else return ⟨['!'], bytes, rest⟩

/-- The tag at the head of a text. A gap follows it, or in a flow collection a comma. -/
def tag? (inFlow : Bool) (gs : List Glyph) : Option TagLexeme :=
  (tagBody? gs).bind fun tag =>
    if atGap tag.rest || (inFlow && startsWith ',' tag.rest) then some tag else none

/-! ## Directives -/

/-- A number of at most nine digits. -/
def shortNumber? (gs : List Glyph) : Option (Nat × List Glyph) :=
  let ds := textOf (gs.takeWhile fun g => g.char.isDigit)
  if ds ≠ [] ∧ ds.length ≤ 9 then
    some (Nat.ofDigitChars 10 ds 0, gs.dropWhile fun g => g.char.isDigit)
  else none

def dropBlanks (gs : List Glyph) : List Glyph := gs.dropWhile fun g => isBlank g.char

/-- A directive that was read and the text after it. -/
structure Directive where
  token : Token
  rest : List Glyph

def versionDirective? (gs : List Glyph) : Option Directive := do
  let (major, rest) ← shortNumber? (dropBlanks gs)
  if startsWith '.' rest then
    let (minor, rest) ← shortNumber? (rest.drop 1)
    return ⟨.version major minor, rest⟩
  else none

def handleDirective? (gs : List Glyph) : Option Directive := do
  let handle ← handle? (dropBlanks gs)
  if handle.text.getLast? ≠ some '!' ∨ !handle.rest.head?.any (isBlank ·.char) then none
  else
    let (bytes, rest) ← tagBytes true 0 (dropBlanks handle.rest)
    if bytes ≠ [] ∧ atGap rest then return ⟨.handle handle.text bytes, rest⟩ else none

/-- The directive after the percent sign that begins it, to the end of its line. -/
def directive? (gs : List Glyph) : Option Directive := do
  let name := word gs
  if !atGap name.rest then none
  else
    let directive ←
      if name.text = "YAML".toList then versionDirective? name.rest
      else if name.text = "TAG".toList then handleDirective? name.rest
      else none
    let rest ← lineEnd? directive.rest
    return { directive with rest }

end ColorChain.Yaml
