/-!
# Characters in their places

A YAML text is read as characters with their lines and columns. Indentation is then a property of a
character, and every way to break a line is one character.
-/

namespace ColorChain.Yaml

/-- A character at a place. -/
structure Glyph where
  char : Char
  line : Nat
  column : Nat
deriving DecidableEq, Repr

/-- The line separator and the paragraph separator, which break a line and keep their identity. -/
def isSeparator (c : Char) : Bool := c.toNat == 0x2028 || c.toNat == 0x2029

def nextLine : Char := Char.ofNat 0x85

def isBreak (c : Char) : Bool := c == '\n' || isSeparator c

def isBlank (c : Char) : Bool := c == ' ' || c == '\t'

/-- The mark that a line may begin with. It takes up a column. -/
def byteOrderMark : Char := Char.ofNat 0xFEFF

/-- The characters that a text may hold: no controls but tab and line breaks. -/
def isAllowed (c : Char) : Bool :=
  let n := c.toNat
  n == 0x09 || n == 0x0A || n == 0x0D || (0x20 ≤ n && n ≤ 0x7E) || n == 0x85
    || (0xA0 ≤ n && n ≤ 0xFFFD) || 0x10000 ≤ n

/-- The characters of a text in their places. A carriage return, a line feed, both in a row, and a
next line character all become one line feed. -/
def placed (line column : Nat) : List Char → List Glyph
  | [] => []
  | '\r' :: '\n' :: cs => ⟨'\n', line, column⟩ :: placed (line + 1) 0 cs
  | c :: cs =>
    if c = '\n' ∨ c = '\r' ∨ c = nextLine then ⟨'\n', line, column⟩ :: placed (line + 1) 0 cs
    else if isSeparator c then ⟨c, line, column⟩ :: placed (line + 1) 0 cs
    else ⟨c, line, column⟩ :: placed line (column + 1) cs

/-- The characters of a whole text, if it may hold them all. -/
def glyphs? (cs : List Char) : Option (List Glyph) :=
  if cs.all isAllowed then some (placed 0 0 cs) else none

/-- The text of characters. -/
def textOf (gs : List Glyph) : List Char := gs.map (·.char)

/-- Whether the text at a place is over, blank, or at the end of its line. -/
def atGap (gs : List Glyph) : Bool :=
  match gs with
  | [] => true
  | g :: _ => isBlank g.char || isBreak g.char

/-- Whether the text is over or at the end of its line. -/
def atLineEnd (gs : List Glyph) : Bool :=
  match gs with
  | [] => true
  | g :: _ => isBreak g.char

/-- Whether the next character is `c`. -/
def startsWith (c : Char) (gs : List Glyph) : Bool :=
  match gs with
  | [] => false
  | g :: _ => g.char == c

/-- Whether a line begins with three characters `c` and a gap. -/
def isMark (c : Char) (gs : List Glyph) : Bool :=
  match gs with
  | x :: y :: z :: rest =>
    x.column == 0 && x.char == c && y.char == c && z.char == c && atGap rest
  | _ => false

/-- Whether a line marks the start or the end of a document. -/
def isDocumentMark (gs : List Glyph) : Bool := isMark '-' gs || isMark '.' gs

end ColorChain.Yaml
