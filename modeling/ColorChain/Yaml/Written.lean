import ColorChain.Yaml.Plain

/-!
# Written values

The written form of a value: blocks indented by two columns, lists at the column of the key before
them, and for every text the plainest style that reads back as the text.
-/

namespace ColorChain.Yaml

/-- Positional from 1e-5 to below 1e16, always with a fraction or an exponent. -/
def numberLayout : Number.Layout where
  tie := .toEven
  positional point := -5 < point && point ≤ 16
  pointZero := true
  infinity := ['.', 'i', 'n', 'f']
  nan := ['.', 'n', 'a', 'n']

def spaces (n : Nat) : List Char := List.replicate n ' '

/-! ## Styles of texts -/

/-- The characters that may stand unescaped. -/
def isPrintable (c : Char) : Bool :=
  isAllowed c && c != '\t' && c != '\r' && c != nextLine && c != byteOrderMark

/-- Whether a space comes right before a line break. -/
def hasSpaceBeforeBreak : List Char → Bool
  | ' ' :: c :: cs => isBreak c || hasSpaceBeforeBreak (c :: cs)
  | _ :: cs => hasSpaceBeforeBreak cs
  | [] => false

/-- Whether a space comes right after a line break. -/
def hasSpaceAfterBreak : List Char → Bool
  | c :: ' ' :: cs => isBreak c || hasSpaceAfterBreak (' ' :: cs)
  | _ :: cs => hasSpaceAfterBreak cs
  | [] => false

/-- Whether a text is over, blank, or at a line break. -/
def startsGap (cs : List Char) : Bool := cs.head?.all fun c => isBlank c || isBreak c

/-- Whether a text holds, after its first character, a colon before a gap or a sharp after one. -/
def hasInnerMark : List Char → Bool
  | c :: d :: cs =>
    (d == ':' && startsGap cs) || (d == '#' && (isBlank c || isBreak c)) || hasInnerMark (d :: cs)
  | _ => false

/-- Whether the beginning of a text would be read as a mark. -/
def beginsWithMark (cs : List Char) : Bool :=
  ['-', '-', '-'].isPrefixOf cs || ['.', '.', '.'].isPrefixOf cs
    || match cs with
      | [] => false
      | c :: rest =>
        ['#', ',', '[', ']', '{', '}', '&', '*', '!', '|', '>', '\'', '"', '%', '@', '`'].contains c
          || ((c == '-' || c == '?' || c == ':') && startsGap rest)

/-- The ways to write a text. -/
inductive Style where
  | plain
  | single
  | double
  | literal
deriving DecidableEq, Repr

/-- Whether a text reads back as itself when it is plain. -/
def readsAsText (cs : List Char) : Bool :=
  match plainValue? cs with
  | some (.string _) => !isPaddedDigits cs
  | _ => false

/-- Whether a plain scalar can hold a text. -/
def allowsPlain (cs : List Char) : Bool :=
  cs.all (fun c => isPrintable c && !isBreak c) && cs.head? != some ' ' && cs.getLast? != some ' '
    && !beginsWithMark cs && !hasInnerMark cs

/-- Whether a single-quoted scalar can hold a text. -/
def allowsSingle (cs : List Char) : Bool :=
  cs.all isPrintable && !hasSpaceBeforeBreak cs && !hasSpaceAfterBreak cs

/-- Whether a literal scalar can hold a text. -/
def allowsLiteral (cs : List Char) : Bool :=
  cs.all isPrintable && !hasSpaceBeforeBreak cs && cs.getLast? != some ' '

/-- The style of a text. -/
def Style.of (cs : List Char) : Style :=
  if '\n' ∈ cs then if allowsLiteral cs then .literal else .double
  else if readsAsText cs && allowsPlain cs then .plain
  else if allowsSingle cs then .single
  else .double

/-! ## Texts in each style -/

/-- A text with every line that follows a break indented, from a place after a break if `fresh`. -/
def indented (column : Nat) (fresh : Bool) : List Char → List Char
  | [] => []
  | c :: cs =>
    if isBreak c then c :: indented column true cs
    else if fresh then spaces column ++ c :: indented column false cs
    else c :: indented column false cs

def hexDigit (n : Nat) : Char := (Nat.digitChar n).toUpper

/-- A number in hexadecimal with a given count of digits. -/
def hexDigits : Nat → Nat → List Char
  | 0, _ => []
  | count + 1, n => hexDigits count (n / 16) ++ [hexDigit (n % 16)]

/-- The escape of a character in a double-quoted scalar. -/
def escapeCode (c : Char) : List Char :=
  match c.toNat with
  | 0x00 => ['0']
  | 0x07 => ['a']
  | 0x08 => ['b']
  | 0x09 => ['t']
  | 0x0A => ['n']
  | 0x0B => ['v']
  | 0x0C => ['f']
  | 0x0D => ['r']
  | 0x1B => ['e']
  | 0x22 => ['"']
  | 0x5C => ['\\']
  | 0x85 => ['N']
  | 0x2028 => ['L']
  | 0x2029 => ['P']
  | n =>
    if n ≤ 0xFF then 'x' :: hexDigits 2 n
    else if n ≤ 0xFFFF then 'u' :: hexDigits 4 n
    else 'U' :: hexDigits 8 n

def doubleQuoted (cs : List Char) : List Char :=
  let written (c : Char) : List Char :=
    if isPrintable c && !isBreak c && c != '"' && c != '\\' then [c] else '\\' :: escapeCode c
  '"' :: cs.flatMap written ++ ['"']

/-- The quote at the end belongs to the last line and is indented with it. -/
def singleQuoted (column : Nat) (cs : List Char) : List Char :=
  let doubled := cs.flatMap fun c => if c = '\'' then ['\'', '\''] else [c]
  '\'' :: indented column false (doubled ++ ['\''])

/-- The marks at the head of a literal scalar: its indentation where its first line does not show
it, and how its last line breaks are kept. -/
def literalHeader (cs : List Char) : List Char :=
  let indent := if cs.head?.any fun c => c == ' ' || isBreak c then ['2'] else []
  let chomp := match cs.reverse with
    | [] => ['-']
    | c :: rest =>
      if !isBreak c then ['-'] else if rest.head?.all isBreak then ['+'] else []
  '|' :: indent ++ chomp

def literal (column : Nat) (cs : List Char) : List Char :=
  literalHeader cs ++ '\n' :: indented column true cs

/-- A text, with any lines after its first at a column, and the break that ends it. -/
def textLine (column : Nat) (cs : List Char) : List Char :=
  match Style.of cs with
  | .plain => cs ++ ['\n']
  | .single => singleQuoted column cs ++ ['\n']
  | .double => doubleQuoted cs ++ ['\n']
  | .literal => literal column cs ++ if cs.getLast?.any isBreak then [] else ['\n']

/-! ## Values -/

/-- What stands before a value on its line. -/
inductive Mark where
  | dash
  | colon
  | tag
deriving DecidableEq, Repr

namespace Value

mutual

/-- The text of a value after a mark at a column. -/
def after (mark : Mark) (column : Nat) : Value → List Char
  | sequence items =>
    if items.isEmpty then " []\n".toList
    else
      match mark with
      | .dash => (itemLines (column + 2) items).drop (column + 1)
      | .colon => '\n' :: itemLines column items
      | .tag => '\n' :: itemLines (column + 2) items
  | mapping entries =>
    if entries.isEmpty then " {}\n".toList
    else
      match mark with
      | .dash => (entryLines (column + 2) entries).drop (column + 1)
      | .colon | .tag => '\n' :: entryLines (column + 2) entries
  | tagged tag content => ' ' :: '!' :: tag.toList ++ after .tag column content
  | null => " null\n".toList
  | boolean b => ' ' :: (if b then "true" else "false").toList ++ ['\n']
  | integer n => ' ' :: Number.Layout.integer n ++ ['\n']
  | floating x => ' ' :: numberLayout.chars x ++ ['\n']
  | string s => ' ' :: textLine (column + 2) s.toList

def itemLines (column : Nat) : List Value → List Char
  | [] => []
  | value :: rest => spaces column ++ '-' :: after .dash column value ++ itemLines column rest

/-- The text of a key and the colon after it. A key that is no text takes lines of its own. -/
def keyText (column : Nat) : Value → List Char
  | string s => (textLine (column + 2) s.toList).dropLast ++ [':']
  | sequence items => '?' :: ' ' :: itemLines (column + 2) items ++ spaces column ++ [':']
  | mapping entries => '?' :: ' ' :: entryLines (column + 2) entries ++ spaces column ++ [':']
  | tagged tag content =>
    '?' :: ' ' :: '!' :: tag.toList ++ after .tag column content ++ spaces column ++ [':']
  | null => "null:".toList
  | boolean b => (if b then "true:" else "false:").toList
  | integer n => Number.Layout.integer n ++ [':']
  | floating x => numberLayout.chars x ++ [':']

def entryLines (column : Nat) : List (Value × Value) → List Char
  | [] => []
  | (key, value) :: rest =>
    spaces column ++ keyText column key ++ after .colon column value ++ entryLines column rest

end

/-- The text of a document that says a value. A tag before a collection stands on a line of its
own. -/
def text : Value → List Char
  | sequence (item :: items) => itemLines 0 (item :: items)
  | mapping (entry :: entries) => entryLines 0 (entry :: entries)
  | tagged tag (mapping (entry :: entries)) =>
    '!' :: tag.toList ++ '\n' :: entryLines 0 (entry :: entries)
  | tagged tag (sequence (item :: items)) =>
    '!' :: tag.toList ++ '\n' :: itemLines 0 (item :: items)
  | value => (after .colon 0 value).drop 1

end Value

end ColorChain.Yaml
