import ColorChain.Yaml.Property

/-!
# From text to tokens

Indentation opens and closes block collections. Where a key could begin, its place among the tokens
is remembered; the colon that makes it a key puts the tokens for a key there.
-/

namespace ColorChain.Yaml

/-- A place where a key may have begun. -/
structure KeyPlace where
  /-- How many tokens come before it. -/
  count : Nat
  line : Nat
  column : Nat
  /-- It begins a line of a block mapping, where nothing but a key can stand. -/
  required : Bool

/-- How far a text was read: the tokens, newest first, and their number; the columns of the open
block collections, innermost first; whether a key may begin here; and for the text outside flow
collections and inside each of them, innermost first, the place of its latest possible key. -/
structure Lexer where
  tokens : List Token := []
  count : Nat := 0
  columns : List Nat := []
  keyAllowed : Bool := true
  flowKeys : List (Option KeyPlace) := []
  blockKey : Option KeyPlace := none

namespace Lexer

def inFlow (l : Lexer) : Bool := !l.flowKeys.isEmpty

def push (l : Lexer) (token : Token) : Lexer :=
  { l with tokens := token :: l.tokens, count := l.count + 1 }

/-- The place of the latest possible key of the innermost collection. -/
def latestKey (l : Lexer) : Option KeyPlace :=
  match l.flowKeys with
  | key? :: _ => key?
  | [] => l.blockKey

def setKey (l : Lexer) (key? : Option KeyPlace) : Lexer :=
  match l.flowKeys with
  | _ :: outer => { l with flowKeys := key? :: outer }
  | [] => { l with blockKey := key? }

/-- Gives up the latest possible key. -/
def dropKey (l : Lexer) : Option Lexer :=
  if l.latestKey.any (·.required) then none else some (l.setKey none)

/-- Gives up the keys that lie on an earlier line or more than 1024 characters back. -/
def dropStaleKeys (l : Lexer) (g : Glyph) : Option Lexer :=
  let stale (key : KeyPlace) : Bool := key.line < g.line || key.column + 1024 < g.column
  if (l.blockKey :: l.flowKeys).any (·.any fun key => stale key && key.required) then none
  else
    some { l with
      flowKeys := l.flowKeys.map (·.filter (!stale ·))
      blockKey := l.blockKey.filter (!stale ·) }

/-- Remembers that a key may begin at `g`. -/
def markKey (l : Lexer) (g : Glyph) : Option Lexer :=
  if l.keyAllowed then
    l.dropKey.map (·.setKey (some
      { count := l.count, line := g.line, column := g.column
        required := !l.inFlow && l.columns.head? == some g.column }))
  else some l

/-- Whether a block collection at a column lies inside the innermost one. -/
def isDeeper (l : Lexer) (column : Nat) : Bool := !l.inFlow && l.columns.head?.all (· < column)

/-- Opens a block collection at a column, unless it is open. -/
def openBlock (l : Lexer) (column : Nat) (token : Token) : Lexer :=
  if l.isDeeper column then { l.push token with columns := column :: l.columns } else l

/-- Puts tokens, newest first, after the first `count` ones. -/
def insertAt (l : Lexer) (count : Nat) (tokens : List Token) : Lexer :=
  { l with
    tokens := l.tokens.take (l.count - count) ++ tokens ++ l.tokens.drop (l.count - count)
    count := l.count + tokens.length }

def pushEnds (l : Lexer) (count : Nat) : Lexer :=
  { l with
    tokens := List.replicate count .blockEnd ++ l.tokens
    count := l.count + count
    columns := l.columns.drop count }

/-- Closes the block collections that lie to the right of a column. -/
def closeBlocks (l : Lexer) (column : Nat) : Lexer :=
  if l.inFlow then l else l.pushEnds (l.columns.takeWhile (column < ·)).length

def closeAllBlocks (l : Lexer) : Lexer := if l.inFlow then l else l.pushEnds l.columns.length

/-- What a text goes on with after a token was read. -/
abbrev Next := Option (Lexer × List Glyph)

/-- A token after which no key can begin but before which one may have. -/
def content (l : Lexer) (g : Glyph) (read : Option (Token × List Glyph)) : Next := do
  let l ← l.markKey g
  let (token, rest) ← read
  return ({ l with keyAllowed := false }.push token, rest)

/-- A token that ends whatever could have been a key. -/
def mark (l : Lexer) (token : Token) (keyAllowed : Bool) (rest : List Glyph) : Next := do
  let l ← l.dropKey
  return ({ l with keyAllowed }.push token, rest)

/-- A mark or a directive of a document, which closes all block collections. -/
def documentToken (l : Lexer) (token : Token) (rest : List Glyph) : Next :=
  l.closeAllBlocks.mark token false rest

def flowStart (l : Lexer) (g : Glyph) (token : Token) (rest : List Glyph) : Next := do
  let l ← l.markKey g
  return ({ l with flowKeys := none :: l.flowKeys, keyAllowed := true }.push token, rest)

def flowEnd (l : Lexer) (token : Token) (rest : List Glyph) : Next := do
  let l ← l.dropKey
  return ({ l with flowKeys := l.flowKeys.drop 1, keyAllowed := false }.push token, rest)

/-- The dash of an item. In a flow collection it is left to the reader of the tokens. -/
def itemMark (l : Lexer) (g : Glyph) (rest : List Glyph) : Next :=
  if l.inFlow then l.mark .item true rest
  else if l.keyAllowed then (l.openBlock g.column .blockSequence).mark .item true rest
  else none

/-- The question mark before a key. -/
def keyMark (l : Lexer) (g : Glyph) (rest : List Glyph) : Next :=
  if l.inFlow then l.mark .key false rest
  else if l.keyAllowed then (l.openBlock g.column .blockMapping).mark .key true rest
  else none

/-- The colon before a value. -/
def valueMark (l : Lexer) (g : Glyph) (rest : List Glyph) : Next :=
  match l.latestKey with
  | some key =>
    let opens := l.isDeeper key.column
    let l := l.insertAt key.count (if opens then [.key, .blockMapping] else [.key])
    let l := if opens then { l with columns := key.column :: l.columns } else l
    some ({ l.setKey none with keyAllowed := false }.push .value, rest)
  | none =>
    if l.inFlow then some ({ l with keyAllowed := false }.push .value, rest)
    else if l.keyAllowed then
      some ({ l.openBlock g.column .blockMapping with keyAllowed := true }.push .value, rest)
    else none

def plainScalar (l : Lexer) (g : Glyph) (gs : List Glyph) : Next := do
  let l ← l.markKey g
  let lexeme ← plain? l.inFlow (l.columns.head?.elim 0 (· + 1)) gs
  let l := { l with keyAllowed := lexeme.atLineStart }
  return (l.push (.scalar true lexeme.text), lexeme.rest)

def blockScalar (l : Lexer) (literal : Bool) (rest : List Glyph) : Next := do
  let l ← l.dropKey
  let lexeme ← block? literal l.columns.head? rest
  return ({ l with keyAllowed := true }.push (.scalar false lexeme.text), lexeme.rest)

/-- Whether a plain scalar may begin with the character `c` wherever it stands. -/
def beginsPlain (c : Char) : Bool :=
  !(['-', '?', ':', ',', '[', ']', '{', '}', '#', '&', '*', '!', '|', '>', '\'', '"', '%', '@',
    '`'].contains c)

/-- The token that begins with the character `g`, which is no blank. -/
def token (l : Lexer) (g : Glyph) (rest : List Glyph) : Next :=
  let gs := g :: rest
  let closing := l.inFlow || atGap rest
  if g.column = 0 && g.char == '%' then do
    let directive ← directive? rest
    l.documentToken directive.token directive.rest
  else if isMark '-' gs then l.documentToken .documentStart (rest.drop 2)
  else if isMark '.' gs then l.documentToken .documentEnd (rest.drop 2)
  else
    match g.char with
    | '[' => l.flowStart g .flowSequence rest
    | '{' => l.flowStart g .flowMapping rest
    | ']' => l.flowEnd .flowSequenceEnd rest
    | '}' => l.flowEnd .flowMappingEnd rest
    | ',' => l.mark .comma true rest
    | '-' =>
      if atGap rest then l.itemMark g rest else l.plainScalar g gs
    | '?' => if closing then l.keyMark g rest else l.plainScalar g gs
    | ':' => if closing then l.valueMark g rest else l.plainScalar g gs
    | '*' => l.content g ((anchorName? rest).map fun name => (.aliasOf name.text, name.rest))
    | '&' => l.content g ((anchorName? rest).map fun name => (.anchor name.text, name.rest))
    | '!' => l.content g ((tag? l.inFlow gs).map fun tag => (.tag tag.handle tag.suffix, tag.rest))
    | '|' => if l.inFlow then none else l.blockScalar true rest
    | '>' => if l.inFlow then none else l.blockScalar false rest
    | '\'' => l.content g ((quoted? '\'' rest).map fun text => (.scalar false text.text, text.rest))
    | '"' => l.content g ((quoted? '"' rest).map fun text => (.scalar false text.text, text.rest))
    | c => if beginsPlain c && !isBlank c then l.plainScalar g gs else none

/-- Drops blanks, comments and line breaks. A new line outside flow collections may begin with a key;
where one may begin a tab is no blank. -/
def skipGap (inFlow : Bool) : (keyAllowed inComment : Bool) → List Glyph → Bool × List Glyph
  | keyAllowed, _, [] => (keyAllowed, [])
  | keyAllowed, inComment, g :: gs =>
    if isBreak g.char then skipGap inFlow (keyAllowed || !inFlow) false gs
    else if inComment || g.char == '#' then skipGap inFlow keyAllowed true gs
    else if g.char == ' ' || (g.char == '\t' && (inFlow || !keyAllowed))
        || (g.char == byteOrderMark && g.column == 0) then
      skipGap inFlow keyAllowed false gs
    else (keyAllowed, g :: gs)

/-- The tokens of the rest of a text. Each round reads a character, so `fuel` need not exceed their
number. -/
def tokensFrom : Nat → Lexer → List Glyph → Option (List Token)
  | fuel, l, gs =>
    let (keyAllowed, gs) := skipGap l.inFlow l.keyAllowed false gs
    let l := { l with keyAllowed }
    match fuel, gs with
    | _, [] => l.closeAllBlocks.dropKey.map (·.tokens.reverse)
    | 0, _ => none
    | fuel + 1, g :: rest => do
      let l ← l.dropStaleKeys g
      let (l, rest) ← (l.closeBlocks g.column).token g rest
      tokensFrom fuel l rest

end Lexer

/-- The tokens of a text, if it is one. -/
def tokens? (cs : List Char) : Option (List Token) :=
  (glyphs? cs).bind fun gs => Lexer.tokensFrom gs.length {} gs

end ColorChain.Yaml
