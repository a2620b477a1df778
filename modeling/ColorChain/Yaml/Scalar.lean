import ColorChain.Yaml.Glyph

/-!
# Scalars as they stand in a text

Plain, quoted and block scalars. A line break inside a plain or quoted scalar is folded: alone it
counts as a space, and of several all but the first are kept.
-/

namespace ColorChain.Yaml

/-- A scalar that was read and the text after it. -/
structure Lexeme where
  text : List Char
  rest : List Glyph

/-- What line breaks in a row stand for. -/
def folded : List Char → List Char
  | [] => []
  | '\n' :: [] => [' ']
  | '\n' :: breaks => breaks
  | breaks => breaks

/-- The line breaks up to the next character that is not blank. A tab before the column `limit` is
refused. -/
def lineBreaks (limit : Nat) : List Glyph → Option (List Char × List Glyph)
  | [] => some ([], [])
  | g :: gs =>
    if isBreak g.char then
      (lineBreaks limit gs).map fun (breaks, rest) => (g.char :: breaks, rest)
    else if g.char = ' ' then lineBreaks limit gs
    else if g.char = '\t' then if g.column < limit then none else lineBreaks limit gs
    else some ([], g :: gs)

/-- Blanks, or line breaks with the blanks around them. -/
structure Gap where
  blanks : List Char
  breaks : List Char
  rest : List Glyph

/-- What a gap stands for inside a scalar. -/
def Gap.text (gap : Gap) : List Char := if gap.breaks = [] then gap.blanks else folded gap.breaks

/-- The gap at the head of a text. -/
def gap? (limit : Nat) (gs : List Glyph) : Option Gap :=
  let blanks := textOf (gs.takeWhile fun g => isBlank g.char)
  let rest := gs.dropWhile fun g => isBlank g.char
  if rest ≠ [] ∧ atLineEnd rest then
    (lineBreaks limit rest).map fun (breaks, rest) => ⟨blanks, breaks, rest⟩
  else some ⟨blanks, [], rest⟩

/-! ## Plain scalars -/

def isFlowMark (c : Char) : Bool := c == ',' || c == '[' || c == ']' || c == '{' || c == '}'

/-- The characters of a plain scalar up to a gap or its end. In a flow collection a colon before a
flow mark is refused. -/
def plainRun (inFlow : Bool) : List Glyph → Option Lexeme
  | [] => some ⟨[], []⟩
  | g :: gs =>
    if isBlank g.char || isBreak g.char then some ⟨[], g :: gs⟩
    else if inFlow && g.char == ':' && gs.head?.any (fun h => h.char == '?' || isFlowMark h.char) then
      none
    else if (g.char == ':' && atGap gs) || (inFlow && isFlowMark g.char) then some ⟨[], g :: gs⟩
    else (plainRun inFlow gs).map fun lexeme => { lexeme with text := g.char :: lexeme.text }

/-- A plain scalar, and whether the text after it begins a line. -/
structure PlainLexeme extends Lexeme where
  atLineStart : Bool

/-- The plain scalar at the head of a text, after a gap that `atLineStart` tells of. The lines of a
scalar in a block have to begin at `indent` or further right. Each round reads a character, so
`fuel` need not exceed their number. -/
def plainFrom (inFlow : Bool) (indent : Nat) : Nat → Bool → List Glyph → Option PlainLexeme
  | 0, atLineStart, gs => some { text := [], rest := gs, atLineStart }
  | fuel + 1, atLineStart, gs =>
    if isDocumentMark gs || startsWith '#' gs then some { text := [], rest := gs, atLineStart }
    else do
      let run ← plainRun inFlow gs
      if run.text = [] then return { run with atLineStart }
      else if run.rest = [] ∨ !atGap run.rest then return { run with atLineStart := false }
      else
        let gap ← gap? indent run.rest
        let broken := gap.breaks ≠ []
        if !inFlow && gap.rest.head?.any (·.column < indent) then
          return { text := run.text, rest := gap.rest, atLineStart := broken }
        else
          let next ← plainFrom inFlow indent fuel broken gap.rest
          if next.text = [] then return { next with text := run.text }
          else return { next with text := run.text ++ gap.text ++ next.text }

/-- The plain scalar at the head of a text. -/
def plain? (inFlow : Bool) (indent : Nat) (gs : List Glyph) : Option PlainLexeme :=
  plainFrom inFlow indent gs.length false gs

/-! ## Quoted scalars -/

/-- The characters of a single-quoted scalar up to a gap or a quote that stands alone. -/
def singleRun : List Glyph → Lexeme
  | [] => ⟨[], []⟩
  | g :: gs =>
    if isBlank g.char || isBreak g.char then ⟨[], g :: gs⟩
    else if g.char = '\'' then
      match gs with
      | h :: rest =>
        if h.char = '\'' then
          let lexeme := singleRun rest
          { lexeme with text := '\'' :: lexeme.text }
        else ⟨[], g :: gs⟩
      | [] => ⟨[], g :: gs⟩
    else
      let lexeme := singleRun gs
      { lexeme with text := g.char :: lexeme.text }

def hexDigit? (c : Char) : Option Nat :=
  if c.isDigit then some (c.toNat - '0'.toNat)
  else if 'a' ≤ c ∧ c ≤ 'f' then some (c.toNat - 'a'.toNat + 10)
  else if 'A' ≤ c ∧ c ≤ 'F' then some (c.toNat - 'A'.toNat + 10)
  else none

/-- The character that a backslash and the character `c` stand for. -/
def simpleEscape? (c : Char) : Option Char :=
  match c with
  | '0' => some (Char.ofNat 0x00)
  | 'a' => some (Char.ofNat 0x07)
  | 'b' => some (Char.ofNat 0x08)
  | 't' => some '\t'
  | '\t' => some '\t'
  | 'n' => some '\n'
  | 'v' => some (Char.ofNat 0x0B)
  | 'f' => some (Char.ofNat 0x0C)
  | 'r' => some '\r'
  | 'e' => some (Char.ofNat 0x1B)
  | ' ' => some ' '
  | '"' => some '"'
  | '/' => some '/'
  | '\\' => some '\\'
  | 'N' => some nextLine
  | '_' => some (Char.ofNat 0xA0)
  | 'L' => some (Char.ofNat 0x2028)
  | 'P' => some (Char.ofNat 0x2029)
  | _ => none

/-- How many hexadecimal digits follow a backslash and the character `c`. -/
def escapeLength? (c : Char) : Option Nat :=
  match c with
  | 'x' => some 2
  | 'u' => some 4
  | 'U' => some 8
  | _ => none

/-- The character with the code given by hexadecimal digits. -/
def codeChar? (gs : List Glyph) : Option Char :=
  let code? := gs.foldl (fun value? g => do
    let value ← value?
    let digit ← hexDigit? g.char
    return value * 16 + digit) (some 0)
  code?.bind fun code => if code.isValidChar then some (Char.ofNat code) else none

/-- The characters of a double-quoted scalar up to a gap, a quote, or an escaped line break. -/
structure DoubleRun extends Lexeme where
  /-- The run ended in an escaped line break, which is not kept. -/
  joined : Bool

/-- Puts a character in front of a run. -/
def DoubleRun.cons (c : Char) (run : DoubleRun) : DoubleRun := { run with text := c :: run.text }

/-- The run at the head of a text. Each round reads a character, so `fuel` need not exceed their
number. -/
def doubleRun : Nat → List Glyph → Option DoubleRun
  | 0, gs => some { text := [], rest := gs, joined := false }
  | _ + 1, [] => some { text := [], rest := [], joined := false }
  | fuel + 1, g :: gs =>
    if isBlank g.char || isBreak g.char || g.char == '"' then
      some { text := [], rest := g :: gs, joined := false }
    else if g.char = '\\' then
      match gs with
      | [] => none
      | h :: rest =>
        if isBreak h.char then some { text := [], rest, joined := true }
        else
          match simpleEscape? h.char, escapeLength? h.char with
          | some c, _ => (doubleRun fuel rest).map (·.cons c)
          | none, some length => do
            if rest.length < length then none
            else
              let c ← codeChar? (rest.take length)
              (doubleRun fuel (rest.drop length)).map (·.cons c)
          | none, none => none
    else (doubleRun fuel gs).map (·.cons g.char)

/-- The run of a quoted scalar at the head of a text. -/
def quotedRun (quote : Char) (gs : List Glyph) : Option DoubleRun :=
  if quote = '\'' then some { singleRun gs with joined := false } else doubleRun gs.length gs

/-- The quoted scalar whose opening quote was just read. After an escaped line break no further
break is folded. Each round reads a character, so `fuel` need not exceed their number. -/
def quotedFrom (quote : Char) : Nat → List Glyph → Option Lexeme
  | 0, _ => none
  | fuel + 1, gs =>
    if isDocumentMark gs || gs.isEmpty then none
    else do
      let run ← quotedRun quote gs
      if startsWith quote run.rest then return ⟨run.text, run.rest.drop 1⟩
      else if run.joined then
        let (breaks, rest) ← lineBreaks 0 run.rest
        let next ← quotedFrom quote fuel rest
        return { next with text := run.text ++ breaks ++ next.text }
      else
        let gap ← gap? 0 run.rest
        let next ← quotedFrom quote fuel gap.rest
        return { next with text := run.text ++ gap.text ++ next.text }

/-- The quoted scalar after its opening quote. -/
def quoted? (quote : Char) (gs : List Glyph) : Option Lexeme := quotedFrom quote (gs.length + 1) gs

/-! ## Block scalars -/

/-- Which line breaks at the end of a block scalar are kept: none, the first, or all. -/
inductive Chomp where
  | strip
  | clip
  | keep
deriving DecidableEq, Repr

/-- The line breaks before the next line of a block scalar, and the greatest column reached. Spaces
are passed up to the indentation, or all of them while it is not known; a tab among them is
refused. -/
def blockBreaks (indent? : Option Nat) (most : Nat) :
    List Glyph → Option (List Char × Nat × List Glyph)
  | [] => some ([], most, [])
  | g :: gs =>
    let inside := indent?.all (g.column < ·)
    if inside && g.char == ' ' then blockBreaks indent? most gs
    else if inside && g.char == '\t' then none
    else if isBreak g.char then
      (blockBreaks indent? (max most g.column) gs).map fun (breaks, most, rest) =>
        (g.char :: breaks, most, rest)
    else some ([], max most g.column, g :: gs)

/-- What was read of a block scalar: its text without the breaks at the end, the break that ends the
last line, and the breaks after it. -/
structure BlockLexeme extends Lexeme where
  lastBreak : List Char
  moreBreaks : List Char

/-- The lines of a block scalar at the column `indent`, after a line that ended in `lastBreak` and
began with a blank if `afterBlank`. In a folded scalar the break between two lines that begin with no
blank is folded. Each round reads a character, so `fuel` need not exceed their number. -/
def blockLines (literal : Bool) (indent : Nat) :
    Nat → (lastBreak moreBreaks : List Char) → (afterBlank : Bool) → List Glyph →
      Option BlockLexeme
  | 0, lastBreak, moreBreaks, _, gs => some { text := [], rest := gs, lastBreak, moreBreaks }
  | fuel + 1, lastBreak, moreBreaks, afterBlank, gs =>
    match gs with
    | [] => some { text := [], rest := [], lastBreak, moreBreaks }
    | g :: _ =>
      if g.column = indent then do
        let blank := isBlank g.char
        let joint :=
          if !literal && lastBreak == ['\n'] && !afterBlank && !blank then
            if moreBreaks = [] then [' '] else []
          else lastBreak
        let line := textOf (gs.takeWhile fun g => !isBreak g.char)
        let after := gs.dropWhile fun g => !isBreak g.char
        let (breaks, _, rest) ← blockBreaks (some indent) 0 (after.drop 1)
        let next ← blockLines literal indent fuel (textOf (after.take 1)) breaks blank rest
        return { next with text := joint ++ moreBreaks ++ line ++ next.text }
      else some { text := [], rest := gs, lastBreak, moreBreaks }

/-- The marks after the one that begins a block scalar: how breaks at the end are kept, and the
indentation relative to the collection around it. -/
def blockHeader (gs : List Glyph) : Option (Chomp × Option Nat × List Glyph) :=
  let chomp (gs : List Glyph) : Chomp × List Glyph :=
    if startsWith '+' gs then (.keep, gs.drop 1)
    else if startsWith '-' gs then (.strip, gs.drop 1)
    else (.clip, gs)
  let digit (gs : List Glyph) : Option (Option Nat × List Glyph) :=
    match gs with
    | g :: rest =>
      if g.char = '0' then none
      else if g.char.isDigit then some (some (g.char.toNat - '0'.toNat), rest)
      else some (none, gs)
    | [] => some (none, [])
  if startsWith '+' gs || startsWith '-' gs then do
    let (kept, rest) := chomp gs
    let (indent?, rest) ← digit rest
    return (kept, indent?, rest)
  else do
    let (indent?, rest) ← digit gs
    match indent? with
    | some indent =>
      let (kept, rest) := chomp rest
      return (kept, some indent, rest)
    | none => return (.clip, none, rest)

/-- What follows the end of the part of a line that matters: blanks, a comment, and the break. -/
def lineEnd? (gs : List Glyph) : Option (List Glyph) :=
  let rest := gs.dropWhile fun g => isBlank g.char
  let rest := if startsWith '#' rest then rest.dropWhile fun g => !isBreak g.char else rest
  if atLineEnd rest then some (rest.drop 1) else none

/-- The block scalar after the mark that begins it, inside a collection at the column `parent?`. Its
indentation is the given one, or that of the first line that is not blank. -/
def block? (literal : Bool) (parent? : Option Nat) (gs : List Glyph) : Option Lexeme := do
  let (chomp, relative?, rest) ← blockHeader gs
  let rest ← lineEnd? rest
  let given? := relative?.map fun relative => parent?.getD 0 + relative
  let (breaks, most, rest) ← blockBreaks given? 0 rest
  let least := match parent? with
    | some parent => parent + 1
    | none => 1
  let indent := given?.getD (max most least)
  let lexeme ← blockLines literal indent (rest.length + 1) [] breaks false rest
  let ending := match chomp with
    | .strip => []
    | .clip => lexeme.lastBreak
    | .keep => lexeme.lastBreak ++ lexeme.moreBreaks
  return ⟨lexeme.text ++ ending, lexeme.rest⟩

end ColorChain.Yaml
