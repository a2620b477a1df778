import ColorChain.Markup.Escape
import ColorChain.Number.Text
import ColorChain.Record.Correction
import ColorChain.Record.Element

/-!
# Written records

The two written forms of a correction: a compact record on one line, and indented lines. Both escape
every text and write the fewest digits that read back. Remarks on the input and on the viewing
conditions are not written.
-/

namespace ColorChain.Record

open Markup

/-- An element with its content. -/
def element (name : String) (content : List Char) : List Char :=
  '<' :: name.toList ++ '>' :: content ++ '<' :: '/' :: name.toList ++ ['>']

/-- The start tag of a correction, without an identifier as with an empty one. -/
def startTag (id? : Option String) : List Char :=
  "<ColorCorrection id=\"".toList ++ escape (id?.getD "").toList ++ "\">".toList

/-- Three numbers with spaces between them. -/
def triple (p : Rgb Float) : List Char :=
  let chars := Number.Layout.plain.chars (F := Float)
  chars p.r ++ ' ' :: chars p.g ++ ' ' :: chars p.b

/-- The element of a setting. -/
def settingElement (setting : Setting) (grade : Grade Float) : List Char :=
  element setting.name <|
    match setting with
    | .slope => triple grade.slope
    | .offset => triple grade.offset
    | .power => triple grade.power
    | .saturation => Number.Layout.plain.chars grade.saturation

def descriptionElement (text : String) : List Char := element "Description" (escape text.toList)

namespace Correction

/-- The compact record of a correction. Only the remark that stands for the whole correction is kept,
and only if it is not empty. -/
def compact (c : Correction) : List Char :=
  let description := match c.description? with
    | some text => if text = "" then [] else descriptionElement text
    | none => []
  startTag c.id?
    ++ element "SOPNode" (description ++ settingElement .slope c.grade
      ++ settingElement .offset c.grade ++ settingElement .power c.grade)
    ++ element "SatNode" (settingElement .saturation c.grade)
    ++ "</ColorCorrection>".toList

/-- The lines of a correction. -/
def lines (c : Correction) : List (List Char) :=
  let indented (n : Nat) (line : List Char) : List Char := List.replicate n ' ' ++ line
  [startTag c.id?]
    ++ c.notes.descriptions.map (fun text => indented 2 (descriptionElement text))
    ++ [indented 2 "<SOPNode>".toList]
    ++ c.gradeDescription?.toList.map (fun text => indented 4 (descriptionElement text))
    ++ [indented 4 (settingElement .slope c.grade), indented 4 (settingElement .offset c.grade),
      indented 4 (settingElement .power c.grade), indented 2 "</SOPNode>".toList,
      indented 2 "<SatNode>".toList, indented 4 (settingElement .saturation c.grade),
      indented 2 "</SatNode>".toList, "</ColorCorrection>".toList]

end Correction

/-- The text of lines, each indented by `n` spaces and ended by a line feed. -/
def textOfLines (n : Nat) (lines : List (List Char)) : List Char :=
  lines.flatMap fun line => List.replicate n ' ' ++ line ++ ['\n']

/-- The text of a file that holds one correction. -/
def Correction.fileText (c : Correction) : List Char := textOfLines 0 c.lines

/-- The text of a file that holds a collection, an empty line before each correction and before the
end. -/
def Collection.fileText (c : Collection) : List Char :=
  "<ColorCorrectionCollection xmlns=\"urn:ASC:CDL:v1.01\">\n".toList
    ++ textOfLines 2 (c.notes.descriptions.map descriptionElement)
    ++ c.corrections.flatMap (fun correction => '\n' :: textOfLines 2 correction.lines)
    ++ "\n</ColorCorrectionCollection>\n".toList

end ColorChain.Record
