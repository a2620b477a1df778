import ColorChain.Markup.Attribute
import ColorChain.Markup.Event
import ColorChain.Record.Correction
import ColorChain.Record.Fault
import ColorChain.Text.Blank

/-!
# Record documents

One pass over the events of a document collects every correction and every decision in it, whatever
element is outermost. The names of the open elements say where a remark belongs.
-/

namespace ColorChain.Record

open Markup

/-- What a document holds: notes on the whole, the corrections in order, inside decisions or not, and
the decisions in order. -/
structure Document where
  notes : Notes := {}
  corrections : List Correction := []
  decisions : List Decision := []
deriving BEq, Repr

/-- How far the pass over a document has come: what was collected, the decision and the correction
that are open, the text of the innermost element, and the names of the open elements, innermost
first. -/
structure Progress where
  document : Document := {}
  decision? : Option Decision := none
  correction? : Option Correction := none
  text : List Char := []
  path : List String := []
deriving BEq, Repr

/-- The text of an attribute. An empty one counts as none. -/
def attributeText? (tag : Tag) (name : String) : Except DocumentFault (Option String) :=
  match tag.attribute? name with
  | none => .ok none
  | some bytes =>
    let raw := Text.decodeLossy bytes
    match unescape raw with
    | .error fault => .error (.attribute raw fault)
    | .ok text => .ok (if text = [] then none else some (String.ofList text))

/-- The number that a word of a setting gives. -/
def readValue (setting : Setting) (word : List Char) : Except DocumentFault Float :=
  (Number.read word).mapError (.value setting word)

/-- The three numbers in the text of a setting. -/
def readTriple (setting : Setting) (text : List Char) : Except DocumentFault (Rgb Float) :=
  match Text.words text with
  | [r, g, b] => do
    let r ← readValue setting r
    let g ← readValue setting g
    let b ← readValue setting b
    return ⟨r, g, b⟩
  | words => .error (.valueCount setting words.length)

/-- The grade after one of its settings has been read. -/
def readSetting (setting : Setting) (text : List Char) (grade : Grade Float) :
    Except DocumentFault (Grade Float) :=
  match setting with
  | .slope => (readTriple setting text).map fun slope => { grade with slope }
  | .offset => (readTriple setting text).map fun offset => { grade with offset }
  | .power => (readTriple setting text).map fun power => { grade with power }
  | .saturation =>
    (readValue setting (Text.trim text)).map fun saturation => { grade with saturation }

namespace Progress

/-- A remark inside the element `parent`. A remark that no open record owns is dropped. -/
def addNote (p : Progress) (kind : NoteKind) (parent : Element) : Progress :=
  let text := String.ofList p.text
  match parent with
  | .tone =>
    if kind = .description then
      { p with correction? := p.correction?.map fun c => { c with gradeDescription? := some text } }
    else p
  | .correction =>
    { p with correction? := p.correction?.map fun c => { c with notes := c.notes.add kind text } }
  | .decision =>
    { p with decision? := p.decision?.map fun d => { d with notes := d.notes.add kind text } }
  | .collection =>
    { p with document := { p.document with notes := p.document.notes.add kind text } }
  | _ => p

/-- The element around the innermost one. -/
def parent (p : Progress) : Element :=
  match p.path with
  | _ :: name :: _ => .ofName name
  | _ => .other

def pushCorrection (p : Progress) (c : Correction) : Progress :=
  { p with document := { p.document with corrections := p.document.corrections ++ [c] } }

/-- Ends the open correction. An open decision takes it as its own. -/
def endCorrection (p : Progress) : Progress :=
  match p.correction? with
  | none => p
  | some c =>
    { p.pushCorrection c with
      correction? := none
      decision? := p.decision?.map fun d => { d with correction := c } }

/-- Ends the open decision. -/
def endDecision (p : Progress) : Progress :=
  match p.decision? with
  | none => p
  | some d =>
    { p with
      decision? := none
      document := { p.document with decisions := p.document.decisions ++ [d] } }

/-- A start tag. -/
def onStart (p : Progress) (tag : Tag) : Except DocumentFault Progress :=
  let name := nameText tag.name
  let opened : Except DocumentFault Progress := match Element.ofName name with
    | .decision => .ok { p with decision? := some {} }
    | .correction => (attributeText? tag "id").map fun id? =>
      { p with correction? := some { id? } }
    | _ => .ok p
  opened.map fun p => { p with path := name :: p.path, text := [] }

/-- An element without content. A correction without content is never the one of a decision. -/
def onEmpty (p : Progress) (tag : Tag) : Except DocumentFault Progress :=
  match Element.ofName (nameText tag.name), p.decision? with
  | .mediaRef, some d => (attributeText? tag "ref").map fun mediaRef? =>
    { p with decision? := some { d with mediaRef? } }
  | .correction, _ => (attributeText? tag "id").map fun id? => p.pushCorrection { id? }
  | _, _ => .ok p

/-- What the end of an element with the given name adds. -/
def finish (p : Progress) (element : Element) : Except DocumentFault Progress :=
  match element with
  | .setting setting =>
    match p.correction? with
    | none => .ok p
    | some c => (readSetting setting p.text c.grade).map fun grade =>
      { p with correction? := some { c with grade } }
  | .description => .ok (p.addNote .description p.parent)
  | .inputDescription => .ok (p.addNote .input p.parent)
  | .viewingDescription => .ok (p.addNote .viewing p.parent)
  | .correction => .ok p.endCorrection
  | .decision => .ok p.endDecision
  | _ => .ok p

/-- An end tag. -/
def onClose (p : Progress) (name : Text.Bytes) : Except DocumentFault Progress :=
  (p.finish (.ofName (nameText name))).map fun p => { p with path := p.path.drop 1, text := [] }

/-- More text of the innermost element. -/
def onText (p : Progress) (source : TextSource) (content : Text.Bytes) :
    Except DocumentFault Progress :=
  match Text.decode content with
  | .error fault => .error (.encoding source fault)
  | .ok text => .ok { p with text := p.text ++ text }

/-- The character that a reference stands for. -/
def referent (content : Text.Bytes) : Except DocumentFault Char :=
  match Text.decode content with
  | .error fault => .error (.encoding .reference fault)
  | .ok ('#' :: number) => (numberedChar number).mapError .reference
  | .ok name =>
    match namedChar? name with
    | some c => .ok c
    | none => .error (.unknownEntity name)

def step (p : Progress) : Event → Except DocumentFault Progress
  | .start tag => p.onStart tag
  | .empty tag => p.onEmpty tag
  | .close name => p.onClose name
  | .text content => p.onText .text content
  | .cdata content => p.onText .cdata content
  | .reference content => (referent content).map fun c => { p with text := p.text ++ [c] }

end Progress

/-- What the events of a document add up to. A fault of the markup counts after the events before
it. -/
def Document.ofReading (reading : Reading Event) : Except DocumentFault Document := do
  let p ← reading.items.foldlM Progress.step {}
  match reading.fault, p.path with
  | some fault, _ => .error (.markup fault)
  | none, element :: _ => .error (.unclosed element)
  | none, [] => .ok p.document

namespace Document

/-- What a document holds. -/
def read (bs : Text.Bytes) : Except DocumentFault Document := ofReading (events bs)

/-- The first correction of a document. -/
def readCorrection (bs : Text.Bytes) : Except DocumentFault Correction :=
  (read bs).bind fun document =>
    match document.corrections with
    | c :: _ => .ok c
    | [] => .error .noCorrection

/-- All corrections of a document. -/
def readCollection (bs : Text.Bytes) : Except DocumentFault Collection :=
  (read bs).map fun document => ⟨document.notes, document.corrections⟩

/-- All decisions of a document. -/
def readDecisions (bs : Text.Bytes) : Except DocumentFault DecisionList :=
  (read bs).map fun document => ⟨document.notes, document.decisions⟩

end Document

end ColorChain.Record
