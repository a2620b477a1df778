import ColorChain.Storage.Directory
import ColorChain.Transform.Validity
import ColorChain.Yaml.Document
import ColorChain.Yaml.Written

/-!
# Transform documents

A transform as a value: a mapping of fields under the name of its kind. Fields may be left out; the
written form leaves out empty texts, empty variables and absent parts.
-/

namespace ColorChain

open Yaml

/-! ## From transforms to values -/

def numbers (xs : List Float) : Value := .sequence (xs.map .floating)

/-- A field. -/
def field (name : String) (value : Value) : Value × Value := (.string name, value)

/-- A field for a text, left out if the text is empty. -/
def textField (name text : String) : List (Value × Value) :=
  if text = "" then [] else [field name (.string text)]

def Atom.fields : Atom Float → List (Value × Value)
  | .allocation a =>
    field "allocation" (.string a.encoding.name)
      :: if a.vars = [] then [] else [field "vars" (numbers a.vars)]
  | .cdl c => textField "id" c.id ++ textField "description" c.description ++
    [field "slope" (numbers c.grade.slope.toList), field "offset" (numbers c.grade.offset.toList),
      field "power" (numbers c.grade.power.toList), field "sat" (.floating c.grade.saturation)]
  | .colorSpace c => [field "src" (.string c.source), field "dst" (.string c.destination)]
  | .exponent value => [field "value" (numbers value.toList)]
  | .file f => field "src" (.string f.source) :: textField "cccid" f.correctionId
    ++ [field "interpolation" (.string f.interpolation.name)]
  | .log base => [field "base" (.floating base)]
  | .look l => [field "src" (.string l.source), field "dst" (.string l.destination),
      field "looks" (.string l.looks)]
  | .matrix map => [field "matrix" (numbers map.matrix.toList),
      field "offset" (numbers map.offset.toList)]

def directionField (d : Direction) : Value × Value := field "direction" (.string d.name)

namespace Transform

mutual

/-- The value that says a transform. -/
def toValue : Transform Float → Value
  | atom d a => .tagged a.kind.name (.mapping (a.fields ++ [directionField d]))
  | display d s linear colorTiming channelView displayed =>
    .tagged Kind.display.name (.mapping
      (field "input_colorspace" (.string s.inputSpace) :: slotField "linear_cc" linear
        ++ slotField "color_timing_cc" colorTiming ++ slotField "channel_view" channelView
        ++ field "display" (.string s.display) :: field "view" (.string s.view)
        :: slotField "display_cc" displayed ++ textField "looks_override" s.looksOverride
        ++ [field "looks_override_enabled" (.boolean s.looksOverrideEnabled), directionField d]))
  | group d children =>
    .tagged Kind.group.name
      (.mapping [field "children" (.sequence (toValues children)), directionField d])

def toValues : List (Transform Float) → List Value
  | [] => []
  | t :: ts => toValue t :: toValues ts

/-- A field for a part, left out if there is none. -/
def slotField (name : String) : Option (Transform Float) → List (Value × Value)
  | none => []
  | some t => [field name (toValue t)]

end

end Transform

/-! ## From values to transforms -/

def number? (value : Value) : Option Float :=
  match value.untag with
  | .integer n => some (Number.BinaryFloat.ofInteger n)
  | .floating x => some x
  | _ => none

/-- A list of numbers. Null counts as an empty one. -/
def numbers? (value : Value) : Option (List Float) :=
  match value.untag with
  | .sequence items => items.mapM number?
  | .null => some []
  | _ => none

def text? (value : Value) : Option String :=
  match value.untag with
  | .string s => some s
  | _ => none

def flag? (value : Value) : Option Bool :=
  match value.untag with
  | .boolean b => some b
  | _ => none

/-- One of a few choices, as a text or as a tag on nothing. -/
def choice? {α : Type} (name : α → String) (choices : List α) (value : Value) : Option α :=
  match value with
  | .string s => choices.find? (name · = s)
  | .tagged tag .null => choices.find? (name · = tag)
  | _ => none

/-- The fields of a mapping, all of whose keys have to be texts. -/
def fields? (entries : List (Value × Value)) : Option (List (String × Value)) :=
  entries.mapM fun (key, value) => (text? key).map fun name => (name, value)

/-- The value of a field as `read` takes it, or what a missing field stands for. A field that is
there twice is refused. -/
def readField {α : Type} (fields : List (String × Value)) (name : String) (missing : α)
    (read : Value → Option α) : Option α :=
  match fields.filter (·.1 = name) with
  | [] => some missing
  | [(_, value)] => read value
  | _ => none

/-- A list of numbers of the right length. -/
def shaped? {α : Type} (ofList? : List Float → Option α) (value : Value) : Option α :=
  (numbers? value).bind ofList?

/-- The atom of a kind that the fields describe. -/
def Atom.ofFields? (kind : Kind) (fields : List (String × Value)) : Option (Atom Float) := do
  let text (name : String) : Option String := readField fields name "" text?
  let rgb (name : String) (missing : Float) : Option (Rgb Float) :=
    readField fields name (Rgb.fill missing) (shaped? Rgb.ofList?)
  let rgba (name : String) (missing : Float) : Option (Rgba Float) :=
    readField fields name (Rgba.fill missing) (shaped? Rgba.ofList?)
  match kind with
  | .allocation =>
    let encoding ← readField fields "allocation" .uniform (choice? Encoding.name Encoding.all)
    let vars ← readField fields "vars" [] numbers?
    return .allocation { encoding, vars }
  | .cdl =>
    let id ← text "id"
    let description ← text "description"
    let slope ← rgb "slope" 1
    let offset ← rgb "offset" 0
    let power ← rgb "power" 1
    let saturation ← readField fields "sat" 1 number?
    return .cdl { id, description, grade := { slope, offset, power, saturation } }
  | .colorSpace =>
    let source ← text "src"
    let destination ← text "dst"
    return .colorSpace { source, destination }
  | .exponent =>
    let value ← rgba "value" 1
    return .exponent value
  | .file =>
    let source ← text "src"
    let correctionId ← text "cccid"
    let interpolation ←
      readField fields "interpolation" .unknown (choice? Interpolation.name Interpolation.all)
    return .file { source, correctionId, interpolation }
  | .log =>
    let base ← readField fields "base" 2 number?
    return .log base
  | .look =>
    let source ← text "src"
    let destination ← text "dst"
    let looks ← text "looks"
    return .look { source, destination, looks }
  | .matrix =>
    let matrix ←
      readField fields "matrix" ColorMatrix.identity (shaped? ColorMatrix.ofList?)
    let offset ← rgba "offset" 0
    return .matrix { matrix, offset }
  | .display | .group => none

def displaySettings? (fields : List (String × Value)) : Option DisplaySettings := do
  let text (name : String) : Option String := readField fields name "" text?
  let inputSpace ← text "input_colorspace"
  let display ← text "display"
  let view ← text "view"
  let looksOverride ← text "looks_override"
  let looksOverrideEnabled ← readField fields "looks_override_enabled" false flag?
  return { inputSpace, display, view, looksOverride, looksOverrideEnabled }

/-- The transforms in the fields of a transform. -/
structure Parts where
  children : List (Transform Float) := []
  linear : Option (Transform Float) := none
  colorTiming : Option (Transform Float) := none
  channelView : Option (Transform Float) := none
  displayed : Option (Transform Float) := none

/-- The fields of each kind that hold transforms. -/
def partFields : Kind → List String
  | .group => ["children"]
  | .display => ["linear_cc", "color_timing_cc", "channel_view", "display_cc"]
  | _ => []

/-- The transform of a kind with the given fields, those that hold transforms already read. -/
def Transform.ofFields? (kind : Kind) (fields : List (String × Value)) (parts : Parts) :
    Option (Transform Float) := do
  let direction ← readField fields "direction" .forward (choice? Direction.name Direction.all)
  if (partFields kind).any fun name => (fields.filter (·.1 = name)).length > 1 then none
  else
    match kind with
    | .group => return .group direction parts.children
    | .display =>
      let settings ← displaySettings? fields
      return .display direction settings parts.linear parts.colorTiming parts.channelView
        parts.displayed
    | kind =>
      let atom ← Atom.ofFields? kind fields
      return .atom direction atom

namespace Transform

mutual

/-- The transform that a value says. -/
def ofValue? (value : Value) : Option (Transform Float) :=
  match value with
  | .tagged tag content =>
    match Kind.ofName? tag with
    | none => none
    | some kind =>
      match content with
      | .null => ofFields? kind [] {}
      | .mapping entries => do
        let fields ← fields? entries
        let parts ← parts? kind entries
        ofFields? kind fields parts
      | _ => none
  | _ => none
termination_by structural value

/-- The parts in the fields of a transform of the given kind. Null stands for an absent part. -/
def parts? (kind : Kind) (entries : List (Value × Value)) : Option Parts :=
  match entries with
  | [] => some {}
  | (key, value) :: rest => do
    let parts ← parts? kind rest
    let slot : Option (Option (Transform Float)) :=
      match value with
      | .null => some none
      | _ => (ofValue? value).map some
    match kind, text? key with
    | .group, some "children" => (children? value).map fun children => { parts with children }
    | .display, some "linear_cc" => slot.map fun linear => { parts with linear }
    | .display, some "color_timing_cc" => slot.map fun colorTiming => { parts with colorTiming }
    | .display, some "channel_view" => slot.map fun channelView => { parts with channelView }
    | .display, some "display_cc" => slot.map fun displayed => { parts with displayed }
    | _, _ => some parts
termination_by structural entries

/-- The children of a group. Null counts as none. -/
def children? (value : Value) : Option (List (Transform Float)) :=
  match value with
  | .sequence items => ofValues? items
  | .tagged _ (.sequence items) => ofValues? items
  | .null => some []
  | .tagged _ .null => some []
  | _ => none
termination_by structural value

def ofValues? (values : List Value) : Option (List (Transform Float)) :=
  match values with
  | [] => some []
  | value :: rest => do
    let t ← ofValue? value
    let ts ← ofValues? rest
    return t :: ts
termination_by structural values

end

/-- The transform that the value of a whole document says. A sequence is a group of its items. -/
def ofDocument? : Value → Option (Transform Float)
  | .sequence items => (ofValues? items).map (.group .forward)
  | value => ofValue? value

/-- The valid transform that a text says. -/
def ofText (cs : List Char) : Except (TransformFault Float) (Transform Float) :=
  match (Value.ofText? cs).bind ofDocument? with
  | none => .error .document
  | some t =>
    match t.validate with
    | .error defect => .error (.defect defect)
    | .ok () => .ok t

/-- The valid transform that a file holds. -/
def ofFile (directory : Storage.Directory) (path : List Char) :
    Except (TransformFault Float) (Transform Float) :=
  match directory.readText path with
  | .error fault => .error (.file fault)
  | .ok cs => ofText cs

/-- The document that says a transform. -/
def text (t : Transform Float) : List Char := t.toValue.text

end Transform

end ColorChain
