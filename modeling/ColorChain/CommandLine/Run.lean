import ColorChain.CommandLine.Report
import ColorChain.CommandLine.Request
import ColorChain.Text.Blank
import ColorChain.Transform.Document
import ColorChain.Transform.Record

/-!
# Running requests

The output of a request on the files it can see, or the report of why there is none.
-/

namespace ColorChain.CommandLine

/-- The numbers in a list with commas between them and white space around them. -/
def numberList (text : String) : Except Report (List Float) :=
  (text.toList.splitOn ',').mapM fun part =>
    let part := Text.trim part
    (Number.read part).mapError fun fault =>
      ⟨"Invalid number '" ++ String.ofList part ++ "' in '" ++ text ++ "'", [fault.message]⟩

/-- A list of numbers of the right length, which `expected` names. -/
def numbersOf {α : Type} (expected : String) (ofList? : List Float → Option α) (text : String) :
    Except Report α := do
  let values ← numberList text
  match ofList? values with
  | some a => return a
  | none =>
    throw ⟨"Expected " ++ expected ++ s!" values, got {values.length} in '" ++ text ++ "'", []⟩

def three : String → Except Report (Rgb Float) := numbersOf "3" Rgb.ofList?

def four : String → Except Report (Rgba Float) := numbersOf "4" Rgba.ofList?

/-- One number for every channel, or four numbers. -/
def oneOrFour : String → Except Report (Rgba Float) :=
  numbersOf "1 or 4" fun
    | [x] => some (Rgba.fill x)
    | xs => Rgba.ofList? xs

/-- The map that is asked for. -/
def MatrixRequest.derive : MatrixRequest → Except Report (Affine Float)
  | identity => .ok Affine.identity
  | saturation amount weights => (three weights).map (Affine.saturation amount)
  | scale factors => (oneOrFour factors).map Affine.scale
  | view shown weights => do
    let shown ← four shown
    let weights ← three weights
    return Affine.view (shown.map fun x => !(x == 0)) weights
  | fit oldLeast oldGreatest newLeast newGreatest => do
    let old : Affine.Range Float := ⟨← oneOrFour oldLeast, ← oneOrFour oldGreatest⟩
    let new : Affine.Range Float := ⟨← oneOrFour newLeast, ← oneOrFour newGreatest⟩
    (Affine.fit old new).mapError fun channel =>
      .ofFault "Cannot build fit matrix"
        (.defect (.flatRange channel (old.least.get channel)))

/-- Numbers with spaces between them. -/
def row {F : Type} [Number.BinaryFloat F] (xs : List F) : List Char :=
  (List.intersperse [' '] (xs.map Number.Layout.plain.chars)).flatten

/-- A number with six decimal places, right-aligned in twelve columns. -/
def cell (x : Float) : List Char :=
  let cs := Number.fixed 6 x
  Report.spaces (12 - cs.length) ++ cs

/-- The rows of a matrix in columns, and the offset below them. -/
def table (f : Affine Float) : List Char :=
  let line (xs : Rgba Float) : List Char :=
    (List.intersperse [' '] (xs.toList.map cell)).flatten ++ ['\n']
  (Rgba.toList f.matrix).flatMap line ++ "offset: ".toList ++ row f.offset.toList ++ ['\n']

/-- The listing of the known file formats. -/
def formatListing : List Char :=
  FileFormat.all.zipIdx.flatMap fun (format, n) =>
    let name := format.name.toList
    Report.aligned 2 n ++ Report.spaces 2 ++ name ++ Report.spaces (28 - name.length)
      ++ ' ' :: '.' :: format.extension.toList ++ ['\n']

/-- The pixels of values in a row, each run through a chain. -/
def runValues (chain : Chain Float Float32) (channels : Nat) (values : List Float32) :
    Except Report (List Char) :=
  if values.length % channels ≠ 0 then
    .error
      ⟨s!"{values.length} values is not a whole number of {channels}-channel pixels", []⟩
  else
    let rows :=
      if channels = 3 then
        (Rgb.ofRow values).map fun p => row (chain.runRgb .standard p).toList
      else (Rgba.ofRow values).map fun p => row (chain.run .standard p).toList
    .ok (rows.flatMap (· ++ ['\n']))

/-- The output of a request. -/
def Request.run (directory : Storage.Directory) : Request → Except Report (List Char)
  | apply path inverse channels values => do
    let t ← (Transform.ofFile directory path.toList).mapError
      (.ofFault ("Failed to load transform: " ++ path))
    let d := if inverse then Direction.inverse else .forward
    let chain ← (t.chain (FileReference.resolve directory) d .lossless).mapError
      (.ofFault ("Failed to build " ++ t.kind.name ++ " processor"))
    runValues chain channels values
  | correction path id asDocument => do
    let c ← (Cdl.ofFile directory path id).mapError
      (.ofFault ("Failed to read correction from " ++ path))
    if asDocument then return Transform.text (.atom .forward (.cdl c))
    else return c.record ++ ['\n']
  | matrix request asDocument => do
    let map ← request.derive
    if asDocument then return Transform.text (.atom .forward (.matrix map))
    else return table map
  | formats => .ok formatListing

/-- How a run of the program ends: its exit status and what it prints. -/
structure Outcome where
  status : Nat
  output : String := ""
  report : String := ""
deriving DecidableEq, Repr

/-- The page that explains the program. -/
def helpPage : String :=
  "Usage: colorchain [OPTIONS] <COMMAND>\n\nCommands: apply, cdl, matrix, formats\n"

def versionPage : String := "colorchain 0.1.0\n"

/-- The outcome of the program for the given arguments. -/
def outcome (directory : Storage.Directory) (arguments : List String) : Outcome :=
  match Request.parse arguments with
  | .error .help => { status := 0, output := helpPage }
  | .error .version => { status := 0, output := versionPage }
  | .error .usage => { status := 2, report := helpPage }
  | .ok request =>
    match request.run directory with
    | .ok output => { status := 0, output := String.ofList output }
    | .error report => { status := 1, report := String.ofList report.text }

end ColorChain.CommandLine
