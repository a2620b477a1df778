import ColorChain.CommandLine.Grammar
import ColorChain.Number.Text

/-!
# Requests

The commands of the program and what they ask for: to apply a transform to pixels, to print a
correction, to print a derived matrix, or to list file formats.
-/

namespace ColorChain.CommandLine

/-- The matrix that is asked for. Lists of numbers are still texts. -/
inductive MatrixRequest where
  | identity
  | saturation (amount : Float) (weights : String)
  | scale (factors : String)
  | view (shown weights : String)
  | fit (oldLeast oldGreatest newLeast newGreatest : String)

inductive Request where
  | apply (path : String) (inverse : Bool) (channels : Nat) (values : List Float32)
  | correction (path id : String) (asDocument : Bool)
  | matrix (request : MatrixRequest) (asDocument : Bool)
  | formats

/-- The number that an argument gives. -/
def readArgument? {F : Type} [Number.BinaryFloat F] (text : String) : Option F :=
  (Number.read text.toList).toOption

/-- The number of channels that an argument gives, three or four. -/
def channels? (text : String) : Option Nat :=
  let ds := match text.toList with
    | '+' :: ds => ds
    | ds => ds
  if ds ≠ [] ∧ ds.all Char.isDigit then
    some (Nat.ofDigitChars 10 ds 0) |>.filter fun n => n == 3 || n == 4
  else none

def anything : String → Bool := fun _ => true

/-- The options that every command takes. -/
def commonOptions : List OptionRule :=
  [{ name := "verbose", short? := some 'v', kind := .counter },
    { name := "quiet", short? := some 'q', kind := .switch }]

def applyCommand : Command where
  name := "apply"
  aliases := ["a"]
  options := commonOptions ++
    [{ name := "transform", short? := some 't', kind := .value (· ≠ ""), required := true },
      { name := "inverse", kind := .switch },
      { name := "channels", short? := some 'c', kind := .value fun text => (channels? text).isSome }]
  operand? := some
    { name := "values", check := fun text => (readArgument? (F := Float32) text).isSome
      many := true, negative := true }

def correctionCommand : Command where
  name := "cdl"
  options := commonOptions ++
    [{ name := "id", kind := .value anything }, { name := "yaml", kind := .switch }]
  operand? := some { name := "file", check := (· ≠ "") }

/-- The options of every command for a matrix. -/
def matrixOptions : List OptionRule := commonOptions ++ [{ name := "yaml", kind := .switch }]

def weightsOption : OptionRule := { name := "luma", kind := .value anything }

def boundOption (name : String) : OptionRule :=
  { name, kind := .value anything, required := true, negative := true }

def matrixCommands : List Command :=
  [{ name := "identity", options := matrixOptions },
    { name := "sat", options := matrixOptions ++ [weightsOption]
      operand? := some
        { name := "sat", check := fun text => (readArgument? (F := Float) text).isSome
          negative := true } },
    { name := "scale", options := matrixOptions
      operand? := some { name := "scale", check := anything, negative := true } },
    { name := "view", options := matrixOptions ++ [weightsOption]
      operand? := some { name := "channels", check := anything } },
    { name := "fit", options := matrixOptions ++
        ["old-min", "old-max", "new-min", "new-max"].map boundOption }]

def matrixCommand : Command where
  name := "matrix"
  aliases := ["m"]
  options := matrixOptions
  commands := matrixCommands

/-- The grammar of the command line. -/
def program : Command where
  name := "colorchain"
  options := commonOptions
  versioned := true
  commands :=
    [applyCommand, correctionCommand, matrixCommand, { name := "formats", options := commonOptions }]

/-- The weights of Rec. 709 as they stand on a command line. -/
def defaultWeights : String := "0.2126,0.7152,0.0722"

def MatrixRequest.ofMatch? (m : Match) (name : String) : Option MatrixRequest :=
  let weights := (m.value? "luma").getD defaultWeights
  match name with
  | "identity" => some .identity
  | "sat" => do
    let amount ← readArgument? (← m.value? "sat")
    return .saturation amount weights
  | "scale" => (m.value? "scale").map .scale
  | "view" => (m.value? "channels").map fun shown => .view shown weights
  | "fit" => do
    let oldLeast ← m.value? "old-min"
    let oldGreatest ← m.value? "old-max"
    let newLeast ← m.value? "new-min"
    let newGreatest ← m.value? "new-max"
    return .fit oldLeast oldGreatest newLeast newGreatest
  | _ => none

/-- The request that a match of the grammar makes. -/
def Request.ofMatch? (m : Match) : Option Request :=
  match m.path with
  | ["apply"] => do
    let path ← m.value? "transform"
    let values ← (m.all "values").mapM readArgument?
    let channels := ((m.value? "channels").bind channels?).getD 4
    return .apply path (m.has "inverse") channels values
  | ["cdl"] =>
    (m.value? "file").map fun path =>
      .correction path ((m.value? "id").getD "") (m.has "yaml")
  | ["matrix", name] => (MatrixRequest.ofMatch? m name).map fun request =>
      .matrix request (m.has "yaml")
  | ["formats"] => some .formats
  | _ => none

/-- The request that arguments make. -/
def Request.parse (arguments : List String) : Except Stop Request :=
  (program.parse arguments).bind fun m =>
    match Request.ofMatch? m with
    | some request => .ok request
    | none => .error .usage

end ColorChain.CommandLine
