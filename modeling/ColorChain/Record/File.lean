import ColorChain.Record.Document
import ColorChain.Record.Written
import ColorChain.Storage.Directory

/-!
# Record files

The extension of a file says what it holds: one correction, a collection, or a list of decisions.
-/

namespace ColorChain.Record

open Storage Text

/-- What a record file holds. -/
inductive FileKind where
  | correction
  | collection
  | decisions
deriving DecidableEq, Repr

/-- The kind of file that a lower-case extension stands for. -/
def FileKind.ofExtension? (extension : List Char) : Option FileKind :=
  match extension with
  | ['c', 'c'] => some .correction
  | ['c', 'c', 'c'] => some .collection
  | ['c', 'd', 'l'] => some .decisions
  | _ => none

/-- Whether an extension, with any dots before it and in any case of ASCII, is one of a record
file. -/
def isRecordExtension (extension : List Char) : Bool :=
  (FileKind.ofExtension? ((extension.dropWhile (· = '.')).map Char.toLower)).isSome

/-- The bytes of a file and what `read` makes of them. A folder can be opened but not read. -/
def readFile {α : Type} (read : Bytes → Except DocumentFault α) (directory : Directory)
    (path : List Char) : Except RecordFault α :=
  match directory.read path with
  | .ok content => (read content).mapError .document
  | .error .isADirectory => .error (.document (.unreadable .isADirectory))
  | .error fault => .error (.file fault)

/-- The first correction in a file. -/
def readCorrectionFile : Directory → List Char → Except RecordFault Correction :=
  readFile Document.readCorrection

/-- The corrections in a file. -/
def readCollectionFile : Directory → List Char → Except RecordFault Collection :=
  readFile Document.readCollection

/-- The decisions in a file. -/
def readDecisionsFile : Directory → List Char → Except RecordFault DecisionList :=
  readFile Document.readDecisions

/-- The corrections in a file of the kind that its extension stands for. A file of one correction
gives a collection without notes. -/
def readRecordFile (directory : Directory) (path : List Char) : Except RecordFault Collection :=
  let extension := lower (extension path)
  match FileKind.ofExtension? extension with
  | some .correction => (readCorrectionFile directory path).map fun c => { corrections := [c] }
  | some .collection => readCollectionFile directory path
  | some .decisions => (readDecisionsFile directory path).map DecisionList.toCollection
  | none => .error (.document (.unknownExtension extension))

/-- The directory after a text has been written to a file. -/
def writeFile (directory : Directory) (path : List Char) (text : List Char) :
    Except RecordFault Directory :=
  (directory.write path (encode text)).mapError .file

end ColorChain.Record
