import ColorChain.Record.File
import ColorChain.Transform.Compile

/-!
# Transforms and records

A grade as a transform and the correction of a record are two forms of one thing. The resolver that
reads corrections from files stands here too.
-/

namespace ColorChain

open Record

namespace Cdl

/-- The grade that a correction records. -/
def ofCorrection (c : Correction) : Cdl Float :=
  ⟨c.id?.getD "", c.description?.getD "", c.grade⟩

/-- The correction that records a grade. -/
def toCorrection (c : Cdl Float) : Correction where
  id? := if c.id = "" then none else some c.id
  gradeDescription? := if c.description = "" then none else some c.description
  grade := c.grade

/-- The compact record of a grade. -/
def record (c : Cdl Float) : List Char := c.toCorrection.compact

/-- The grade in a record. -/
def ofRecord (text : List Char) : Except (TransformFault Float) (Cdl Float) :=
  ((Document.readCorrection (Text.encode text)).mapError .record).map ofCorrection

/-- The grade in the file at a path: the one with the given identifier, or the first one if that is
empty. -/
def ofFile (directory : Storage.Directory) (path id : String) :
    Except (TransformFault Float) (Cdl Float) :=
  match readRecordFile directory path.toList with
  | .error fault => .error (.recordFile fault)
  | .ok collection =>
    match collection.select id with
    | .error fault => .error (.defect (.noCorrection path fault))
    | .ok c => .ok (ofCorrection c)

end Cdl

/-- The grade with its parameters replaced by those in a record; the direction stays. A transform of
another kind is left as it is. -/
def Transform.setRecord (t : Transform Float) (text : List Char) :
    Except (TransformFault Float) (Transform Float) :=
  match t with
  | .atom d (.cdl _) => (Cdl.ofRecord text).map fun c => .atom d (.cdl c)
  | t => .ok t

namespace FileReference

def extension (reference : FileReference) : List Char := Storage.extension reference.source.toList

/-- The formats that the extension of the file stands for. -/
def formats (reference : FileReference) : List FileFormat :=
  FileFormat.withExtension reference.extension

/-- The grade that a reference names. Only record files hold one. -/
def resolve (directory : Storage.Directory) : Resolver Float := fun reference =>
  if isRecordExtension reference.extension then
    Cdl.ofFile directory reference.source reference.correctionId
  else .error (.unsupportedFile reference.source reference.extension)

end FileReference

end ColorChain
