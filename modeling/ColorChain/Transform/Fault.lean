import ColorChain.Color.Derived
import ColorChain.FileFormat
import ColorChain.Number.Text
import ColorChain.Record.Fault
import ColorChain.Record.Correction
import ColorChain.Transform.Atom

/-!
# Faults of transforms

A defect is a parameter that no evaluation can use. The other faults lie outside the transform: in a
document, a file, or the lack of a configuration.
-/

namespace ColorChain

universe u

/-- A parameter that cannot be used. -/
inductive Defect (α : Type u) where
  | unknownTarget
  | unknownDirection (kind : Kind)
  | varCount (count : Nat)
  | emptySpan (value : α)
  | logBase (base : α)
  | singularMatrix (determinant : α)
  | zeroExponent (value : Rgba α)
  | slope (value : α)
  | power (value : α)
  | saturation
  | flatRange (channel : Channel) (value : α)
  | noCorrection (path : String) (fault : Record.SelectFault)

namespace Defect

def message : Defect Float → String
  | unknownTarget => "cannot build a processor for an unknown direction"
  | unknownDirection kind => kind.name ++ " has unknown direction"
  | varCount count => s!"allocation takes 0 or 3 vars [min, max, offset], got {count}"
  | emptySpan value => "allocation range is empty (min == max == " ++ Number.text value ++ ")"
  | logBase base => "invalid log base " ++ Number.text base
  | singularMatrix determinant =>
    "cannot invert singular matrix (determinant " ++ Number.text determinant ++ ")"
  | zeroExponent value =>
    let values := value.toList.map fun x => String.ofList (Number.Layout.detailed.chars x)
    "exponent [" ++ String.intercalate ", " values ++ "] contains 0 and cannot be inverted"
  | slope value => "CDL slope " ++ Number.text value ++ " is not invertible"
  | power value => "CDL power " ++ Number.text value ++ " is not invertible"
  | saturation => "CDL saturation 0 is not invertible"
  | flatRange channel value =>
    s!"fit: channel {channel.index} has oldmin == oldmax (" ++ Number.text value ++ ")"
  | noCorrection path fault => path ++ ": " ++ fault.subject ++ " not found"

end Defect

/-- Why a transform cannot be read, changed or evaluated. -/
inductive TransformFault (α : Type u) where
  | defect (defect : Defect α)
  | index (fault : IndexFault)
  /-- A record given as text is none. -/
  | record (fault : Record.DocumentFault)
  /-- A document is no transform. What is wrong with it is not said. -/
  | document
  | file (fault : Storage.FileFault)
  | recordFile (fault : Record.RecordFault)
  /-- Only a configuration could say what the transform means. -/
  | unresolved (kind : Kind)
  | unsupportedFile (source : String) (extension : List Char)

namespace TransformFault

def message : TransformFault Float → String
  | defect d => "validation error: " ++ d.message
  | index fault => fault.message
  | record fault => "parse error: " ++ fault.message
  | document => "YAML error: "
  | file fault => "I/O error: " ++ fault.message
  | recordFile fault => "CDL file error: " ++ fault.message
  | unresolved kind => kind.name ++ " cannot be evaluated without a config"
  | unsupportedFile source extension =>
    "unsupported file format: " ++ source
      ++ (if extension = [] then "" else " (." ++ String.ofList extension ++ ")")

/-- The messages of the faults that lie behind a fault. -/
def causes : TransformFault Float → List String
  | file fault => [fault.message]
  | recordFile fault =>
    fault.message :: match fault with
      | .file fault => [fault.message]
      | .document _ => []
  | document => [""]
  | _ => []

end TransformFault

end ColorChain
