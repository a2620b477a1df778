/-!
# Elements of records

The names of elements and what each stands for in a record.
-/

namespace ColorChain.Record

/-- The settings of a grade. -/
inductive Setting where
  | slope
  | offset
  | power
  | saturation
deriving DecidableEq, Repr

def Setting.name : Setting → String
  | .slope => "Slope"
  | .offset => "Offset"
  | .power => "Power"
  | .saturation => "Saturation"

/-- What an element stands for. -/
inductive Element where
  | correction
  | decision
  /-- The outermost element of a collection or of a list of decisions. -/
  | collection
  /-- The element around slope, offset and power. -/
  | tone
  /-- The element around the saturation. -/
  | saturation
  | setting (setting : Setting)
  | description
  | inputDescription
  | viewingDescription
  | mediaRef
  | other
deriving DecidableEq, Repr

def Element.ofName (name : String) : Element :=
  match name with
  | "ColorCorrection" => .correction
  | "ColorDecision" => .decision
  | "ColorCorrectionCollection" => .collection
  | "ColorDecisionList" => .collection
  | "SOPNode" => .tone
  | "SatNode" => .saturation
  | "SATNode" => .saturation
  | "Slope" => .setting .slope
  | "Offset" => .setting .offset
  | "Power" => .setting .power
  | "Saturation" => .setting .saturation
  | "Description" => .description
  | "InputDescription" => .inputDescription
  | "ViewingDescription" => .viewingDescription
  | "MediaRef" => .mediaRef
  | _ => .other

end ColorChain.Record
