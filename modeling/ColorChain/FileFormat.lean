/-!
# File formats

The formats of files that a transform can refer to. One format has one extension; several formats
may share it.
-/

namespace ColorChain

/-- A format by name and by the lower-case extension of its files. -/
structure FileFormat where
  name : String
  extension : String
deriving DecidableEq, Repr

namespace FileFormat

/-- The known formats in order. -/
def all : List FileFormat :=
  [⟨"flame", "3dl"⟩, ⟨"lustre", "3dl"⟩, ⟨"ColorCorrectionCollection", "ccc"⟩,
    ⟨"ColorCorrection", "cc"⟩, ⟨"cinespace", "csp"⟩, ⟨"discreet 1d lut", "lut"⟩,
    ⟨"houdini", "lut"⟩, ⟨"iridas_itx", "itx"⟩, ⟨"iridas_cube", "cube"⟩, ⟨"iridas_look", "look"⟩,
    ⟨"pandora_mga", "mga"⟩, ⟨"pandora_m3d", "m3d"⟩, ⟨"spi1d", "spi1d"⟩, ⟨"spi3d", "spi3d"⟩,
    ⟨"spimtx", "spimtx"⟩, ⟨"truelight", "cub"⟩, ⟨"nukevf", "vf"⟩]

/-- The formats of files with an extension, with any dots before it and in any case of ASCII. -/
def withExtension (extension : List Char) : List FileFormat :=
  let wanted := (extension.dropWhile (· = '.')).map Char.toLower
  all.filter (·.extension.toList = wanted)

/-- The format with a name, in any case of ASCII. -/
def withName? (name : String) : Option FileFormat :=
  let folded (s : String) : List Char := s.toList.map Char.toLower
  all.find? fun format => folded format.name = folded name

end FileFormat

/-- An index that is not below the number of items. -/
structure IndexFault where
  index : Nat
  count : Nat
deriving DecidableEq, Repr

def IndexFault.message (fault : IndexFault) : String :=
  s!"index {fault.index} out of range (0..{fault.count})"

/-- The item at an index. -/
def itemAt {α : Type _} (items : List α) (index : Nat) : Except IndexFault α :=
  match items[index]? with
  | some item => .ok item
  | none => .error ⟨index, items.length⟩

/-- The format at an index. -/
def FileFormat.at (index : Nat) : Except IndexFault FileFormat := itemAt all index

/-- What is missing where no format has the name. -/
def unknownFormat (name : String) : String := "not found: file format '" ++ name ++ "'"

end ColorChain
