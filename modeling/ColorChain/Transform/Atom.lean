import ColorChain.Color.Affine
import ColorChain.Color.Grade

/-!
# Atoms

The transforms that hold no other transform. Their parameters are of type `α`; the ones that only
name something hold texts.
-/

namespace ColorChain

universe u

/-- The kinds of transforms. -/
inductive Kind where
  | allocation
  | cdl
  | colorSpace
  | display
  | exponent
  | file
  | group
  | log
  | look
  | matrix
deriving DecidableEq, Repr

def Kind.name : Kind → String
  | allocation => "AllocationTransform"
  | cdl => "CDLTransform"
  | colorSpace => "ColorSpaceTransform"
  | display => "DisplayTransform"
  | exponent => "ExponentTransform"
  | file => "FileTransform"
  | group => "GroupTransform"
  | log => "LogTransform"
  | look => "LookTransform"
  | matrix => "MatrixTransform"

def Kind.all : List Kind :=
  [.allocation, .cdl, .colorSpace, .display, .exponent, .file, .group, .log, .look, .matrix]

/-- The kind with a name. -/
def Kind.ofName? (name : String) : Option Kind := all.find? (·.name = name)

/-- How an allocation spreads values over the unit interval. -/
inductive Encoding where
  | uniform
  | lg2
deriving DecidableEq, Repr

def Encoding.name : Encoding → String
  | uniform => "uniform"
  | lg2 => "lg2"

def Encoding.all : List Encoding := [.uniform, .lg2]

/-- The range that an allocation maps onto the unit interval, and the offset added before a
logarithm. -/
structure Span (α : Type u) where
  least : α
  greatest : α
  offset : α
deriving BEq, DecidableEq, Repr

/-- The span of an encoding that is given none: the unit interval, or sixteen stops. -/
def Encoding.defaultSpan {α : Type u} [OfScientific α] [Zero α] [One α] [Neg α] :
    Encoding → Span α
  | uniform => ⟨0, 1, 0⟩
  | lg2 => ⟨-10.0, 6.0, 0⟩

/-- A remapping of values onto the unit interval. There are no variables, or the three of a span. -/
structure Allocation (α : Type u) where
  encoding : Encoding := .uniform
  vars : List α := []
deriving BEq, DecidableEq, Repr

/-- The span that an allocation uses. -/
def Allocation.span {α : Type u} [OfScientific α] [Zero α] [One α] [Neg α] (a : Allocation α) :
    Span α :=
  match a.vars with
  | [least, greatest, offset] => ⟨least, greatest, offset⟩
  | _ => a.encoding.defaultSpan

/-- A grade with an identifier and a description, either of them empty if there is none. -/
structure Cdl (α : Type u) where
  id : String := ""
  description : String := ""
  grade : Grade α
deriving BEq, DecidableEq, Repr

/-- The interpolation that a file is to be read with. -/
inductive Interpolation where
  | unknown
  | nearest
  | linear
  | tetrahedral
  | best
deriving DecidableEq, Repr

def Interpolation.name : Interpolation → String
  | unknown => "unknown"
  | nearest => "nearest"
  | linear => "linear"
  | tetrahedral => "tetrahedral"
  | best => "best"

def Interpolation.all : List Interpolation := [.unknown, .nearest, .linear, .tetrahedral, .best]

/-- A file to be read, and the correction to be taken from it. -/
structure FileReference where
  source : String := ""
  correctionId : String := ""
  interpolation : Interpolation := .unknown
deriving DecidableEq, Repr

/-- A conversion between two named color spaces. -/
structure SpaceConversion where
  source : String := ""
  destination : String := ""
deriving DecidableEq, Repr

/-- Named looks between two named color spaces. -/
structure LookReference where
  source : String := ""
  destination : String := ""
  looks : String := ""
deriving DecidableEq, Repr

/-- A transform without parts. -/
inductive Atom (α : Type u) where
  | allocation (allocation : Allocation α)
  | cdl (cdl : Cdl α)
  | colorSpace (conversion : SpaceConversion)
  | exponent (value : Rgba α)
  | file (reference : FileReference)
  | log (base : α)
  | look (reference : LookReference)
  | matrix (map : Affine α)
deriving BEq, DecidableEq, Repr

def Atom.kind {α : Type u} : Atom α → Kind
  | allocation _ => .allocation
  | cdl _ => .cdl
  | colorSpace _ => .colorSpace
  | exponent _ => .exponent
  | file _ => .file
  | log _ => .log
  | look _ => .look
  | matrix _ => .matrix

end ColorChain
