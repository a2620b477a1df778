import ColorChain.Color.Grade

/-!
# Color decision records

A correction is a grade with an identifier and notes. Corrections come alone, in a collection, or as
the decisions of a list, each with the medium it was made for.
-/

namespace ColorChain.Record

/-- The kinds of remarks that a record carries. -/
inductive NoteKind where
  | description
  | input
  | viewing
deriving DecidableEq, Repr

/-- The remarks of a record: any number of descriptions, and one on the input and on the viewing
conditions. -/
structure Notes where
  descriptions : List String := []
  input? : Option String := none
  viewing? : Option String := none
deriving BEq, ReflBEq, LawfulBEq, DecidableEq, Repr

/-- The notes with one more remark. A later remark on the input or on the viewing conditions takes
the place of an earlier one. -/
def Notes.add (notes : Notes) (kind : NoteKind) (text : String) : Notes :=
  match kind with
  | .description => { notes with descriptions := notes.descriptions ++ [text] }
  | .input => { notes with input? := some text }
  | .viewing => { notes with viewing? := some text }

/-- A grade with its identifier and remarks. -/
structure Correction where
  id? : Option String := none
  notes : Notes := {}
  /-- The remark beside slope, offset and power. -/
  gradeDescription? : Option String := none
  grade : Grade Float := .neutral
deriving BEq, Repr

/-- The remark that stands for the whole correction: the one beside the grade, else the first. -/
def Correction.description? (c : Correction) : Option String :=
  c.gradeDescription? <|> c.notes.descriptions.head?

/-- A correction made for a medium. -/
structure Decision where
  notes : Notes := {}
  mediaRef? : Option String := none
  correction : Correction := {}
deriving BEq, Repr

/-- Corrections in order. -/
structure Collection where
  notes : Notes := {}
  corrections : List Correction := []
deriving BEq, Repr

/-- Why a collection has no correction to give. -/
inductive SelectFault where
  | empty
  | unknownId (id : String)
deriving DecidableEq, Repr

/-- What is missing. -/
def SelectFault.subject : SelectFault → String
  | .empty => "file contains no ColorCorrection"
  | .unknownId id => "ColorCorrection id '" ++ id ++ "'"

def SelectFault.message (fault : SelectFault) : String := "not found: " ++ fault.subject

namespace Collection

/-- The first correction with the given identifier. -/
def find? (c : Collection) (id : String) : Option Correction :=
  c.corrections.find? (·.id? == some id)

def first? (c : Collection) : Option Correction := c.corrections.head?

/-- The correction with the given identifier. An empty identifier stands for the first one. -/
def select (c : Collection) (id : String) : Except SelectFault Correction :=
  if id = "" then
    match c.first? with
    | some correction => .ok correction
    | none => .error .empty
  else
    match c.find? id with
    | some correction => .ok correction
    | none => .error (.unknownId id)

end Collection

/-- Decisions in order. -/
structure DecisionList where
  notes : Notes := {}
  decisions : List Decision := []
deriving BEq, Repr

namespace DecisionList

/-- The first correction with the given identifier. -/
def find? (l : DecisionList) (id : String) : Option Correction :=
  (l.decisions.map (·.correction)).find? (·.id? == some id)

/-- The corrections of all decisions. -/
def toCollection (l : DecisionList) : Collection := ⟨l.notes, l.decisions.map (·.correction)⟩

end DecisionList

end ColorChain.Record
