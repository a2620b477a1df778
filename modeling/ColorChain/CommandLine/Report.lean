import ColorChain.Transform.Fault

/-!
# Reports

What is printed when a command fails: what could not be done, and the causes behind it from the
nearest to the farthest, numbered if there are several.
-/

namespace ColorChain.CommandLine

structure Report where
  message : String
  causes : List String := []
deriving DecidableEq, Repr

namespace Report

/-- The report of what could not be done because of a fault. -/
def ofFault (message : String) (fault : TransformFault Float) : Report :=
  ⟨message, fault.message :: fault.causes⟩

/-- A text with its lines after the first indented. -/
def hanging (indent : List Char) (cs : List Char) : List Char :=
  cs.flatMap fun c => if c = '\n' then c :: indent else [c]

def spaces (n : Nat) : List Char := List.replicate n ' '

/-- A number right-aligned in a column of a given width. -/
def aligned (width n : Nat) : List Char :=
  let ds := Number.digits n
  spaces (width - ds.length) ++ ds

def causeLines (causes : List String) : List Char :=
  match causes with
  | [] => []
  | [cause] => '\n' :: spaces 4 ++ hanging (spaces 4) cause.toList
  | causes => causes.zipIdx.flatMap fun (cause, n) =>
    '\n' :: aligned 5 n ++ ':' :: ' ' :: hanging (spaces 7) cause.toList

def text (r : Report) : List Char :=
  "Error: ".toList ++ r.message.toList
    ++ (if r.causes.isEmpty then [] else "\n\nCaused by:".toList ++ causeLines r.causes) ++ ['\n']

end Report

end ColorChain.CommandLine
