import ColorChain.Transform.Fault
import ColorChain.Transform.Tree

/-!
# Validity

What can be told of a transform without evaluating it: every direction is known, every allocation
has a span that is not empty, every logarithm a base that has logarithms.
-/

namespace ColorChain

universe u

variable {α : Type u}

/-- The given number of variables is none or a whole span. -/
def checkVarCount (count : Nat) : Except (Defect α) Unit :=
  if count = 0 ∨ count = 3 then .ok () else .error (.varCount count)

/-- An allocation with the given variables. -/
def Allocation.ofVars (encoding : Encoding) (vars : List α) : Except (Defect α) (Allocation α) :=
  (checkVarCount vars.length).map fun _ => ⟨encoding, vars⟩

/-- The allocation with its variables replaced. -/
def Allocation.setVars (a : Allocation α) (vars : List α) : Except (Defect α) (Allocation α) :=
  Allocation.ofVars a.encoding vars

section

variable [OfScientific α] [Zero α] [One α] [Neg α] [BEq α] [LT α] [DecidableLT α]

def Allocation.validate (a : Allocation α) : Except (Defect α) Unit :=
  (checkVarCount a.vars.length).bind fun _ =>
    if a.span.least == a.span.greatest then .error (.emptySpan a.span.least) else .ok ()

/-- A base is greater than zero and not one. -/
def validateBase (base : α) : Except (Defect α) Unit :=
  if 0 < base ∧ !(base == 1) then .ok () else .error (.logBase base)

def Atom.validate : Atom α → Except (Defect α) Unit
  | .allocation a => a.validate
  | .log base => validateBase base
  | _ => .ok ()

/-- The direction of a transform of the given kind is known. -/
def checkDirection (kind : Kind) (d : Direction) : Except (Defect α) Unit :=
  if d = .unknown then .error (.unknownDirection kind) else .ok ()

namespace Transform

mutual

/-- The first defect of a transform, each node before the nodes below it. -/
def validate : Transform α → Except (Defect α) Unit
  | atom d a => do checkDirection a.kind d; a.validate
  | display d _ linear colorTiming channelView displayed => do
    checkDirection .display d
    validateSlot linear
    validateSlot colorTiming
    validateSlot channelView
    validateSlot displayed
  | group d children => do checkDirection .group d; validateAll children

def validateAll : List (Transform α) → Except (Defect α) Unit
  | [] => .ok ()
  | t :: ts => do validate t; validateAll ts

def validateSlot : Option (Transform α) → Except (Defect α) Unit
  | none => .ok ()
  | some t => validate t

end

end Transform

end

end ColorChain
