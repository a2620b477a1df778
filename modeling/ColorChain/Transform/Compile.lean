import ColorChain.Chain.Simplify
import ColorChain.Transform.Schedule
import ColorChain.Transform.Validity

/-!
# Compiling

A schedule becomes a chain: every entry is lowered to operations, inverses are computed, and the
first entry that cannot be lowered is the fault of the whole.
-/

namespace ColorChain

universe u v

/-- What reads the correction that a file reference names. -/
abbrev Resolver (α : Type u) := FileReference → Except (TransformFault α) (Cdl α)

variable {α : Type u} {β : Type v}
variable [OfScientific α] [Zero α] [One α] [Add α] [Sub α] [Neg α] [Mul α] [Div α] [BEq α] [LT α]
variable [DecidableLT α] [LE α] [DecidableLE α] [Elementary α]

/-- The map that undoes an affine map. -/
def Affine.inverse (f : Affine α) : Except (Defect α) (Affine α) :=
  match f.inverse? with
  | some inverse => .ok inverse
  | none => .error (.singularMatrix f.matrix.determinant)

/-- The exponents that undo exponents. -/
def invertExponent (value : Rgba α) : Except (Defect α) (Rgba α) :=
  if value.toList.any (· == 0) then .error (.zeroExponent value) else .ok (value.map (1 / ·))

/-- Whether a grade can be undone. -/
def Grade.checkInvertible (g : Grade α) : Except (Defect α) Unit :=
  match g.slope.toList.find? (· ≤ 0), g.power.toList.find? (· ≤ 0) with
  | some value, _ => .error (.slope value)
  | none, some value => .error (.power value)
  | none, none => if g.saturation == 0 then .error .saturation else .ok ()

/-- The operations of an allocation. A logarithmic one shifts, takes the logarithm to base two and
maps the span onto the unit interval. -/
def Allocation.chain (a : Allocation α) (inverted : Bool) : Chain α β :=
  let span := a.span
  let width := span.greatest - span.least
  let toUnit : Op α β := .affine (.onColor (Rgb.fill (1 / width)) (Rgb.fill (-span.least / width)))
  let fromUnit : Op α β := .affine (.onColor (Rgb.fill width) (Rgb.fill span.least))
  let shift (offset : α) : Op α β := .affine (.onColor (Rgb.fill 1) (Rgb.fill offset))
  match a.encoding, inverted with
  | .uniform, false => [toUnit]
  | .uniform, true => [fromUnit]
  | .lg2, false => [shift span.offset, .log 2.0, toUnit]
  | .lg2, true => [fromUnit, .antilog 2.0, shift (-span.offset)]

/-- The operations of a grade. -/
def Cdl.chain [Precision α β] (c : Cdl α) (inverted : Bool) : Except (Defect α) (Chain α β) :=
  let settings := c.grade.map narrow
  if inverted then (c.grade.checkInvertible).map fun _ => [.ungrade settings]
  else .ok [.grade settings]

/-- The operations of an atom. -/
def Atom.chain [Precision α β] (resolve : Resolver α) (atom : Atom α) (inverted : Bool) :
    Except (TransformFault α) (Chain α β) :=
  match atom with
  | .matrix map =>
    if inverted then (map.inverse.mapError .defect).map fun map => [.affine map]
    else .ok [.affine map]
  | .exponent value =>
    if inverted then
      ((invertExponent value).mapError .defect).map fun value => [.exponent (value.map narrow)]
    else .ok [.exponent (value.map narrow)]
  | .log base =>
    ((validateBase base).mapError .defect).map fun _ =>
      if inverted then [.antilog base] else [.log base]
  | .cdl c => (c.chain inverted).mapError .defect
  | .allocation a => (a.validate.mapError .defect).map fun _ => a.chain inverted
  | .file reference => (resolve reference).bind fun c => (c.chain inverted).mapError .defect
  | .colorSpace _ => .error (.unresolved .colorSpace)
  | .look _ => .error (.unresolved .look)

def Obstacle.fault : Obstacle → TransformFault α
  | .unknownDirection kind => .defect (.unknownDirection kind)
  | .unresolved kind => .unresolved kind

/-- The operations of an entry of a schedule. -/
def Step.chain [Precision α β] (resolve : Resolver α) : Step α →
    Except (TransformFault α) (Chain α β)
  | .apply atom inverted => atom.chain resolve inverted
  | .stuck obstacle => .error obstacle.fault

/-- The operations of a schedule. -/
def lower [Precision α β] (resolve : Resolver α) : List (Step α) →
    Except (TransformFault α) (Chain α β)
  | [] => .ok []
  | step :: steps => do
    let first ← step.chain resolve
    let rest ← lower resolve steps
    return first ++ rest

namespace Transform

/-- The chain of a transform, not simplified. -/
def compile [Precision α β] (resolve : Resolver α) (d : Direction) (t : Transform α) :
    Except (TransformFault α) (Chain α β) :=
  if d = .unknown then .error (.defect .unknownTarget) else lower resolve (t.schedule d)

/-- The chain of a transform, simplified with the given effort. -/
def chain [Precision α β] [One β] [BEq β] (resolve : Resolver α) (d : Direction)
    (effort : Effort) (t : Transform α) : Except (TransformFault α) (Chain α β) :=
  (t.compile resolve d).map (Chain.optimize effort)

end Transform

end ColorChain
