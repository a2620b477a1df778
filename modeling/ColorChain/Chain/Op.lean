import ColorChain.Color.Affine
import ColorChain.Color.Grade

/-!
# Operations and chains

An operation is one step on a pixel, with every direction settled and every inverse computed. A
chain is a list of operations, applied from first to last. What each kind of operation does is given
by `Stages`; `Stages.standard` are the ones a chain is evaluated with.
-/

namespace ColorChain

universe u v

/-- One step on a pixel, its parameters of type `α` and those that meet a pixel of type `β`. -/
inductive Op (α : Type u) (β : Type v) where
  | affine (map : Affine α)
  | exponent (value : Rgba β)
  | log (base : α)
  | antilog (base : α)
  | grade (settings : Grade β)
  | ungrade (settings : Grade β)
deriving BEq, ReflBEq, LawfulBEq, DecidableEq, Repr

/-- Operations applied from first to last. -/
abbrev Chain (α : Type u) (β : Type v) := List (Op α β)

/-- What each kind of operation does to a pixel. -/
structure Stages (α : Type u) (β : Type v) where
  affine : Affine α → Rgba β → Rgba β
  exponent : Rgba β → Rgba β → Rgba β
  log : α → Rgba β → Rgba β
  antilog : α → Rgba β → Rgba β
  grade : Grade β → Rgba β → Rgba β
  ungrade : Grade β → Rgba β → Rgba β

variable {α : Type u} {β : Type v}

namespace Op

/-- Whether the operation leaves every pixel as it is. A grade never counts: even a neutral one
raises negative channels to zero. -/
def isIdentity [Zero α] [One α] [BEq α] [One β] [BEq β] : Op α β → Bool
  | .affine map => map.isIdentity
  | .exponent value => value == Rgba.fill 1
  | _ => false

def run (stages : Stages α β) : Op α β → Rgba β → Rgba β
  | .affine map => stages.affine map
  | .exponent value => stages.exponent value
  | .log base => stages.log base
  | .antilog base => stages.antilog base
  | .grade settings => stages.grade settings
  | .ungrade settings => stages.ungrade settings

end Op

/-- A chain applied to a pixel. -/
def Chain.run (stages : Stages α β) (chain : Chain α β) (p : Rgba β) : Rgba β :=
  chain.foldl (fun p op => op.run stages p) p

namespace Chain

theorem run_nil (stages : Stages α β) (p : Rgba β) : run stages [] p = p := rfl

theorem run_cons (stages : Stages α β) (op : Op α β) (chain : Chain α β) (p : Rgba β) :
    run stages (op :: chain) p = run stages chain (op.run stages p) := rfl

theorem run_append (stages : Stages α β) (first next : Chain α β) (p : Rgba β) :
    run stages (first ++ next) p = run stages next (run stages first p) :=
  List.foldl_append

end Chain

section Standard

variable [Add α] [Mul α] [Div α] [OfScientific α] [Elementary α]
variable [Zero β] [One β] [Add β] [Sub β] [Mul β] [Div β] [Elementary β] [Precision α β]

/-- The logarithm to `base` of every color channel, small values first raised to the log floor. -/
def logStage (base : α) (p : Rgba β) : Rgba β :=
  let scale := Elementary.log base
  p.setRgb (p.rgb.map fun x =>
    narrow (Elementary.log (widen (Elementary.max x (Precision.logFloor α)) : α) / scale))

/-- The power of `base` to every color channel. -/
def antilogStage (base : α) (p : Rgba β) : Rgba β :=
  p.setRgb (p.rgb.map fun x => narrow (Elementary.pow base (widen x : α)))

/-- The stages a chain is evaluated with. Affine maps, logarithms and their inverses are computed in
the numbers of the parameters and then narrowed, the rest in the numbers of the pixels. -/
def Stages.standard : Stages α β where
  affine map p := (map.apply (p.map widen)).map narrow
  exponent value p := p.zip Elementary.pow value
  log := logStage
  antilog := antilogStage
  grade settings p := p.setRgb (settings.apply α p.rgb)
  ungrade settings p := p.setRgb (settings.unapply α p.rgb)

/-- A chain applied to a pixel without alpha, which counts as one. -/
def Chain.runRgb (stages : Stages α β) (chain : Chain α β) (p : Rgb β) : Rgb β :=
  (chain.run stages (p.withAlpha 1)).rgb

end Standard

end ColorChain
