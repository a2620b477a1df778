import ColorChain.Color.Luma

/-!
# Grades

A grade is a slope, an offset and a power for every color channel and one saturation, the four
settings of an ASC color decision.
-/

namespace ColorChain

universe u v

/-- The settings of a color decision. -/
structure Grade (α : Type u) where
  slope : Rgb α
  offset : Rgb α
  power : Rgb α
  saturation : α
deriving BEq, ReflBEq, LawfulBEq, DecidableEq, Repr

namespace Grade

variable {α : Type u} {β : Type v}

/-- The grade that changes no color from black upward. -/
def neutral [Zero α] [One α] : Grade α := ⟨Rgb.fill 1, Rgb.fill 0, Rgb.fill 1, 1⟩

def map (f : α → β) (g : Grade α) : Grade β :=
  ⟨g.slope.map f, g.offset.map f, g.power.map f, f g.saturation⟩

/-- Slope, offset and power in a row. -/
def toList (g : Grade α) : List α := g.slope.toList ++ g.offset.toList ++ g.power.toList

/-- The grade with slope, offset and power taken from nine values in a row. -/
def setTone (g : Grade α) : List α → Option (Grade α)
  | [sr, sg, sb, or, og, ob, pr, pg, pb] =>
    some { g with slope := ⟨sr, sg, sb⟩, offset := ⟨or, og, ob⟩, power := ⟨pr, pg, pb⟩ }
  | _ => none

theorem setTone_toList (g h : Grade α) :
    g.setTone h.toList = some { h with saturation := g.saturation } := rfl

/-- Every channel times its slope plus its offset, raised to zero, to its power. -/
def tone [Zero β] [Add β] [Mul β] [Elementary β] (g : Grade β) (p : Rgb β) : Rgb β :=
  ((p.zip (· * ·) g.slope).zip (· + ·) g.offset).zip
    (fun x power => Elementary.pow (Elementary.max x 0) power) g.power

variable (α) in
/-- Every channel moved from the luma by the factor `saturation`. -/
def saturate [OfScientific α] [Precision α β] [Add β] [Sub β] [Mul β] (saturation : β)
    (p : Rgb β) : Rgb β :=
  let gray := luma (rec709 : Rgb α) p
  p.map fun x => gray + saturation * (x - gray)

variable (α) in
/-- Every channel moved toward the luma by the divisor `saturation`. -/
def desaturate [OfScientific α] [Precision α β] [Add β] [Sub β] [Mul β] [Div β] (saturation : β)
    (p : Rgb β) : Rgb β :=
  let gray := luma (rec709 : Rgb α) p
  p.map fun x => gray + (x - gray) / saturation

/-- The inverse of `tone` on channels that are not below zero. -/
def untone [Zero β] [One β] [Sub β] [Div β] [Elementary β] (g : Grade β) (p : Rgb β) : Rgb β :=
  let linear := p.zip (fun x power => Elementary.pow (Elementary.max x 0) (1 / power)) g.power
  (linear.zip (· - ·) g.offset).zip (· / ·) g.slope

variable (α) in
/-- The grade applied to a color. -/
def apply [OfScientific α] [Precision α β] [Zero β] [Add β] [Sub β] [Mul β] [Elementary β]
    (g : Grade β) (p : Rgb β) : Rgb β :=
  saturate α g.saturation (g.tone p)

variable (α) in
/-- The grade undone. -/
def unapply [OfScientific α] [Precision α β] [Zero β] [One β] [Add β] [Sub β] [Mul β] [Div β]
    [Elementary β] (g : Grade β) (p : Rgb β) : Rgb β :=
  g.untone (desaturate α g.saturation p)

end Grade

end ColorChain
