import ColorChain.Arithmetic
import ColorChain.Color.Channels

/-!
# Luma

The brightness of a pixel as a weighted sum of its color channels.
-/

namespace ColorChain

universe u v

/-- The weights of Rec. 709. -/
def rec709 {α : Type u} [OfScientific α] : Rgb α := ⟨0.2126, 0.7152, 0.0722⟩

/-- The sum of the products of two triples, from red to blue. -/
def Rgb.dot {α : Type u} [Add α] [Mul α] (p q : Rgb α) : α := p.r * q.r + p.g * q.g + p.b * q.b

/-- The luma of a pixel under weights given as parameters. -/
def luma {α : Type u} {β : Type v} [Precision α β] [Add β] [Mul β] (weights : Rgb α)
    (p : Rgb β) : β :=
  p.dot (weights.map narrow)

end ColorChain
