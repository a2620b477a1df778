/-!
# Channels

Three or four values of one type, one for each channel of a pixel.
-/

namespace ColorChain

universe u v w

/-- One value for each of red, green and blue. -/
structure Rgb (α : Type u) where
  r : α
  g : α
  b : α
deriving BEq, ReflBEq, LawfulBEq, DecidableEq, Repr, Inhabited

/-- One value for each of red, green, blue and alpha. -/
structure Rgba (α : Type u) where
  r : α
  g : α
  b : α
  a : α
deriving BEq, ReflBEq, LawfulBEq, DecidableEq, Repr, Inhabited

variable {α : Type u} {β : Type v} {γ : Type w}

namespace Rgb

/-- The same value in every channel. -/
def fill (x : α) : Rgb α := ⟨x, x, x⟩

def map (f : α → β) (p : Rgb α) : Rgb β := ⟨f p.r, f p.g, f p.b⟩

def zip (f : α → β → γ) (p : Rgb α) (q : Rgb β) : Rgb γ := ⟨f p.r q.r, f p.g q.g, f p.b q.b⟩

def toList (p : Rgb α) : List α := [p.r, p.g, p.b]

/-- The channels of a list of three values. -/
def ofList? : List α → Option (Rgb α)
  | [r, g, b] => some ⟨r, g, b⟩
  | _ => none

theorem ofList?_toList (p : Rgb α) : ofList? p.toList = some p := rfl

/-- The pixels of values in a row, without those left over at the end. -/
def ofRow : List α → List (Rgb α)
  | r :: g :: b :: rest => ⟨r, g, b⟩ :: ofRow rest
  | _ => []

/-- A pixel with alpha `a`. -/
def withAlpha (p : Rgb α) (a : α) : Rgba α := ⟨p.r, p.g, p.b, a⟩

end Rgb

namespace Rgba

/-- The same value in every channel. -/
def fill (x : α) : Rgba α := ⟨x, x, x, x⟩

def map (f : α → β) (p : Rgba α) : Rgba β := ⟨f p.r, f p.g, f p.b, f p.a⟩

def zip (f : α → β → γ) (p : Rgba α) (q : Rgba β) : Rgba γ :=
  ⟨f p.r q.r, f p.g q.g, f p.b q.b, f p.a q.a⟩

def toList (p : Rgba α) : List α := [p.r, p.g, p.b, p.a]

/-- The channels of a list of four values. -/
def ofList? : List α → Option (Rgba α)
  | [r, g, b, a] => some ⟨r, g, b, a⟩
  | _ => none

theorem ofList?_toList (p : Rgba α) : ofList? p.toList = some p := rfl

/-- The pixels of values in a row, without those left over at the end. -/
def ofRow : List α → List (Rgba α)
  | r :: g :: b :: a :: rest => ⟨r, g, b, a⟩ :: ofRow rest
  | _ => []

/-- The color channels without alpha. -/
def rgb (p : Rgba α) : Rgb α := ⟨p.r, p.g, p.b⟩

theorem rgb_withAlpha (p : Rgba α) : p.rgb.withAlpha p.a = p := rfl

/-- The pixel with its color channels replaced, its alpha kept. -/
def setRgb (p : Rgba α) (c : Rgb α) : Rgba α := c.withAlpha p.a

end Rgba

end ColorChain
