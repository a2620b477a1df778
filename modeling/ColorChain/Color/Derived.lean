import ColorChain.Color.Affine
import ColorChain.Color.Luma

/-!
# Derived maps

The maps given by a few numbers: saturation around a luma, a scale, a view of chosen channels, and
the linear map of one range onto another.
-/

namespace ColorChain

universe u v w

variable {α : Type u} {β : Type v} {γ : Type w}

/-- One of the four channels. -/
inductive Channel where
  | r
  | g
  | b
  | a
deriving DecidableEq, Repr

/-- The position of a channel in a pixel. -/
def Channel.index : Channel → Nat
  | r => 0
  | g => 1
  | b => 2
  | a => 3

def Rgba.get (p : Rgba α) : Channel → α
  | .r => p.r
  | .g => p.g
  | .b => p.b
  | .a => p.a

section Get

variable (c : Channel)

@[simp]
theorem Rgba.get_fill (x : α) : (Rgba.fill x).get c = x := by
  cases c <;> rfl

@[simp]
theorem Rgba.get_map (f : α → β) (p : Rgba α) : (p.map f).get c = f (p.get c) := by
  cases c <;> rfl

@[simp]
theorem Rgba.get_zip (f : α → β → γ) (p : Rgba α) (q : Rgba β) :
    (p.zip f q).get c = f (p.get c) (q.get c) := by
  cases c <;> rfl

/-- A pixel is told by its channels. -/
theorem Rgba.eq_of_get {p q : Rgba α} (h : ∀ c, p.get c = q.get c) : p = q := by
  obtain ⟨r, g, b, a⟩ := p
  have hr : r = q.r := h .r
  have hg : g = q.g := h .g
  have hb : b = q.b := h .b
  have ha : a = q.a := h .a
  subst hr hg hb ha
  rfl

theorem ColorMatrix.get_transpose (m : ColorMatrix α) (c' : Channel) :
    (m.transpose.get c).get c' = (m.get c').get c := by
  cases c <;> cases c' <;> rfl

theorem ColorMatrix.get_diagonal [Zero α] (d : Rgba α) (c' : Channel) :
    ((ColorMatrix.diagonal d).get c).get c' = if c = c' then d.get c else 0 := by
  cases c <;> cases c' <;> rfl

end Get

namespace Affine

/-- Every color channel moved toward the luma under `weights`: at zero it is the luma, at one it is
kept. -/
def saturation [Zero α] [One α] [Add α] [Sub α] [Mul α] (amount : α) (weights : Rgb α) :
    Affine α :=
  let gray := weights.map fun w => w * (1 - amount)
  .ofMatrix
    ⟨⟨gray.r + amount, gray.g + 0, gray.b + 0, 0⟩,
      ⟨gray.r + 0, gray.g + amount, gray.b + 0, 0⟩,
      ⟨gray.r + 0, gray.g + 0, gray.b + amount, 0⟩,
      ⟨0, 0, 0, 1⟩⟩

/-- Every channel times its own factor. -/
def scale [Zero α] (factors : Rgba α) : Affine α := .ofMatrix (ColorMatrix.diagonal factors)

/-- What remains to see of the `shown` channels: everything if all are shown, else alpha in every
channel if alpha is shown, else in every color channel the luma of the shown colors, with weights
that sum to one unless their sum is zero. -/
def view [Zero α] [One α] [Add α] [Div α] [BEq α] (shown : Rgba Bool) (weights : Rgb α) :
    Affine α :=
  if shown.r && shown.g && shown.b && shown.a then identity
  else if shown.a then .ofMatrix (Rgba.fill ⟨0, 0, 0, 1⟩)
  else
    let kept := shown.rgb.zip (fun shown w => if shown then w else 0) weights
    let sum := kept.r + kept.g + kept.b
    let gray := if sum == 0 then kept else kept.map (· / sum)
    .ofMatrix ⟨gray.withAlpha 0, gray.withAlpha 0, gray.withAlpha 0, ⟨0, 0, 0, 1⟩⟩

/-- A range for every channel. -/
structure Range (α : Type u) where
  least : Rgba α
  greatest : Rgba α

/-- The first channel whose range is a single value. -/
def Range.flat? [Zero α] [Sub α] [BEq α] (range : Range α) : Option Channel :=
  [Channel.r, .g, .b, .a].find? fun c => range.greatest.get c - range.least.get c == 0

/-- The linear map of the range `old` onto the range `new`, or the first channel in which `old` is a
single value. -/
def fit [Zero α] [Sub α] [Mul α] [Div α] [BEq α] (old new : Range α) :
    Except Channel (Affine α) :=
  match old.flat? with
  | some channel => .error channel
  | none =>
    let width := old.greatest.zip (· - ·) old.least
    let ratio := (new.greatest.zip (· - ·) new.least).zip (· / ·) width
    let cross := (new.least.zip (· * ·) old.greatest).zip (· - ·)
      (new.greatest.zip (· * ·) old.least)
    .ok ⟨ColorMatrix.diagonal ratio, cross.zip (· / ·) width⟩

end Affine

end ColorChain
