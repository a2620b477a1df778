import ColorChain.Arithmetic
import ColorChain.Color.Channels

/-!
# Color matrices

A 4x4 matrix acts on the four channels of a pixel. Row `r` yields the red channel of the result,
row `g` the green one, and so on. Products and sums are taken in the order written here, which
matters in floating point.
-/

namespace ColorChain

universe u

/-- A 4x4 matrix: each row yields the channel it is named for. -/
abbrev ColorMatrix (α : Type u) := Rgba (Rgba α)

variable {α : Type u}

/-- The sum of the products of two rows of channels, from red to alpha. -/
def Rgba.dot [Add α] [Mul α] (p q : Rgba α) : α :=
  p.r * q.r + p.g * q.g + p.b * q.b + p.a * q.a

namespace ColorMatrix

def transpose (m : ColorMatrix α) : ColorMatrix α :=
  ⟨m.map (·.r), m.map (·.g), m.map (·.b), m.map (·.a)⟩

theorem transpose_transpose (m : ColorMatrix α) : transpose (transpose m) = m := rfl

def diagonal [Zero α] (d : Rgba α) : ColorMatrix α :=
  ⟨⟨d.r, 0, 0, 0⟩, ⟨0, d.g, 0, 0⟩, ⟨0, 0, d.b, 0⟩, ⟨0, 0, 0, d.a⟩⟩

def identity [Zero α] [One α] : ColorMatrix α := diagonal (Rgba.fill 1)

/-- The elements row by row. -/
def toList (m : ColorMatrix α) : List α :=
  m.r.toList ++ m.g.toList ++ m.b.toList ++ m.a.toList

/-- The matrix with the sixteen elements of a list as its rows. -/
def ofList? : List α → Option (ColorMatrix α)
  | [rr, rg, rb, ra, gr, gg, gb, ga, br, bg, bb, ba, ar, ag, ab, aa] =>
    some ⟨⟨rr, rg, rb, ra⟩, ⟨gr, gg, gb, ga⟩, ⟨br, bg, bb, ba⟩, ⟨ar, ag, ab, aa⟩⟩
  | _ => none

theorem ofList?_toList (m : ColorMatrix α) : ofList? (toList m) = some m := rfl

/-- The element `row * 4 + column` of the rows laid end to end. -/
def element? (m : ColorMatrix α) (row column : Nat) : Option α := (toList m)[row * 4 + column]?

/-- The matrix applied to a pixel. -/
def apply [Add α] [Mul α] (m : ColorMatrix α) (p : Rgba α) : Rgba α := m.map (·.dot p)

/-- The matrix that applies `n` and then `m`. -/
def mul [Add α] [Mul α] (m n : ColorMatrix α) : ColorMatrix α :=
  let columns := transpose n
  m.map fun row => columns.map row.dot

section Inverse

variable [Add α] [Sub α] [Mul α]

/-- The determinant, by minors of the last two columns. -/
def determinant (m : ColorMatrix α) : α :=
  let c := transpose m
  let ba := c.b.b * c.a.a - c.b.a * c.a.b
  let ga := c.b.g * c.a.a - c.b.a * c.a.g
  let gb := c.b.g * c.a.b - c.b.b * c.a.g
  let ra := c.b.r * c.a.a - c.b.a * c.a.r
  let rb := c.b.r * c.a.b - c.b.b * c.a.r
  let rg := c.b.r * c.a.g - c.b.g * c.a.r
  c.r.r * (c.g.g * ba - c.g.b * ga + c.g.a * gb)
    - c.r.g * (c.g.r * ba - c.g.b * ra + c.g.a * rb)
    + c.r.b * (c.g.r * ga - c.g.g * ra + c.g.a * rg)
    - c.r.a * (c.g.r * gb - c.g.g * rb + c.g.b * rg)

/-- The matrix of cofactors: row `r` holds those of the first column, and so on. -/
def cofactors [One α] [Neg α] (m : ColorMatrix α) : ColorMatrix α :=
  let c := transpose m
  let minor (x y : α × α) : α := x.1 * y.2 - y.1 * x.2
  let factor (f : Rgba α → α × α) : Rgba α :=
    ⟨minor (f c.b) (f c.a), minor (f c.b) (f c.a), minor (f c.g) (f c.a), minor (f c.g) (f c.b)⟩
  let f0 := factor fun x => (x.b, x.a)
  let f1 := factor fun x => (x.g, x.a)
  let f2 := factor fun x => (x.g, x.b)
  let f3 := factor fun x => (x.r, x.a)
  let f4 := factor fun x => (x.r, x.b)
  let f5 := factor fun x => (x.r, x.g)
  let vector (f : Rgba α → α) : Rgba α := ⟨f c.g, f c.r, f c.r, f c.r⟩
  let v0 := vector (·.r)
  let v1 := vector (·.g)
  let v2 := vector (·.b)
  let v3 := vector (·.a)
  let even : Rgba α := ⟨1, -1, 1, -1⟩
  let odd : Rgba α := ⟨-1, 1, -1, 1⟩
  let column (v f w g x h s : Rgba α) : Rgba α :=
    let times := Rgba.zip (α := α) (β := α) (γ := α) (· * ·)
    let minus := Rgba.zip (α := α) (β := α) (γ := α) (· - ·)
    let plus := Rgba.zip (α := α) (β := α) (γ := α) (· + ·)
    times (plus (minus (times v f) (times w g)) (times x h)) s
  ⟨column v1 f0 v2 f1 v3 f2 even, column v0 f0 v2 f3 v3 f4 odd,
    column v0 f1 v1 f3 v3 f5 even, column v0 f2 v1 f4 v2 f5 odd⟩

/-- The cofactors over the determinant. The determinant is summed from the first row of the
cofactors, which in floating point can differ from `determinant`. -/
def adjugateInverse [One α] [Neg α] [Div α] (m : ColorMatrix α) : ColorMatrix α :=
  let c := transpose m
  let k := cofactors m
  let scale := 1 / (c.r.r * k.r.r + c.r.g * k.g.r + c.r.b * k.b.r + c.r.a * k.a.r)
  transpose (k.map (·.map (· * scale)))

/-- The length of a row. -/
def rowNorm [Elementary α] (row : Rgba α) : α := Elementary.sqrt (row.dot row)

/-- The product of the lengths of the rows, which bounds the determinant. -/
def rowNorms [Elementary α] (m : ColorMatrix α) : α :=
  rowNorm m.r * rowNorm m.g * rowNorm m.b * rowNorm m.a

/-- The inverse, or nothing if a row is zero or the determinant is below a millionth of a
millionth of the product of the row lengths. A NaN determinant is below nothing. -/
def inverse? [Zero α] [One α] [Neg α] [Div α] [BEq α] [LT α] [DecidableLT α] [OfScientific α]
    [Elementary α] (m : ColorMatrix α) : Option (ColorMatrix α) :=
  let norms := rowNorms m
  if norms == 0 || decide (Elementary.abs (determinant m) < 1e-12 * norms) then none
  else some (adjugateInverse m)

end Inverse

/-- Whether every element lies within `tolerance` of its counterpart. -/
def isClose [Sub α] [LE α] [DecidableLE α] [Elementary α] (m n : ColorMatrix α)
    (tolerance : α) : Bool :=
  (List.zip (toList m) (toList n)).all fun (x, y) =>
    decide (Elementary.abs (x - y) ≤ tolerance)

end ColorMatrix

end ColorChain
