import ColorChain.Chain.Op
import Mathlib.Analysis.SpecialFunctions.Pow.Real

/-!
# Evaluation over the real numbers

Parameters and pixels are real numbers, a parameter meets a pixel unchanged, and the functions of
analysis are the real ones. This is how a chain is read when nothing is rounded.
-/

namespace ColorChain

noncomputable instance elementaryReal : Elementary ℝ where
  abs x := |x|
  sqrt := Real.sqrt
  log := Real.log
  pow x y := x ^ y
  max := max

/-- The log floor is the least normal number of single precision. -/
noncomputable instance precisionReal : Precision ℝ ℝ where
  narrow x := x
  widen x := x
  logFloor := 2 ^ (-126 : ℤ)

/-- The least value whose logarithm is taken. -/
noncomputable def logFloor : ℝ := Precision.logFloor ℝ

theorem logFloor_pos : 0 < logFloor := by
  change (0 : ℝ) < 2 ^ (-126 : ℤ)
  positivity

theorem logFloor_le_one : logFloor ≤ 1 := by
  change (2 : ℝ) ^ (-126 : ℤ) ≤ 1
  norm_num

end ColorChain
