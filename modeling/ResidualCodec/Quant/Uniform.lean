/-
  ResidualCodec.Quant.Uniform

  Quantization in equal steps: a level stands for a multiple of the step, and a
  coefficient goes to the nearest level. Blocks of 32 points halve their
  coefficients, so that their levels count half steps.
-/

import ResidualCodec.FixedPoint
import ResidualCodec.Transform.Shape

namespace ResidualCodec

/-- The magnitude with the sign of `x`. -/
def withSign (magnitude x : Int) : Int := if x < 0 then -magnitude else magnitude

namespace Uniform

/-- Magnitude that a level stands for, before any limit. -/
def magnitude (level : Int) (step : Nat) (s : TransformSize) : Nat :=
  (level.natAbs * step) >>> s.dequantShift

/-- Coefficient of a level; magnitudes stop at the largest 32-bit number. -/
def dequantize (level : Int) (step : Nat) (s : TransformSize) : Int :=
  withSign (min (magnitude level step s) max32) level

/-- Magnitude of the level nearest to a coefficient, ties going up. -/
def nearest (coeff : Int) (step : Nat) (s : TransformSize) : Nat :=
  ((coeff.natAbs <<< s.dequantShift) + step / 2) / step

/-- Level nearest to a coefficient, ties away from zero, in 32 bits. -/
def quantize (coeff : Int) (step : Nat) (s : TransformSize) : Int :=
  truncate32 (withSign (nearest coeff step s) coeff)

end Uniform

/-- A step given as a number of any sign must be positive. -/
def checkStep (step : Int) : Except Fault Nat :=
  if 0 < step then .ok step.toNat else .error .stepNotPositive

end ResidualCodec
