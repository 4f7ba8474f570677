/-
  ResidualCodec.Transform.Hadamard

  The lossless 4x4 transform: a Walsh-Hadamard transform by lifting steps in 32
  bits, each of which can be undone exactly. Coefficients carry the unit
  quantizer step, a factor of four.
-/

import ResidualCodec.Transform.Block

namespace ResidualCodec

/-! ## Lifting -/

/-- Half of a number, rounded down. -/
def halfDown (x : Int) : Int := x / 2

/-- One forward pass over four samples. -/
def liftForward : List Int → List Int
  | [a, b, c, d] =>
    let a₁ := truncate32 (a + b)
    let d₁ := truncate32 (d - c)
    let e := halfDown (truncate32 (a₁ - d₁))
    let b₁ := truncate32 (e - b)
    let c₁ := truncate32 (e - c)
    [truncate32 (a₁ - c₁), c₁, truncate32 (d₁ + b₁), b₁]
  | other => other

/-- One inverse pass over four coefficients. -/
def liftInverse : List Int → List Int
  | [a, c, d, b] =>
    let a₁ := truncate32 (a + c)
    let d₁ := truncate32 (d - b)
    let e := halfDown (truncate32 (a₁ - d₁))
    let b₁ := truncate32 (e - b)
    let c₁ := truncate32 (e - c)
    [truncate32 (a₁ - b₁), b₁, c₁, truncate32 (d₁ + c₁)]
  | other => other

/-! ## Blocks -/

/-- Scale of the coefficients: the quantizer step of lossless coding. -/
def unitStep : Int := 4

/-- Forward transform of four rows of samples: columns first. -/
def forwardHadamardRows (m : Rows) : Rows :=
  let half := ((m.transpose 4).pass liftForward).transpose 4
  (half.pass liftForward).each fun x => truncate32 (x * unitStep)

/-- Inverse transform of four rows of coefficients: rows first. -/
def inverseHadamardRows (m : Rows) : Rows :=
  let half := (m.each (· / unitStep)).pass liftInverse
  ((half.transpose 4).pass liftInverse).transpose 4

/-- Coefficients of 16 samples, written over the front of `output`. -/
def forwardHadamard (input output : Array Int) : Except Fault (Array Int) :=
  if input.size < 16 ∨ output.size < 16 then .error .shortHadamardSamples
  else .ok ((forwardHadamardRows (Rows.ofRaster 4 input)).writeTo output)

/-- Samples of 16 coefficients, written over the front of `output`. An end of block of zero says
that there are no coefficients, whatever `input` holds. -/
def inverseHadamard (input output : Array Int) (eob : Nat) : Except Fault (Array Int) :=
  if input.size < 16 ∨ output.size < 16 then .error .shortHadamardCoefficients
  else
    let rows := Rows.ofRaster 4 input
    if eob = 0 then .ok ((rows.each fun _ => 0).writeTo output)
    else .ok ((inverseHadamardRows rows).writeTo output)

end ResidualCodec
