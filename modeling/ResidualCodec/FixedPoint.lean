/-
  ResidualCodec.FixedPoint

  Rounding shifts and two's-complement widths, on unbounded integers.
-/

import ResidualCodec.BitDepth

namespace ResidualCodec

/-! ## Rounding -/

/-- A number of `bits` fractional bits, rounded to nearest with ties away from zero. -/
def roundShift (x : Int) (bits : Nat) : Int :=
  if bits = 0 then x
  else
    let half : Nat := 1 <<< (bits - 1)
    if 0 ≤ x then (x + half) >>> bits else -((-x + half) >>> bits)

/-! ## Widths -/

/-- The number in the signed range of `bits` bits that is congruent to `x`. -/
def wrapTo (bits : Nat) (x : Int) : Int := x.bmod (1 <<< bits)

/-- The low 32 bits of `x`, read as a signed number. -/
def truncate32 (x : Int) : Int := wrapTo 32 x

/-- Largest signed 32-bit number. -/
def max32 : Nat := 0x7FFFFFFF

/-- Signed width that the intermediates of a transform are kept in; none on the forward path. -/
structure ValueRange where
  width : Option Nat
  deriving DecidableEq

namespace ValueRange

/-- No limit. -/
def unbounded : ValueRange := ⟨none⟩

/-- The range of dequantized coefficients at a bit depth. -/
def ofDepth (d : BitDepth) : ValueRange := ⟨some d.coeffBits⟩

/-- Bits of the width; an unlimited range has the 64 of the accumulators. -/
def bits (r : ValueRange) : Nat := r.width.getD 64

/-- The value as it is kept: unchanged inside the range, wrapped to it outside. -/
def wrap (r : ValueRange) (x : Int) : Int :=
  match r.width with
  | none => x
  | some w => wrapTo w x

def contains (r : ValueRange) (x : Int) : Bool :=
  match r.width with
  | none => true
  | some w =>
    let limit : Nat := 1 <<< (w - 1)
    decide (-limit ≤ x ∧ x < limit)

end ValueRange

end ResidualCodec
