/-
  ResidualCodec.Quant.NonUniform

  Quantization with shaped bins: the first three bins above zero have widths and
  reconstruction points of their own, in fractions of the step, and the bins
  above them are linear.
-/

import ResidualCodec.BlockKind
import ResidualCodec.FixedPoint

namespace ResidualCodec

/-! ## Shapes -/

/-- Shape of the bins of a band. Knots are the widths of the first three bins in 128ths of the
step, and the offset pulls reconstruction points toward zero, in 256ths of the step. -/
structure BandShape where
  knot₁ : UInt8
  knot₂ : UInt8
  knot₃ : UInt8
  offset : UInt8
  deriving DecidableEq

namespace BandShape

def knots (s : BandShape) : List UInt8 := [s.knot₁, s.knot₂, s.knot₃]

/-- Whether every knot is a positive fraction of the step, and one at most. -/
def knotsValid (s : BandShape) : Bool := s.knots.all fun k => 0 < k && k ≤ 128

/-- Whether the offset is less than half a step. -/
def offsetValid (s : BandShape) : Bool := s.offset < 128

end BandShape

/-- Shapes of all bands. -/
structure NuqProfile where
  bands : Vector BandShape 6
  deriving DecidableEq

namespace NuqProfile

/-- The profile that is used when none is described. -/
def standard : NuqProfile :=
  ⟨#v[⟨86, 122, 128, 4⟩, ⟨84, 124, 128, 6⟩, ⟨82, 126, 128, 8⟩,
      ⟨80, 126, 128, 10⟩, ⟨78, 128, 128, 12⟩, ⟨76, 128, 128, 14⟩]⟩

/-! ## Validation -/

/-- What is wrong with a profile. -/
inductive Defect where
  | knots (band : Band) (shape : BandShape)
  | offset (shape : BandShape)
  deriving DecidableEq

def Defect.message : Defect → String
  | .knots b s =>
    "NUQ knots for band " ++ toString b.val ++ " must be in 1..=128, got [" ++
      ", ".intercalate (s.knots.map fun k => toString k.toNat) ++ "]"
  | .offset s => "NUQ offset " ++ toString s.offset.toNat ++ " must be below 128"

/-- The first defect: a band with a bad knot, or else a band with a bad offset. -/
def defect? (p : NuqProfile) : Option Defect :=
  match (List.finRange 6).find? fun b => !p.bands[b].knotsValid with
  | some b => some (.knots b p.bands[b])
  | none => (p.bands.toList.find? fun s => !s.offsetValid).map .offset

def validate (p : NuqProfile) : Except Error Unit :=
  match p.defect? with
  | some d => .error (.config d.message)
  | none => .ok ()

end NuqProfile

/-! ## Bins -/

/-- The bins of a band for one step. The edges are the lower ends of the bins 1 to 3, and the
points their reconstructions; the point of bin 0 is zero. -/
structure NuqBins where
  step : Nat
  edge₁ : Int
  edge₂ : Int
  edge₃ : Int
  point₁ : Int
  point₂ : Int
  point₃ : Int
  deriving DecidableEq

namespace NuqBins

/-- Lower end of a bin: the widths before it, in 128ths of the step. -/
def edge (step widths : Nat) : Int := truncate32 (roundShift (widths * step) 7)

/-- Reconstruction point of a bin of some width, one more than the point before it at least. -/
def point (step : Nat) (edge before : Int) (width : Nat) (offset : UInt8) : Int :=
  max (edge + truncate32 (roundShift ((width - offset.toNat : Int) * step) 8)) (before + 1)

/-- Bins of a shape. Each bin lies between two knots; the last shaped one is a full step wide. -/
def ofShape (step : Nat) (s : BandShape) : NuqBins :=
  let e₁ := edge step s.knot₁.toNat
  let e₂ := edge step (s.knot₁.toNat + s.knot₂.toNat)
  let e₃ := edge step (s.knot₁.toNat + s.knot₂.toNat + s.knot₃.toNat)
  let p₁ := point step e₁ 0 s.knot₂.toNat s.offset
  let p₂ := point step e₂ p₁ s.knot₃.toNat s.offset
  let p₃ := point step e₃ p₂ 128 s.offset
  ⟨step, e₁, e₂, e₃, p₁, p₂, p₃⟩

/-- Magnitude of a coded magnitude, stopping at the largest 32-bit number. -/
def dequantize (b : NuqBins) : Nat → Int
  | 0 => 0
  | 1 => b.point₁
  | 2 => b.point₂
  | 3 => b.point₃
  | v + 4 => min (b.point₃ + (v + 1 : Nat) * b.step) max32

/-- Coded magnitude of a magnitude: the first bin whose upper end lies above it. -/
def quantize (b : NuqBins) (magnitude : Int) : Nat :=
  if magnitude < b.edge₁ then 0
  else if magnitude < b.edge₂ then 1
  else if magnitude < b.edge₃ then 2
  else 3 + ((magnitude - b.edge₃) / b.step).toNat

end NuqBins

end ResidualCodec
