/-
  ResidualCodec.Quant.Dequantizer

  The quantizer of a segment: what its parameters, override, bit depth and
  profile make of a coefficient, and what they make of a level. Everything else
  about it is computed from these four.
-/

import ResidualCodec.Quant.NonUniform
import ResidualCodec.Quant.Params
import ResidualCodec.Quant.Uniform

namespace ResidualCodec

/-- Steps of a plane: one for the DC coefficient, one for the others. -/
structure PlaneSteps where
  dc : Nat
  ac : Nat
  deriving DecidableEq

/-- Step of a band; band 0 holds the DC coefficient alone. -/
def PlaneSteps.ofBand (p : PlaneSteps) (b : Band) : Nat := if b = .dc then p.dc else p.ac

/-- The quantizer of a segment. -/
structure Dequantizer where
  params : QuantParams
  segment : SegmentOverride
  depth : BitDepth
  profile : Option NuqProfile

namespace Dequantizer

/-- The quantizer of a frame: no override, and equal steps. -/
def ofFrame (p : QuantParams) (d : BitDepth) : Dequantizer := ⟨p, .keep, d, none⟩

/-! ## Derived parameters -/

def index (q : Dequantizer) : QIndex := q.segment.apply q.params.base

def offset (q : Dequantizer) (delta : Int) : QIndex := clampIndex (q.index.val + delta)

def steps (q : Dequantizer) : PlaneType → PlaneSteps
  | .luma => ⟨dcStep q.depth (q.offset q.params.lumaDc), acStep q.depth q.index⟩
  | .chroma =>
    ⟨dcStep q.depth (q.offset q.params.chromaDc), acStep q.depth (q.offset q.params.chromaAc)⟩

/-- Whether blocks are coded without loss, by the lossless transform. -/
def lossless (q : Dequantizer) : Bool := q.index.val == 0 && q.params.deltasZero

/-- The profile in use; lossless coding keeps equal steps. -/
def shape? (q : Dequantizer) : Option NuqProfile := if q.lossless then none else q.profile

def shaped (q : Dequantizer) : Bool := q.shape?.isSome

/-- Bins of a band, if they are shaped. -/
def bins? (q : Dequantizer) (p : PlaneType) (b : Band) : Option NuqBins :=
  q.shape?.map fun profile => .ofShape ((q.steps p).ofBand b) profile.bands[b]

def coeffMax (q : Dequantizer) : Nat := (1 <<< (q.depth.coeffBits - 1)) - 1

/-! ## Levels and coefficients -/

/-- Coefficient of a level. Its magnitude stops at `coeffMax`, so that the sign survives. -/
def dequantize (q : Dequantizer) (p : PlaneType) (b : Band) (level : Int) (s : TransformSize) :
    Int :=
  let magnitude := match q.bins? p b with
    | some bins => bins.dequantize level.natAbs >>> s.dequantShift
    | none => min (Uniform.magnitude level ((q.steps p).ofBand b) s) max32
  withSign (min magnitude q.coeffMax) level

def quantize (q : Dequantizer) (p : PlaneType) (b : Band) (coeff : Int) (s : TransformSize) :
    Int :=
  match q.bins? p b with
  | some bins =>
    let scale : Nat := 1 <<< s.dequantShift
    withSign (bins.quantize (truncate32 (truncate32 coeff.natAbs * scale))) coeff
  | none => Uniform.quantize coeff ((q.steps p).ofBand b) s

/-- The band of a number. Equal steps tell band 0 from all others and no more; shapes exist for
six bands. -/
def bandAt (q : Dequantizer) (b : Nat) : Except Fault Band :=
  if h : b < 6 then .ok ⟨b, h⟩ else if q.shaped then .error .indexOutOfBounds else .ok .last

end Dequantizer

end ResidualCodec
