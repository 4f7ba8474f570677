/-
  ResidualCodec.Quant.Params

  Quantizer parameters of a frame, and the override that a segment may put on
  their index.
-/

import ResidualCodec.FixedPoint
import ResidualCodec.Quant.Steps

namespace ResidualCodec

/-- The number, moved to the nearest index of the step tables. -/
def clampIndex (x : Int) : QIndex := ⟨(max 0 (min x 255)).toNat, by omega⟩

/-- Quantizer parameters of a frame. The deltas move the index of one kind of coefficient. -/
structure QuantParams where
  base : QIndex := 0
  lumaDc : Int := 0
  chromaDc : Int := 0
  chromaAc : Int := 0
  deriving DecidableEq

namespace QuantParams

/-- Whether every kind of coefficient uses the same index. -/
def deltasZero (p : QuantParams) : Bool := p.lumaDc == 0 && p.chromaDc == 0 && p.chromaAc == 0

/-- Whether the frame is lossless as far as no segment overrides it. -/
def lossless (p : QuantParams) : Bool := p.base.val == 0 && p.deltasZero

end QuantParams

/-- What a segment does to the index of its frame. -/
inductive SegmentOverride where
  | keep
  | delta (value : Int)
  | absolute (value : Int)
  deriving DecidableEq

/-- Index of a segment, given the index of its frame. Values and their sums are 16-bit numbers, so a
delta within 255 of the largest one wraps to the other end of the range. -/
def SegmentOverride.apply (s : SegmentOverride) (base : QIndex) : QIndex :=
  match s with
  | .keep => base
  | .delta v => clampIndex (wrapTo 16 (base.val + v))
  | .absolute v => clampIndex v

end ResidualCodec
