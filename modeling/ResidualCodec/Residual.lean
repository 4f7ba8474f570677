/-
  ResidualCodec.Residual

  From residual samples to a coded block and back: transform, quantize and code;
  decode, dequantize and transform. Lossless blocks use the 4x4 lossless
  transform, all others the transform of their size and type.
-/

import ResidualCodec.Coefficient.Decode
import ResidualCodec.Transform.Hadamard

namespace ResidualCodec

/-- Lossless blocks are 4x4. -/
def checkLossless (p : BlockParams) : Except Fault Unit :=
  if p.size = .s4 then .ok () else .error (.losslessSize p.size)

def zeroBlock (s : TransformSize) : Array Int := Array.replicate s.coeffs 0

/-! ## Encoding -/

def transformResidual (p : BlockParams) (residual : Array Int) : Except Fault (Array Int) :=
  if p.dequant.lossless then do
    checkLossless p
    forwardHadamard residual (zeroBlock p.size)
  else forwardTransform p.size p.type residual (zeroBlock p.size)

/-- Levels of the coefficients of a block, each quantized in the band of its position. -/
def quantizeLevels (p : BlockParams) (coeffs : Array Int) : Array Int :=
  let ps := walk p.size p.type
  scatter p.size.coeffs ps <| ps.map fun q =>
    p.dequant.quantize p.kind.plane q.band (coeffs.getD q.raster 0) p.size

/-- Levels of a buffer that must hold all coefficients of the block. -/
def quantizeBlock (p : BlockParams) (coeffs : Array Int) : Except Fault (Array Int) :=
  if coeffs.size < p.size.coeffs then .error .indexOutOfBounds else .ok (quantizeLevels p coeffs)

/-- An encoded residual. -/
structure EncodedBlock where
  -- Levels in raster order.
  levels : Array Int
  coded : EncodedCoefs

/-- Transform, quantize and code a residual; the decisions are left to the caller to write. -/
def CoefEncoder.encodeResidual (e : CoefEncoder) (p : BlockParams) (ctx : Nat)
    (residual : Array Int) : Except Fault (EncodedBlock × CoefEncoder) := do
  let levels := quantizeLevels p (← transformResidual p residual)
  let (coded, e) ← e.encodeBlock p ctx levels p.size.coeffs
  return (⟨levels, coded⟩, e)

/-! ## Decoding -/

/-- A decoded residual. -/
structure ResidualBlock where
  coefs : CoefBlock
  -- Samples in raster order.
  residual : Array Int
  deriving DecidableEq

/-- Residual samples of decoded coefficients. A corrupt block gives those of the coefficients that
were decoded. -/
def CoefBlock.reconstruct (c : CoefBlock) (p : BlockParams) : Except Fault (Array Int) :=
  if p.dequant.lossless then do
    checkLossless p
    inverseHadamard c.coeffs (zeroBlock p.size) c.eob
  else inverseTransform p.size p.type c.coeffs (zeroBlock p.size) c.eob p.depth

/-- Decode a block and reconstruct its residual. Once the block is read, the decoder and the reader
have moved on even if there is no residual to give. -/
def CoefDecoder.decodeResidual {ρ : Type} [BoolReader ρ] (d : CoefDecoder) (p : BlockParams)
    (ctx : Nat) (r : ρ) : Except Fault (Except Fault ResidualBlock × CoefDecoder × ρ) := do
  let (c, d, r) ← d.decodeBlock p ctx r
  return ((c.reconstruct p).map fun residual => ⟨c, residual⟩, d, r)

end ResidualCodec
