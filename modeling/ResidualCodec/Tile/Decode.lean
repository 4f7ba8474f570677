/-
  ResidualCodec.Tile.Decode

  Decoding a tile. The first corrupt block ends it: the stream has nothing left
  for the blocks after it.
-/

import ResidualCodec.BoolCoder.Decoder
import ResidualCodec.Residual
import ResidualCodec.Tile.Contexts

namespace ResidualCodec

/-- A decoded tile. -/
structure DecodedTile where
  -- One entry for each block of the plan; `none` for a skipped one, and for those after a corrupt
  -- one.
  blocks : List (Option ResidualBlock)
  counts : CountTable
  -- Number of the corrupt block, and where it stopped.
  corruption : Option (Nat × Corruption)
  deriving DecidableEq

/-- The remaining blocks of a tile, decoded. -/
structure DecodedBlocks where
  blocks : List (Option ResidualBlock)
  contexts : PlaneContexts
  decoder : CoefDecoder
  -- Corrupt block, counted from the first of these.
  corruption : Option (Nat × Corruption)

/-- The blocks with one more in front. -/
def DecodedBlocks.cons (b : Option ResidualBlock) (rest : DecodedBlocks) : DecodedBlocks :=
  { rest with
    blocks := b :: rest.blocks
    corruption := rest.corruption.map fun (i, c) => (i + 1, c) }

def decodeBlocks {ρ : Type} [BoolReader ρ] (q : Dequantizer) : List TileBlock → PlaneContexts →
    CoefDecoder → ρ → Except Fault DecodedBlocks
  | [], cs, d, _ => .ok ⟨[], cs, d, none⟩
  | b :: rest, cs, d, r => do
    let ctx ← cs.initial b
    if b.skip then
      return (← decodeBlocks q rest (cs.skip b) d r).cons none
    let (block, d, r) ← d.decodeResidual (b.params q) ctx r
    let block ← block
    let cs := cs.update b (0 < block.coefs.eob)
    match block.coefs.corruption with
    | some c => return ⟨some block :: rest.map fun _ => none, cs, d, some (0, c)⟩
    | none => return (← decodeBlocks q rest cs d r).cons (some block)

/-- Decode a tile with the contexts that a worker carries; it carries on those of this tile. -/
def decodeTileWith (w : WorkerContexts) (p : TilePlan) (data : List UInt8) (probs : ProbTable)
    (q : Dequantizer) (frameParallel : Bool) : Except Fault (DecodedTile × WorkerContexts) := do
  let out ← decodeBlocks q p.blocks (w.start p) { probs, frameParallel } (BoolDecoder.start data)
  return (⟨out.blocks, out.decoder.counts, out.corruption⟩, some out.contexts)

def decodeTile (p : TilePlan) (data : List UInt8) (probs : ProbTable) (q : Dequantizer)
    (frameParallel : Bool) : Except Fault DecodedTile :=
  (decodeTileWith none p data probs q frameParallel).map (·.1)

end ResidualCodec
