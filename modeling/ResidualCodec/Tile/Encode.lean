/-
  ResidualCodec.Tile.Encode

  Encoding a tile: its blocks in order, into one stream.
-/

import ResidualCodec.BoolCoder.Encoder
import ResidualCodec.Residual
import ResidualCodec.Tile.Contexts

namespace ResidualCodec

/-- An encoded tile. -/
structure EncodedTile where
  data : List UInt8
  -- One entry for each block of the plan; `none` for a skipped one.
  blocks : List (Option EncodedBlock)
  counts : CountTable

namespace EncodedTile

def coded (t : EncodedTile) : List EncodedBlock := t.blocks.filterMap id

def cost (t : EncodedTile) : Nat := t.coded.foldr (fun b n => b.coded.stats.cost + n) 0

end EncodedTile

/-- Encode the remaining blocks of a tile, each with its residual. -/
def encodeBlocks (q : Dequantizer) : List (TileBlock × Array Int) → PlaneContexts → CoefEncoder →
    BoolEncoder →
    Except Fault (List (Option EncodedBlock) × PlaneContexts × CoefEncoder × BoolEncoder)
  | [], cs, e, w => .ok ([], cs, e, w)
  | (b, residual) :: rest, cs, e, w => do
    let ctx ← cs.initial b
    if b.skip then
      let (coded, cs, e, w) ← encodeBlocks q rest (cs.skip b) e w
      return (none :: coded, cs, e, w)
    let (block, e) ← e.encodeResidual (b.params q) ctx residual
    let w := w.writeAll block.coded.decisions
    let cs := cs.update b (0 < block.coded.stats.eob)
    let (coded, cs, e, w) ← encodeBlocks q rest cs e w
    return (some block :: coded, cs, e, w)

/-- Encode a tile with the contexts that a worker carries; it carries on those of this tile. Each
block of the plan needs a residual, which is passed over where the block is skipped. -/
def encodeTileWith (w : WorkerContexts) (p : TilePlan) (residuals : List (Array Int))
    (probs : ProbTable) (q : Dequantizer) (frameParallel : Bool) :
    Except Fault (EncodedTile × WorkerContexts) := do
  if residuals.length ≠ p.blocks.length then throw .residualCount
  let (blocks, cs, e, stream) ←
    encodeBlocks q (p.blocks.zip residuals) (w.start p) { probs, frameParallel } {}
  return (⟨stream.finish, blocks, e.counts⟩, some cs)

def encodeTile (p : TilePlan) (residuals : List (Array Int)) (probs : ProbTable) (q : Dequantizer)
    (frameParallel : Bool) : Except Fault EncodedTile :=
  (encodeTileWith none p residuals probs q frameParallel).map (·.1)

end ResidualCodec
