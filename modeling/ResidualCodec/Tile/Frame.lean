/-
  ResidualCodec.Tile.Frame

  Frames of several tiles. Tiles share nothing but the probabilities: each has
  its own stream, contexts and counts, and the counts are summed at the end.
-/

import ResidualCodec.Config
import ResidualCodec.Tile.Decode
import ResidualCodec.Tile.Encode
import ResidualCodec.Version

namespace ResidualCodec

/-! ## Workers -/

/-- Handle jobs one after the other, carrying contexts from each to the next. -/
def runWorker (job : WorkerContexts → α → Except Fault (β × WorkerContexts)) :
    WorkerContexts → List α → Except Fault (List β)
  | _, [] => .ok []
  | w, a :: rest => do
    let (b, w) ← job w a
    return b :: (← runWorker job w rest)

/-! ## Coders -/

/-- A tile to encode: its plan, and a residual for each block. -/
structure TileSource where
  plan : TilePlan
  residuals : List (Array Int)

/-- A tile to decode: its plan, and its stream. -/
structure TileStream where
  plan : TilePlan
  data : List UInt8

/-- Encoded tiles of a frame, and the sum of their counts. -/
structure EncodedFrame where
  tiles : List EncodedTile
  counts : CountTable

/-- Decoded tiles of a frame, and the sum of their counts. -/
structure DecodedFrame where
  tiles : List DecodedTile
  counts : CountTable

/-- A coder of frames, with valid settings. -/
structure TileCoder where
  config : Config

namespace TileCoder

def create (c : Config) : Except Error TileCoder := do
  c.validate
  return ⟨c⟩

/-- Number of worker threads: those of the settings, or else those of the shared pool. -/
def threads (t : TileCoder) (shared : SharedPool) : Nat :=
  if t.config.tileThreads = 0 then shared.workers.getD 1 else t.config.tileThreads

/-- A tile is encoded only under a valid plan and with a residual for each block. -/
def checkSource (q : Dequantizer) (s : TileSource) : Except Error Unit := do
  s.plan.validate q
  if s.residuals.length ≠ s.plan.blocks.length then
    throw (.invalidInput (toString s.residuals.length ++ " residuals for " ++
      toString s.plan.blocks.length ++ " blocks"))

/-- Encode the tiles of a frame, once all of them are checked. -/
def encode (t : TileCoder) (tiles : List TileSource) (probs : ProbTable) (q : Dequantizer) :
    Except Failure EncodedFrame := do
  orError (tiles.forM (checkSource q))
  let job (w : WorkerContexts) (s : TileSource) :=
    encodeTileWith w s.plan s.residuals probs q t.config.frameParallel
  let encoded ← orFault (runWorker job none tiles)
  return ⟨encoded, .sum (encoded.map (·.counts))⟩

/-- Decode the tiles of a frame, once all their plans are checked. -/
def decode (t : TileCoder) (tiles : List TileStream) (probs : ProbTable) (q : Dequantizer) :
    Except Failure DecodedFrame := do
  orError (tiles.forM fun s => s.plan.validate q)
  let job (w : WorkerContexts) (s : TileStream) :=
    decodeTileWith w s.plan s.data probs q t.config.frameParallel
  let decoded ← orFault (runWorker job none tiles)
  return ⟨decoded, .sum (decoded.map (·.counts))⟩

end TileCoder

end ResidualCodec
