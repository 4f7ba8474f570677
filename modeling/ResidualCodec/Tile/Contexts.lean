/-
  ResidualCodec.Tile.Contexts

  The entropy contexts of the planes of a tile. A worker keeps them from one
  tile to the next and only clears them where the planes have the same extents.
-/

import ResidualCodec.EntropyContext
import ResidualCodec.Tile.Plan

namespace ResidualCodec

/-- Entropy contexts of three planes. -/
abbrev PlaneContexts := Vector EntropyContext 3

/-- What a worker carries from tile to tile: the contexts of its last tile, if it had one. -/
abbrev WorkerContexts := Option PlaneContexts

namespace PlaneContexts

def create (p : TilePlan) : PlaneContexts := p.planes.map fun e => .create e.cols e.rows

/-- Whether the contexts have the extents of a plan. -/
def fits (cs : PlaneContexts) (p : TilePlan) : Bool :=
  (cs.zip p.planes).all fun (c, e) => c.cols == e.cols && c.rows == e.rows

/-- Context of the first token of a block; the plane must exist. -/
def initial (cs : PlaneContexts) (b : TileBlock) : Except Fault Ctx :=
  match cs[b.plane]? with
  | some c => .ok (c.initial b.col b.row b.size)
  | none => .error .indexOutOfBounds

def update (cs : PlaneContexts) (b : TileBlock) (nonzero : Bool) : PlaneContexts :=
  if h : b.plane < 3 then cs.set b.plane (cs[b.plane].update b.col b.row b.size nonzero) else cs

def skip (cs : PlaneContexts) (b : TileBlock) : PlaneContexts :=
  if h : b.plane < 3 then
    cs.set b.plane (cs[b.plane].clear b.col b.row b.size.units b.size.units)
  else cs

end PlaneContexts

/-- Contexts at the start of a tile: those of the last tile, cleared, where they fit. -/
def WorkerContexts.start (w : WorkerContexts) (p : TilePlan) : PlaneContexts :=
  match w with
  | some cs => if cs.fits p then cs.map EntropyContext.reset else .create p
  | none => .create p

end ResidualCodec
