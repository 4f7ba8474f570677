/-
  ResidualCodec.Coefficient.Encode

  Coding the levels of a block: along the walk up to the last level different
  from zero, with one symbol a position and an end of block unless every
  position is coded.
-/

import ResidualCodec.Coefficient.Symbol
import ResidualCodec.Probability.Cost
import ResidualCodec.Scan

namespace ResidualCodec

/-! ## Symbols -/

/-- The list without the zeros at its end. -/
def trimZeros (xs : List Int) : List Int := (xs.reverse.dropWhile (· == 0)).reverse

/-- Symbols of the remaining levels, over the remaining positions. The end of block is asked for
except after a zero. -/
def symbolsFrom (d : BitDepth) (initial : Ctx) :
    List Position → (energies : Array Energy) → (checked : Bool) → List Int → List Symbol
  | [], _, _, _ => []
  | p :: _, energies, _, [] => [.endOfBlock p.band (p.context initial energies)]
  | p :: ps, energies, checked, x :: xs =>
    let s := Symbol.ofLevel d p.band (p.context initial energies) checked x
    s :: symbolsFrom d initial ps (energies.setIfInBounds p.raster s.token.energy)
      (s.token != .zero) xs

def noEnergy (s : TransformSize) : Array Energy := Array.replicate s.coeffs .none

/-- Levels of a block that are coded: along the walk, at most `bound` of them, up to the last one
different from zero. -/
def codedLevels (p : BlockParams) (levels : Array Int) (bound : Nat) : List Int :=
  trimZeros ((gather (walk p.size p.type) levels).take bound)

def symbols (p : BlockParams) (initial : Ctx) (xs : List Int) : List Symbol :=
  symbolsFrom p.depth initial (walk p.size p.type) (noEnergy p.size) true xs

/-! ## Blocks -/

/-- What is known about a coded block. -/
structure EncodeStats where
  -- Number of coded positions.
  eob : Nat
  -- Number of tokens, the end of block included.
  tokens : Nat
  -- Estimated size in 256ths of a bit.
  cost : Nat
  deriving DecidableEq

/-- A coded block. -/
structure EncodedCoefs where
  decisions : List Decision
  events : List CountEvent
  stats : EncodeStats

def encodeCoefs (probs : ProbTable) (p : BlockParams) (initial : Ctx) (levels : Array Int)
    (bound : Nat) : EncodedCoefs :=
  let xs := codedLevels p levels bound
  let ss := symbols p initial xs
  let ds := ss.flatMap fun s => s.decisions (probs.get ⟨p.kind, s.band, s.ctx⟩) p.depth
  { decisions := ds
    events := ss.flatMap Symbol.events
    stats := ⟨xs.length, ss.length, totalCost ds⟩ }

/-! ## Encoders -/

/-- The context of a block, given as a number. -/
def checkCtx (ctx : Nat) : Except Fault Ctx :=
  if h : ctx < 3 then .ok ⟨ctx, h⟩ else .error .indexOutOfBounds

/-- An encoder: fixed probabilities and running counts. -/
structure CoefEncoder where
  probs : ProbTable
  -- Whether nothing is counted.
  frameParallel : Bool
  counts : CountTable := .empty

namespace CoefEncoder

/-- Estimate a block without writing or counting it. -/
def estimate (e : CoefEncoder) (p : BlockParams) (ctx : Nat) (levels : Array Int) (bound : Nat) :
    Except Fault EncodedCoefs := do
  if levels.size ≠ p.size.coeffs then throw .levelCount
  return encodeCoefs e.probs p (← checkCtx ctx) levels bound

/-- Code a block; the decisions are left to the caller to write. -/
def encodeBlock (e : CoefEncoder) (p : BlockParams) (ctx : Nat) (levels : Array Int)
    (bound : Nat) : Except Fault (EncodedCoefs × CoefEncoder) := do
  let coded ← e.estimate p ctx levels bound
  if e.frameParallel then return (coded, e)
  return (coded, { e with counts := e.counts.recordAll p.kind coded.events })

end CoefEncoder

end ResidualCodec
