/-
  ResidualCodec.Coefficient.Decode

  Decoding the coefficients of a block from any reader. A block whose reader
  runs past its end is reported as corrupt, with what was decoded before.
-/

import ResidualCodec.Coefficient.Encode

namespace ResidualCodec

variable {ρ : Type} [BoolReader ρ]

/-! ## Symbols -/

/-- Outcome of reading a symbol. -/
inductive SymbolRead where
  | symbol (s : Symbol)
  -- The reader ran past its end; the token is known unless that was at the end of block.
  | exhausted (token : Option Token)

def readToken (probs : NodeProbs) (r : ρ) : Token × ρ :=
  let (larger, r) := BoolReader.read r probs.one
  if larger then
    let (leaf, r) := magnitudeTree.read (paretoProbs probs.one) r
    (Token.all.getD (leaf.getD 0) .zero, r)
  else (.one, r)

/-- Read what follows the question for the end of block. A zero looks at the end of the reader at
once, any other token after its sign. -/
def readCoefficient (probs : NodeProbs) (d : BitDepth) (b : Band) (c : Ctx) (checked : Bool)
    (r : ρ) : SymbolRead × ρ :=
  let (nonzero, r) := BoolReader.read r probs.zero
  if nonzero then
    let (token, r) := readToken probs r
    let (offset, r) := BoolReader.readExtra r (token.extraProbs d) 0
    let (negative, r) := BoolReader.readBit r
    if BoolReader.overrun r then (.exhausted (some token), r)
    else (.symbol ⟨b, c, checked, token, offset, negative⟩, r)
  else if BoolReader.overrun r then (.exhausted (some .zero), r)
  else (.symbol ⟨b, c, checked, .zero, 0, false⟩, r)

def readSymbol (probs : NodeProbs) (d : BitDepth) (b : Band) (c : Ctx) (checked : Bool) (r : ρ) :
    SymbolRead × ρ :=
  if checked then
    let (more, r) := BoolReader.read r probs.endOfBlock
    if BoolReader.overrun r then (.exhausted none, r)
    else if more then readCoefficient probs d b c checked r
    else (.symbol (.endOfBlock b c), r)
  else readCoefficient probs d b c checked r

/-! ## Runs -/

/-- A symbol that the reader ran past its end in. -/
structure BrokenSymbol where
  band : Band
  ctx : Ctx
  checked : Bool
  token : Option Token
  deriving DecidableEq

/-- Symbols read in a row. -/
structure SymbolRun (ρ : Type) where
  symbols : List Symbol
  broken : Option BrokenSymbol
  reader : ρ

namespace SymbolRun

def levels (run : SymbolRun ρ) : List Int := run.symbols.filterMap Symbol.level?

/-- What the symbols count. Of a broken symbol only the question for the end of block counts. -/
def events (run : SymbolRun ρ) : List CountEvent :=
  run.symbols.flatMap Symbol.events ++
    run.broken.toList.flatMap fun s => Symbol.checkEvents s.band s.ctx s.checked

end SymbolRun

/-- Read symbols over the remaining positions, up to the end of block or of the reader. -/
def readSymbols (probs : ProbTable) (p : BlockParams) (initial : Ctx) :
    List Position → (energies : Array Energy) → (checked : Bool) → ρ → SymbolRun ρ
  | [], _, _, r => ⟨[], none, r⟩
  | q :: qs, energies, checked, r =>
    let c := q.context initial energies
    match readSymbol (probs.get ⟨p.kind, q.band, c⟩) p.depth q.band c checked r with
    | (.exhausted token, r) => ⟨[], some ⟨q.band, c, checked, token⟩, r⟩
    | (.symbol s, r) =>
      if s.token = .endOfBlock then ⟨[s], none, r⟩
      else
        let run := readSymbols probs p initial qs
          (energies.setIfInBounds q.raster s.token.energy) (s.token != .zero) r
        { run with symbols := s :: run.symbols }

/-! ## Blocks -/

/-- Where a block stopped because its reader ran past the end. -/
structure Corruption where
  -- Scan index.
  position : Nat
  -- Token at that index, if it was begun.
  token : Option Token
  deriving DecidableEq

/-- A decoded block. -/
structure CoefBlock where
  -- Levels in raster order.
  levels : Array Int
  -- Dequantized coefficients in raster order.
  coeffs : Array Int
  -- Number of coded positions.
  eob : Nat
  corruption : Option Corruption
  deriving DecidableEq

def CoefBlock.ofRun (p : BlockParams) (run : SymbolRun ρ) : CoefBlock :=
  let ps := walk p.size p.type
  let xs := run.levels
  { levels := scatter p.size.coeffs ps xs
    coeffs := scatter p.size.coeffs ps <|
      List.zipWith (fun q x => p.dequant.dequantize p.kind.plane q.band x p.size) ps xs
    eob := xs.length
    corruption := run.broken.map fun s => ⟨xs.length, s.token⟩ }

def readBlock (probs : ProbTable) (p : BlockParams) (initial : Ctx) (r : ρ) : SymbolRun ρ :=
  readSymbols probs p initial (walk p.size p.type) (noEnergy p.size) true r

/-! ## Decoders -/

/-- A decoder: fixed probabilities and running counts. -/
structure CoefDecoder where
  probs : ProbTable
  -- Whether nothing is counted.
  frameParallel : Bool
  counts : CountTable := .empty

def CoefDecoder.decodeBlock (d : CoefDecoder) (p : BlockParams) (ctx : Nat) (r : ρ) :
    Except Fault (CoefBlock × CoefDecoder × ρ) := do
  let run := readBlock d.probs p (← checkCtx ctx) r
  let counts := if d.frameParallel then d.counts else d.counts.recordAll p.kind run.events
  return (.ofRun p run, { d with counts := counts }, run.reader)

end ResidualCodec
