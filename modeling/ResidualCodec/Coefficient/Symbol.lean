/-
  ResidualCodec.Coefficient.Symbol

  A coded coefficient, half way between its level and its decisions. Encoder and
  decoder meet here: the encoder turns levels into symbols and symbols into
  decisions, and the decoder goes the other way.
-/

import ResidualCodec.Counts
import ResidualCodec.Probability.Pareto
import ResidualCodec.Quant.Dequantizer
import ResidualCodec.Token.Tree

namespace ResidualCodec

/-- How a block is coded. -/
structure BlockParams where
  kind : BlockKind
  type : TransformType
  dequant : Dequantizer

namespace BlockParams

def size (p : BlockParams) : TransformSize := p.kind.size

def depth (p : BlockParams) : BitDepth := p.dequant.depth

end BlockParams

/-! ## Symbols -/

/-- What is coded at a scan position. -/
structure Symbol where
  band : Band
  ctx : Ctx
  -- Whether the end of block is asked for here; not after a zero.
  checked : Bool
  token : Token
  -- Offset of the magnitude inside the category of the token.
  offset : Nat
  negative : Bool
  deriving DecidableEq

namespace Symbol

def endOfBlock (b : Band) (c : Ctx) : Symbol := ⟨b, c, true, .endOfBlock, 0, false⟩

/-- The symbol of a level, whose magnitude stops at the largest that can be coded. -/
def ofLevel (d : BitDepth) (b : Band) (c : Ctx) (checked : Bool) (level : Int) : Symbol :=
  let magnitude := min level.natAbs (maxMagnitude d)
  let token := Token.ofMagnitude magnitude
  ⟨b, c, checked, token, magnitude - token.base, level < 0⟩

/-- Level of the symbol, which has none at the end of a block. -/
def level? (s : Symbol) : Option Int :=
  if s.token = .endOfBlock then none
  else
    let magnitude : Int := s.token.base + s.offset
    some (if s.negative then -magnitude else magnitude)

/-! ## Decisions -/

/-- Decisions that select a token different from zero. -/
def tokenDecisions (probs : NodeProbs) (token : Token) : List Decision :=
  if token = .one then [⟨false, probs.one⟩]
  else
    let path := magnitudeTree.path (paretoProbs probs.one) token.index
    ⟨true, probs.one⟩ :: path.toOption.getD []

def decisions (probs : NodeProbs) (d : BitDepth) (s : Symbol) : List Decision :=
  if s.token = .endOfBlock then [⟨false, probs.endOfBlock⟩]
  else
    let more := if s.checked then [⟨true, probs.endOfBlock⟩] else []
    if s.token = .zero then more ++ [⟨false, probs.zero⟩]
    else
      more ++ ⟨true, probs.zero⟩ :: tokenDecisions probs s.token ++
        Decision.extra s.offset (s.token.extraProbs d) ++ [.even s.negative]

/-! ## Counting -/

/-- The question for the end of block, where there is one. -/
def checkEvents (b : Band) (c : Ctx) (checked : Bool) : List CountEvent :=
  if checked then [.check b c] else []

def events (s : Symbol) : List CountEvent :=
  checkEvents s.band s.ctx s.checked ++ [.token s.band s.ctx s.token.bin]

end Symbol

end ResidualCodec
