/-
  ResidualCodec.Probability.Table

  The coefficient probabilities of a frame: for every slot the probabilities of
  the three decisions above the magnitude tree.
-/

import ResidualCodec.Probability.Slot

namespace ResidualCodec

/-- Probabilities of a slot, each that of a zero bit. -/
structure NodeProbs where
  -- No further coefficient is coded.
  endOfBlock : UInt8
  -- The coefficient is zero.
  zero : UInt8
  -- The coefficient has magnitude one, given that it is not zero. This is also the pivot that
  -- selects the probabilities of the magnitude tree.
  one : UInt8
  deriving DecidableEq

def NodeProbs.toList (p : NodeProbs) : List UInt8 := [p.endOfBlock, p.zero, p.one]

/-- Coefficient probabilities of a frame. -/
abbrev ProbTable := SlotTable NodeProbs

namespace ProbTable

/-! ## Defaults -/

/-- A default probability, moved into the range from 16 to 240. -/
def clampProb (x : Int) : UInt8 := UInt8.ofNat (max 16 (min 240 x)).toNat

/-- Default probabilities of a slot. The end of block grows likelier with the band and less likely
with the energy of the context; chroma and large transforms are sparser. -/
def standardProbs (s : Slot) : NodeProbs :=
  let t : Int := s.kind.size.index
  let p : Int := s.kind.plane.index
  let r : Int := s.kind.ref.index
  let b : Int := s.band.val
  let c : Int := s.ctx.val
  { endOfBlock := clampProb (96 + 24 * b - 40 * c + 16 * p + 8 * t + 8 * r)
    zero := clampProb (64 + 20 * b - 30 * c + 8 * p + 4 * t)
    one := clampProb (128 + 16 * b - 32 * c + 8 * p) }

def standard : ProbTable := .ofFn standardProbs

/-! ## Validation -/

/-- All probabilities, in order of the slots. -/
def toBytes (t : ProbTable) : List UInt8 := t.toList.flatMap NodeProbs.toList

/-- Whether no probability is zero. -/
def Valid (t : ProbTable) : Prop := ∀ p ∈ t.toBytes, p ≠ 0

instance (t : ProbTable) : Decidable t.Valid := inferInstanceAs (Decidable (∀ p ∈ _, _))

def validate (t : ProbTable) : Except Error Unit :=
  if t.Valid then .ok () else .error (.invalidInput "coefficient probabilities must be 1..=255")

end ProbTable

end ResidualCodec
