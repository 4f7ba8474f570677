/-
  ResidualCodec.Probability.Cost

  What a decision costs, in 256ths of a bit.
-/

import ResidualCodec.BoolCoder.Decision

namespace ResidualCodec

/-- Information in an event of probability `p / 256`, in 256ths of a bit, rounded to nearest. It is
`2048 - 256 * log₂ p`, and half of `log₂ (2 * p ^ 512)`, rounded down, is the nearest integer to
`256 * log₂ p`. -/
def informationCost (p : Nat) : Nat := 2048 - Nat.log2 (2 * Nat.pow p 512) / 2

/-- Costs of all probabilities; zero counts as one. -/
def informationCosts : Array Nat :=
  ((List.range 256).map fun p => informationCost (max 1 p)).toArray

/-- Cost of a bit, given the probability of a zero. -/
def bitCost (bit : Bool) (prob : UInt8) : Nat :=
  if bit then informationCosts.getD (256 - max 1 prob.toNat) 0
  else informationCosts.getD prob.toNat 0

/-- Cost of a sequence of decisions. -/
def totalCost : List Decision → Nat
  | [] => 0
  | d :: ds => bitCost d.bit d.prob + totalCost ds

end ResidualCodec
