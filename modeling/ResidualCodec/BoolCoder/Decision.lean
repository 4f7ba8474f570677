/-
  ResidualCodec.BoolCoder.Decision

  Binary decisions and the readers that answer them. The probability of a
  decision is that of its zero, in 256ths. Readers are left abstract: the
  coefficient decoder runs over any of them.
-/

namespace ResidualCodec

/-- One binary decision: the bit, and the probability with which a zero was expected. -/
structure Decision where
  bit : Bool
  prob : UInt8
  deriving DecidableEq

namespace Decision

/-- Probability of an equiprobable bit. -/
def evenOdds : UInt8 := 128

/-- An equiprobable bit. -/
def even (bit : Bool) : Decision := ⟨bit, evenOdds⟩

/-- The lowest `n` bits of a number as equiprobable bits, most significant first. -/
def literal (value : Nat) : (n : Nat) → List Decision
  | 0 => []
  | n + 1 => even (value.testBit n) :: literal value n

/-- The lowest bits of a number, most significant first, each with a probability of its own. -/
def extra (value : Nat) : List UInt8 → List Decision
  | [] => []
  | p :: ps => ⟨value.testBit ps.length, p⟩ :: extra value ps

end Decision

/-- Part of a range of `range` values that a zero of probability `prob` takes: at least one value,
and never all of them. -/
def splitRange (range : Nat) (prob : UInt8) : Nat := 1 + (range - 1) * prob.toNat / 256

/-- Least range between two decisions. -/
def minRange : Nat := 128

/-! ## Readers -/

/-- A source of decisions. -/
class BoolReader (ρ : Type) where
  -- The next decision, given the probability of a zero.
  read : ρ → UInt8 → Bool × ρ
  -- Whether decisions have been asked for past the end of the source.
  overrun : ρ → Bool

namespace BoolReader

variable {ρ : Type} [BoolReader ρ]

def readBit (r : ρ) : Bool × ρ := read r Decision.evenOdds

/-- The next bits as a number, most significant first, of which the low 32 bits are kept. -/
def readLiteral (r : ρ) : (n : Nat) → (acc : Nat) → Nat × ρ
  | 0, acc => (acc, r)
  | n + 1, acc =>
    let (bit, r) := readBit r
    readLiteral r n ((2 * acc + bit.toNat) % 0x100000000)

/-- The next bits with a probability each, appended to a number. -/
def readExtra (r : ρ) : (probs : List UInt8) → (acc : Nat) → Nat × ρ
  | [], acc => (acc, r)
  | p :: ps, acc =>
    let (bit, r) := read r p
    readExtra r ps (2 * acc + bit.toNat)

end BoolReader

/-! ## Scripts -/

/-- A reader that answers from a list, whatever the probabilities, and zero past its end. It
remembers how many answers it took from the list and which probabilities it was asked with. -/
structure Script where
  rest : List Bool
  taken : Nat := 0
  exhausted : Bool := false
  -- Probabilities asked with, latest first.
  asked : List UInt8 := []

instance : BoolReader Script where
  read s p :=
    match s.rest with
    | b :: rest => (b, { s with rest := rest, taken := s.taken + 1, asked := p :: s.asked })
    | [] => (false, { s with exhausted := true, asked := p :: s.asked })
  overrun s := s.exhausted

end ResidualCodec
