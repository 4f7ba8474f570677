/-
  ResidualCodec.Counts

  Counts of coded tokens, from which a later frame may adapt its probabilities.
-/

import ResidualCodec.Probability.Table
import ResidualCodec.Token.Basic

namespace ResidualCodec

/-! ## Counters -/

/-- Counters of a slot. They wrap at 32 bits. -/
structure Tally where
  zero : UInt32 := 0
  one : UInt32 := 0
  twoOrMore : UInt32 := 0
  endOfBlock : UInt32 := 0
  -- How often the end of block was asked for.
  checks : UInt32 := 0
  deriving DecidableEq

namespace Tally

def count (t : Tally) : CountBin → Tally
  | .zero => { t with zero := t.zero + 1 }
  | .one => { t with one := t.one + 1 }
  | .twoOrMore => { t with twoOrMore := t.twoOrMore + 1 }
  | .endOfBlock => { t with endOfBlock := t.endOfBlock + 1 }

/-- Count a question for the end of block. -/
def check (t : Tally) : Tally := { t with checks := t.checks + 1 }

def add (t u : Tally) : Tally :=
  { zero := t.zero + u.zero
    one := t.one + u.one
    twoOrMore := t.twoOrMore + u.twoOrMore
    endOfBlock := t.endOfBlock + u.endOfBlock
    checks := t.checks + u.checks }

def tokens (t : Tally) : Nat :=
  t.zero.toNat + t.one.toNat + t.twoOrMore.toNat + t.endOfBlock.toNat

end Tally

/-! ## Tables -/

/-- Something to count. -/
inductive CountEvent where
  | check (band : Band) (ctx : Ctx)
  | token (band : Band) (ctx : Ctx) (bin : CountBin)
  deriving DecidableEq

/-- Counters of a frame, a tile or a worker. -/
abbrev CountTable := SlotTable Tally

namespace CountTable

/-- Nothing counted. -/
def empty : CountTable := .replicate {}

/-- Count an event of a block of some kind. -/
def record (t : CountTable) (k : BlockKind) : CountEvent → CountTable
  | .check b c => t.modify ⟨k, b, c⟩ Tally.check
  | .token b c bin => t.modify ⟨k, b, c⟩ (·.count bin)

def recordAll (t : CountTable) (k : BlockKind) (es : List CountEvent) : CountTable :=
  es.foldl (fun t e => t.record k e) t

def merge (t u : CountTable) : CountTable := t.zipWith Tally.add u

def sum (ts : List CountTable) : CountTable := ts.foldl merge empty

def total (t : CountTable) : Nat := t.sumOf Tally.tokens

/-- Number of questions for the end of block. -/
def totalChecks (t : CountTable) : Nat := t.sumOf fun x => x.checks.toNat

end CountTable

/-! ## Adaptation -/

/-- A rule that derives the probabilities of the next frame from those of this one and its
counts. -/
structure Adapter where
  adapt : ProbTable → CountTable → ProbTable

/-- The rule that keeps the probabilities. -/
def Adapter.identity : Adapter := ⟨fun probs _ => probs⟩

end ResidualCodec
