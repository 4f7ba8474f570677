/-
  ResidualCodec.Probability.Pareto

  Probabilities of the magnitudes above one, from a Pareto model of shape eight.
  The pivot, the probability of magnitude one, fixes the scale of the model; the
  probabilities of the eight nodes of the magnitude tree follow from the
  survival function. All arithmetic is exact up to the last of many bits, far
  below the rounding to 256ths.
-/

namespace ResidualCodec

namespace Pareto

/-! ## The model -/

/-- Fractional bits of the root and of the survival function. -/
def precision : Nat := 96

/-- The number one in units of `2 ^ -precision`. -/
def unit : Nat := 1 <<< precision

/-- Eighth power of a number. -/
def eighthPower (n : Nat) : Nat :=
  let n₂ := n * n
  let n₄ := n₂ * n₂
  n₄ * n₄

/-- Largest number whose eighth power is at most `n`, found bit by bit from bit `bits - 1` down. -/
def eighthRoot (n : Nat) (bits : Nat) : Nat :=
  (List.range bits).foldr (fun b r =>
    let next := r + (1 <<< b)
    if eighthPower next ≤ n then next else r) 0

/-- Eighth root of the probability `1 - pivot / 256`, in units of `2 ^ -precision`. -/
def root (pivot : Nat) : Nat :=
  eighthRoot ((256 - pivot) * (eighthPower unit / 256)) precision

/-- Probability of a magnitude of `x` or more, up to a factor that does not depend on `x`, in units
of `2 ^ -precision`. With the root `r`, the scale of the model is `r / (1 - r)` and the survival
function is the eighth power of `scale / (scale + x - 1)`. -/
def survival (r x : Nat) : Nat :=
  eighthPower r * unit / eighthPower (r + (x - 1) * (unit - r))

/-- The fraction `num / den` in 256ths, rounded to nearest and kept from 1 to 255. -/
def prob (num den : Nat) : UInt8 :=
  UInt8.ofNat (max 1 (min 255 ((512 * num + den) / (2 * den))))

/-- Probabilities of the eight nodes, for an odd pivot. Each is the share of the zero side of the
node: the magnitudes that it holds, out of those that reach the node. -/
def row (pivot : Nat) : List UInt8 :=
  let s := survival (root pivot)
  [prob (s 2 - s 5) (s 2),
   prob (s 2 - s 3) (s 2 - s 5),
   prob (s 3 - s 4) (s 3 - s 5),
   prob (s 5 - s 11) (s 5),
   prob (s 5 - s 7) (s 5 - s 11),
   prob (s 11 - s 35) (s 11),
   prob (s 11 - s 19) (s 11 - s 35),
   prob (s 35 - s 67) (s 35)]

/-! ## The table -/

/-- The mean of two probabilities, rounded up. -/
def mean (a b : UInt8) : UInt8 := UInt8.ofNat ((a.toNat + b.toNat + 1) / 2)

/-- Rows of the odd pivots. -/
def oddRows : Array (List UInt8) := ((List.range 128).map fun i => row (2 * i + 1)).toArray

/-- Row of a pivot: an even pivot takes the mean of the odd pivots beside it, and zero counts as
one. -/
def rowOf (pivot : Nat) : List UInt8 :=
  if pivot = 0 then oddRows.getD 0 []
  else if pivot % 2 = 1 then oddRows.getD (pivot / 2) []
  else List.zipWith mean (oddRows.getD (pivot / 2 - 1) []) (oddRows.getD (pivot / 2) [])

/-- Rows of all pivots. -/
def rows : Array (List UInt8) := ((List.range 256).map rowOf).toArray

end Pareto

/-- Probabilities of the nodes of the magnitude tree, given the pivot. -/
def paretoProbs (pivot : UInt8) : List UInt8 := Pareto.rows.getD pivot.toNat []

end ResidualCodec
