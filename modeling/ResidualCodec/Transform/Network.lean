/-
  ResidualCodec.Transform.Network

  Fast transforms as data. A network is a sequence of stages, a stage a list of
  gates, and a gate a weighted sum of the values of the stage before. Weights
  are either plain integers or 14-bit cosines; a sum with cosine weights is
  rounded back to integers. One evaluator runs every network, so a law of the
  evaluator is a law of every transform.
-/

import ResidualCodec.FixedPoint

namespace ResidualCodec

/-! ## Constants -/

/-- Fractional bits of the cosine weights. -/
def cosineBits : Nat := 14

/-- `2 ^ 14 * cos (m * pi / 64)` to the nearest integer, for `m` from 0 to 32. -/
def cosineTable : List Int :=
  [16384, 16364, 16305, 16207, 16069, 15893, 15679, 15426, 15137, 14811, 14449, 14053, 13623,
   13160, 12665, 12140, 11585, 11003, 10394, 9760, 9102, 8423, 7723, 7005, 6270, 5520, 4756,
   3981, 3196, 2404, 1606, 804, 0]

/-- The 14-bit cosine of `m * pi / 64` in the first quadrant. -/
def cosine (m : Nat) : Int := cosineTable.getD m 0

/-! ## Gates -/

/-- A weighted sum: pairs of a weight and the index of the value that it weighs. -/
abbrev WeightedSum := List (Int × Nat)

namespace WeightedSum

/-- Value of the sum over the values of a stage. -/
def eval : WeightedSum → List Int → Int
  | [], _ => 0
  | (w, i) :: ts, xs => w * xs.getD i 0 + eval ts xs

def negate (ts : WeightedSum) : WeightedSum := ts.map fun t => (-t.1, t.2)

end WeightedSum

/-- One output of a stage. -/
inductive Gate where
  -- Integer weights.
  | sum (terms : WeightedSum)
  -- 14-bit weights; the result is rounded, ties away from zero.
  | turn (terms : WeightedSum)
  deriving DecidableEq

namespace Gate

/-- Output of the gate, kept in the range `r`. -/
def eval (r : ValueRange) (xs : List Int) : Gate → Int
  | .sum ts => r.wrap (ts.eval xs)
  | .turn ts => r.wrap (roundShift (ts.eval xs) cosineBits)

/-- Hand a value on. -/
def wire (i : Nat) : Gate := .sum [(1, i)]

def negate (i : Nat) : Gate := .sum [(-1, i)]

def add (i j : Nat) : Gate := .sum [(1, i), (1, j)]

def sub (i j : Nat) : Gate := .sum [(1, i), (-1, j)]

/-- Rounded combination `a * xᵢ + b * xⱼ` with 14-bit weights. -/
def rotate (a : Int) (i : Nat) (b : Int) (j : Nat) : Gate := .turn [(a, i), (b, j)]

end Gate

/-! ## Stages and networks -/

/-- The gates of a stage, one per output. -/
abbrev Stage := List Gate

def Stage.run (s : Stage) (r : ValueRange) (xs : List Int) : List Int := s.map (Gate.eval r xs)

/-- Stages in order of evaluation. -/
abbrev Network := List Stage

def Network.run (n : Network) (r : ValueRange) (xs : List Int) : List Int :=
  n.foldl (fun ys s => s.run r ys) xs

namespace Network

theorem run_cons (s : Stage) (n : Network) (r : ValueRange) (xs : List Int) :
    run (s :: n) r xs = run n r (s.run r xs) := rfl

end Network

/-! ## Kernels -/

/-- A one-dimensional transform of a fixed number of points. -/
structure Kernel where
  points : Nat
  network : ValueRange → List Int → List Int

namespace Kernel

/-- Transform the first `points` values; outputs are cut to their low 32 bits. -/
def run (k : Kernel) (r : ValueRange) (xs : List Int) : List Int :=
  (k.network r (xs.take k.points)).map truncate32

/-- Transform the front of a buffer, which must hold all the points. -/
def apply (k : Kernel) (r : ValueRange) (xs : List Int) : Except Fault (List Int) :=
  if k.points ≤ xs.length then .ok (k.run r xs) else .error .indexOutOfBounds

end Kernel

end ResidualCodec
