/-
  ResidualCodec.Transform.Adst

  Asymmetric sine transforms of 4, 8 and 16 points. The matrices of the larger
  two are symmetric, so one network serves both directions; the four-point
  network and its transpose are separate.
-/

import ResidualCodec.Transform.Network

namespace ResidualCodec

open Gate

/-! ## Four points -/

/-- `2 ^ 14 * 2 * sqrt 2 / 3 * sin (k * pi / 9)` to the nearest integer, for `k` from 1 to 4. -/
def sine (k : Nat) : Int := [0, 5283, 9929, 13377, 15212].getD k 0

def inverseAdst4 : Network :=
  [[.turn [(sine 1, 0), (sine 3, 1), (sine 4, 2), (sine 2, 3)],
    .turn [(sine 2, 0), (sine 3, 1), (-sine 1, 2), (-sine 4, 3)],
    .turn [(sine 3, 0), (-sine 3, 2), (sine 3, 3)],
    .turn [(sine 1 + sine 2, 0), (-sine 3, 1), (sine 4 - sine 1, 2), (sine 2 - sine 4, 3)]]]

/-- Four-point forward transform, the transpose of the inverse. -/
def forwardAdst4 : Network :=
  [[.turn [(sine 1, 0), (sine 2, 1), (sine 3, 2), (sine 4, 3)],
    .turn [(sine 3, 0), (sine 3, 1), (-sine 3, 3)],
    .turn [(sine 4, 0), (-sine 1, 1), (-sine 3, 2), (sine 2, 3)],
    .turn [(sine 4 - sine 1, 0), (-sine 1 - sine 2, 1), (sine 3, 2), (sine 2 - sine 4, 3)]]]

/-! ## Eight and sixteen points -/

/-- The two outputs of a rotation by a 14-bit angle, not yet rounded: `a * xᵢ + b * xⱼ` and
`b * xᵢ - a * xⱼ`. -/
def rotation (a b : Int) (i j : Nat) : List WeightedSum := [[(a, i), (b, j)], [(b, i), (-a, j)]]

/-- The same two outputs in the other order, the difference with its sign changed:
`-b * xᵢ + a * xⱼ` and `a * xᵢ + b * xⱼ`. -/
def reflection (a b : Int) (i j : Nat) : List WeightedSum := [[(-b, i), (a, j)], [(a, i), (b, j)]]

/-- Rounded sums, then rounded differences, of two lists of unrounded rotations. -/
def turnButterfly (us vs : List WeightedSum) : List Gate :=
  List.zipWith (fun u v => .turn (u ++ v)) us vs ++
    List.zipWith (fun u v => .turn (u ++ v.negate)) us vs

/-- Sums, then differences, of the `n` values from `i` on and the `n` values after them. -/
def butterfly (n i : Nat) : List Gate :=
  ((List.range n).map fun k => add (i + k) (i + n + k)) ++
    (List.range n).map fun k => sub (i + k) (i + n + k)

def adst8 : Network :=
  [turnButterfly
     (rotation (cosine 2) (cosine 30) 7 0 ++ rotation (cosine 10) (cosine 22) 5 2)
     (rotation (cosine 18) (cosine 14) 3 4 ++ rotation (cosine 26) (cosine 6) 1 6),
   butterfly 2 0 ++
     turnButterfly (rotation (cosine 8) (cosine 24) 4 5) (reflection (cosine 8) (cosine 24) 6 7),
   [wire 0, wire 1, rotate (cosine 16) 2 (cosine 16) 3, rotate (cosine 16) 2 (-cosine 16) 3,
    wire 4, wire 5, rotate (cosine 16) 6 (cosine 16) 7, rotate (cosine 16) 6 (-cosine 16) 7],
   [wire 0, negate 4, wire 6, negate 2, wire 3, negate 7, wire 5, negate 1]]

def adst16 : Network :=
  [turnButterfly
     (rotation (cosine 1) (cosine 31) 15 0 ++ rotation (cosine 5) (cosine 27) 13 2 ++
       rotation (cosine 9) (cosine 23) 11 4 ++ rotation (cosine 13) (cosine 19) 9 6)
     (rotation (cosine 17) (cosine 15) 7 8 ++ rotation (cosine 21) (cosine 11) 5 10 ++
       rotation (cosine 25) (cosine 7) 3 12 ++ rotation (cosine 29) (cosine 3) 1 14),
   butterfly 4 0 ++
     turnButterfly
       (rotation (cosine 4) (cosine 28) 8 9 ++ rotation (cosine 20) (cosine 12) 10 11)
       (reflection (cosine 4) (cosine 28) 12 13 ++ reflection (cosine 20) (cosine 12) 14 15),
   butterfly 2 0 ++
     turnButterfly (rotation (cosine 8) (cosine 24) 4 5) (reflection (cosine 8) (cosine 24) 6 7) ++
     butterfly 2 8 ++
     turnButterfly (rotation (cosine 8) (cosine 24) 12 13)
       (reflection (cosine 8) (cosine 24) 14 15),
   [wire 0, wire 1, rotate (-cosine 16) 2 (-cosine 16) 3, rotate (cosine 16) 2 (-cosine 16) 3,
    wire 4, wire 5, rotate (cosine 16) 6 (cosine 16) 7, rotate (cosine 16) 7 (-cosine 16) 6,
    wire 8, wire 9, rotate (cosine 16) 10 (cosine 16) 11, rotate (cosine 16) 11 (-cosine 16) 10,
    wire 12, wire 13, rotate (-cosine 16) 14 (-cosine 16) 15,
    rotate (cosine 16) 14 (-cosine 16) 15],
   [wire 0, negate 8, wire 12, negate 4, wire 6, wire 14, wire 10, wire 2,
    wire 3, wire 11, wire 15, wire 7, wire 5, negate 13, wire 9, negate 1]]

namespace Kernel

def inverseAdst4 : Kernel := ⟨4, ResidualCodec.inverseAdst4.run⟩

/-- Four-point forward sine transform; it keeps no range. -/
def forwardAdst4 : Kernel := ⟨4, fun _ => ResidualCodec.forwardAdst4.run .unbounded⟩

def adst8 : Kernel := ⟨8, ResidualCodec.adst8.run⟩

def adst16 : Kernel := ⟨16, ResidualCodec.adst16.run⟩

end Kernel

end ResidualCodec
