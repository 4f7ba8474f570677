/-
  ResidualCodec.Transform.Dct

  Cosine transforms of 4, 8, 16 and 32 points. Each size is built from the one
  of half its points: the even frequencies are a cosine transform of half the
  size, and a rotation network handles the odd ones.
-/

import ResidualCodec.Transform.Network

namespace ResidualCodec

/-! ## Splitting and joining -/

/-- Entries at even positions. -/
def evens : List α → List α
  | a :: _ :: t => a :: evens t
  | short => short

/-- Entries at odd positions. -/
def odds : List α → List α
  | _ :: b :: t => b :: odds t
  | _ => []

/-- Entries of the two lists in turn, starting with the first. -/
def interleave : List α → List α → List α
  | a :: s, b :: t => a :: b :: interleave s t
  | s, [] => s
  | [], t => t

/-- The entries that lie symmetrically, joined from the outside in; the low 32 bits are kept. -/
def foldWith (join : Int → Int → Int) (n : Nat) (xs : List Int) : List Int :=
  (List.zipWith (fun x y => truncate32 (join x y)) xs xs.reverse).take n

/-- Sums of the entries that lie symmetrically. -/
def foldSums (n : Nat) (xs : List Int) : List Int := foldWith (· + ·) n xs

/-- Differences of the entries that lie symmetrically. -/
def foldDifferences (n : Nat) (xs : List Int) : List Int := foldWith (· - ·) n xs

/-- Sums of the two halves, then their differences in reverse: undoes a folding. -/
def unfold (r : ValueRange) (es os : List Int) : List Int :=
  List.zipWith (fun e o => r.wrap (e + o)) es os ++
    (List.zipWith (fun e o => r.wrap (e - o)) es os).reverse

/-! ## Networks -/

open Gate

/-- The two-point transform, its own inverse up to scale. -/
def dctPair : Network :=
  [[rotate (cosine 16) 0 (cosine 16) 1, rotate (cosine 16) 0 (-cosine 16) 1]]

/-- Odd half of the four-point transforms, in both directions. -/
def dctOdd2 : Network :=
  [[rotate (cosine 8) 0 (cosine 24) 1, rotate (cosine 24) 0 (-cosine 8) 1]]

def inverseDctOdd4 : Network :=
  [[rotate (cosine 28) 0 (-cosine 4) 3, rotate (cosine 12) 2 (-cosine 20) 1,
    rotate (cosine 20) 2 (cosine 12) 1, rotate (cosine 4) 0 (cosine 28) 3],
   [add 0 1, sub 0 1, sub 3 2, add 2 3],
   [wire 3, rotate (cosine 16) 1 (cosine 16) 2, rotate (cosine 16) 2 (-cosine 16) 1, wire 0]]

def forwardDctOdd4 : Network :=
  [[wire 0, rotate (cosine 16) 1 (-cosine 16) 2, rotate (cosine 16) 1 (cosine 16) 2, wire 3],
   [add 3 1, sub 3 1, sub 0 2, add 0 2],
   [rotate (cosine 28) 0 (cosine 4) 3, rotate (cosine 12) 2 (-cosine 20) 1,
    rotate (cosine 12) 1 (cosine 20) 2, rotate (cosine 28) 3 (-cosine 4) 0]]

def inverseDctOdd8 : Network :=
  [[rotate (cosine 30) 0 (-cosine 2) 7, rotate (cosine 14) 4 (-cosine 18) 3,
    rotate (cosine 22) 2 (-cosine 10) 5, rotate (cosine 6) 6 (-cosine 26) 1,
    rotate (cosine 26) 6 (cosine 6) 1, rotate (cosine 10) 2 (cosine 22) 5,
    rotate (cosine 18) 4 (cosine 14) 3, rotate (cosine 2) 0 (cosine 30) 7],
   [add 0 1, sub 0 1, sub 3 2, add 2 3, add 4 5, sub 4 5, sub 7 6, add 6 7],
   [wire 0, rotate (-cosine 8) 1 (cosine 24) 6, rotate (-cosine 24) 2 (-cosine 8) 5, wire 3,
    wire 4, rotate (-cosine 8) 2 (cosine 24) 5, rotate (cosine 24) 1 (cosine 8) 6, wire 7],
   [add 0 3, add 1 2, sub 1 2, sub 0 3, sub 7 4, sub 6 5, add 5 6, add 4 7],
   [wire 7, wire 6, rotate (cosine 16) 2 (cosine 16) 5, rotate (cosine 16) 3 (cosine 16) 4,
    rotate (cosine 16) 4 (-cosine 16) 3, rotate (cosine 16) 5 (-cosine 16) 2, wire 1, wire 0]]

def forwardDctOdd8 : Network :=
  [[wire 7, wire 6, rotate (cosine 16) 2 (-cosine 16) 5, rotate (cosine 16) 3 (-cosine 16) 4,
    rotate (cosine 16) 3 (cosine 16) 4, rotate (cosine 16) 2 (cosine 16) 5, wire 1, wire 0],
   [add 0 3, add 1 2, sub 1 2, sub 0 3, sub 7 4, sub 6 5, add 6 5, add 7 4],
   [wire 0, rotate (-cosine 8) 1 (cosine 24) 6, rotate (cosine 24) 2 (cosine 8) 5, wire 3,
    wire 4, rotate (cosine 8) 2 (-cosine 24) 5, rotate (cosine 24) 1 (cosine 8) 6, wire 7],
   [add 0 1, sub 0 1, add 3 2, sub 3 2, sub 4 5, add 4 5, sub 7 6, add 7 6],
   [rotate (cosine 30) 0 (cosine 2) 7, rotate (-cosine 26) 3 (cosine 6) 4,
    rotate (cosine 22) 2 (cosine 10) 5, rotate (-cosine 18) 1 (cosine 14) 6,
    rotate (cosine 14) 1 (cosine 18) 6, rotate (-cosine 10) 2 (cosine 22) 5,
    rotate (cosine 6) 3 (cosine 26) 4, rotate (-cosine 2) 0 (cosine 30) 7]]

/-- Odd half of the 32-point transforms; its matrix is symmetric, so one network serves both
directions. -/
def dctOdd16 : Network :=
  [[rotate (cosine 31) 0 (-cosine 1) 15, rotate (cosine 15) 8 (-cosine 17) 7,
    rotate (cosine 23) 4 (-cosine 9) 11, rotate (cosine 7) 12 (-cosine 25) 3,
    rotate (cosine 27) 2 (-cosine 5) 13, rotate (cosine 11) 10 (-cosine 21) 5,
    rotate (cosine 19) 6 (-cosine 13) 9, rotate (cosine 3) 14 (-cosine 29) 1,
    rotate (cosine 29) 14 (cosine 3) 1, rotate (cosine 13) 6 (cosine 19) 9,
    rotate (cosine 21) 10 (cosine 11) 5, rotate (cosine 5) 2 (cosine 27) 13,
    rotate (cosine 25) 12 (cosine 7) 3, rotate (cosine 9) 4 (cosine 23) 11,
    rotate (cosine 17) 8 (cosine 15) 7, rotate (cosine 1) 0 (cosine 31) 15],
   [add 0 1, sub 0 1, sub 3 2, add 2 3, add 4 5, sub 4 5, sub 7 6, add 6 7,
    add 8 9, sub 8 9, sub 11 10, add 10 11, add 12 13, sub 12 13, sub 15 14, add 14 15],
   [wire 0, rotate (-cosine 4) 1 (cosine 28) 14, rotate (-cosine 28) 2 (-cosine 4) 13, wire 3,
    wire 4, rotate (-cosine 20) 5 (cosine 12) 10, rotate (-cosine 12) 6 (-cosine 20) 9, wire 7,
    wire 8, rotate (-cosine 20) 6 (cosine 12) 9, rotate (cosine 12) 5 (cosine 20) 10, wire 11,
    wire 12, rotate (-cosine 4) 2 (cosine 28) 13, rotate (cosine 28) 1 (cosine 4) 14, wire 15],
   [add 0 3, add 1 2, sub 1 2, sub 0 3, sub 7 4, sub 6 5, add 5 6, add 4 7,
    add 8 11, add 9 10, sub 9 10, sub 8 11, sub 15 12, sub 14 13, add 13 14, add 12 15],
   [wire 0, wire 1, rotate (-cosine 8) 2 (cosine 24) 13, rotate (-cosine 8) 3 (cosine 24) 12,
    rotate (-cosine 24) 4 (-cosine 8) 11, rotate (-cosine 24) 5 (-cosine 8) 10, wire 6, wire 7,
    wire 8, wire 9, rotate (-cosine 8) 5 (cosine 24) 10, rotate (-cosine 8) 4 (cosine 24) 11,
    rotate (cosine 24) 3 (cosine 8) 12, rotate (cosine 24) 2 (cosine 8) 13, wire 14, wire 15],
   [add 0 7, add 1 6, add 2 5, add 3 4, sub 3 4, sub 2 5, sub 1 6, sub 0 7,
    sub 15 8, sub 14 9, sub 13 10, sub 12 11, add 11 12, add 10 13, add 9 14, add 8 15],
   [wire 15, wire 14, wire 13, wire 12,
    rotate (cosine 16) 4 (cosine 16) 11, rotate (cosine 16) 5 (cosine 16) 10,
    rotate (cosine 16) 6 (cosine 16) 9, rotate (cosine 16) 7 (cosine 16) 8,
    rotate (cosine 16) 8 (-cosine 16) 7, rotate (cosine 16) 9 (-cosine 16) 6,
    rotate (cosine 16) 10 (-cosine 16) 5, rotate (cosine 16) 11 (-cosine 16) 4,
    wire 3, wire 2, wire 1, wire 0]]

/-! ## Transforms

Where a transform calls that of half its points, it has the outputs as 32-bit numbers. The inverse
one of eight points has the half of four points built in, and keeps it in the range. -/

def inverseDct4 (r : ValueRange) (xs : List Int) : List Int :=
  unfold r (dctPair.run r (evens xs)) (dctOdd2.run r (odds xs))

def inverseDct8 (r : ValueRange) (xs : List Int) : List Int :=
  unfold r (inverseDct4 r (evens xs)) (inverseDctOdd4.run r (odds xs))

def inverseDct16 (r : ValueRange) (xs : List Int) : List Int :=
  unfold r ((inverseDct8 r (evens xs)).map truncate32) (inverseDctOdd8.run r (odds xs))

def inverseDct32 (r : ValueRange) (xs : List Int) : List Int :=
  unfold r ((inverseDct16 r (evens xs)).map truncate32) (dctOdd16.run r (odds xs))

def forwardDct4 (xs : List Int) : List Int :=
  interleave (dctPair.run .unbounded (foldSums 2 xs))
    (dctOdd2.run .unbounded (foldDifferences 2 xs))

def forwardDct8 (xs : List Int) : List Int :=
  interleave ((forwardDct4 (foldSums 4 xs)).map truncate32)
    (forwardDctOdd4.run .unbounded (foldDifferences 4 xs))

def forwardDct16 (xs : List Int) : List Int :=
  interleave ((forwardDct8 (foldSums 8 xs)).map truncate32)
    (forwardDctOdd8.run .unbounded (foldDifferences 8 xs))

/-- Frequencies of 32 samples; the odd ones are kept in the range `r`. -/
def forwardDct32 (r : ValueRange) (xs : List Int) : List Int :=
  interleave ((forwardDct16 (foldSums 16 xs)).map truncate32)
    (dctOdd16.run r (foldDifferences 16 xs))

namespace Kernel

def inverseDct : TransformSize → Kernel
  | .s4 => ⟨4, ResidualCodec.inverseDct4⟩
  | .s8 => ⟨8, ResidualCodec.inverseDct8⟩
  | .s16 => ⟨16, ResidualCodec.inverseDct16⟩
  | .s32 => ⟨32, ResidualCodec.inverseDct32⟩

/-- Forward cosine transform of a size. Only the 32-point one keeps a range. -/
def forwardDct : TransformSize → Kernel
  | .s4 => ⟨4, fun _ => ResidualCodec.forwardDct4⟩
  | .s8 => ⟨8, fun _ => ResidualCodec.forwardDct8⟩
  | .s16 => ⟨16, fun _ => ResidualCodec.forwardDct16⟩
  | .s32 => ⟨32, ResidualCodec.forwardDct32⟩

end Kernel

end ResidualCodec
