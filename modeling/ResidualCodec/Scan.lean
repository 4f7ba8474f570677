/-
  ResidualCodec.Scan

  Scan orders: the sequence in which the coefficients of a square block are
  coded. An order visits the block in waves, along diagonals of one of three
  slopes, so that the two neighbours of a position that form the context of its
  token are always visited before it.
-/

import ResidualCodec.BlockKind
import ResidualCodec.Error

namespace ResidualCodec

/-! ## Kinds of order -/

/-- Slope of the waves. -/
inductive ScanKind where
  -- Anti-diagonals, for blocks without a dominant direction.
  | diagonal
  -- Rows advance twice as slowly as columns; goes with a vertical sine basis.
  | rowwise
  -- Columns advance twice as slowly as rows; goes with a horizontal sine basis.
  | columnwise
  deriving DecidableEq, Inhabited

namespace ScanKind

def all : List ScanKind := [.diagonal, .rowwise, .columnwise]

def index : ScanKind → Nat
  | .diagonal => 0 | .rowwise => 1 | .columnwise => 2

def ofTransform (s : TransformSize) (t : TransformType) : ScanKind :=
  match s, t with
  | .s32, _ => .diagonal
  | _, ⟨.adst, .dct⟩ => .rowwise
  | _, ⟨.dct, .adst⟩ => .columnwise
  | _, _ => .diagonal

/-- Sort key of a position: the number of its wave, and its place within the wave. -/
def key (k : ScanKind) (row col : Nat) : Nat × Nat :=
  match k with
  | .diagonal => (row + col, col)
  | .rowwise => (2 * row + col, row)
  | .columnwise => (row + 2 * col, col)

/-- The position, as row and column, that has this key in a block of `n` points. -/
def cell? (k : ScanKind) (n wave place : Nat) : Option (Nat × Nat) :=
  match k with
  | .diagonal =>
    if place ≤ wave ∧ wave - place < n ∧ place < n then some (wave - place, place) else none
  | .rowwise =>
    if 2 * place ≤ wave ∧ wave - 2 * place < n ∧ place < n then some (place, wave - 2 * place)
    else none
  | .columnwise =>
    if 2 * place ≤ wave ∧ wave - 2 * place < n ∧ place < n then some (wave - 2 * place, place)
    else none

/-- All positions of a block, in order of their keys. -/
def cells (k : ScanKind) (n : Nat) : List (Nat × Nat) :=
  (List.range (3 * n)).flatMap fun wave => (List.range n).filterMap (k.cell? n wave)

/-- The two positions whose energy forms the context of a position: above and to the left where
both exist and the order has no bias, and otherwise one of the two, twice. -/
def neighbors (k : ScanKind) : (row col : Nat) → (Nat × Nat) × (Nat × Nat)
  | 0, 0 => ((0, 0), (0, 0))
  | 0, c + 1 => ((0, c), (0, c))
  | r + 1, 0 => ((r, 0), (r, 0))
  | r + 1, c + 1 =>
    match k with
    | .diagonal => ((r, c + 1), (r + 1, c))
    | .rowwise => ((r + 1, c), (r + 1, c))
    | .columnwise => ((r, c + 1), (r, c + 1))

end ScanKind

/-! ## Orders -/

/-- A raster position or scan index, as the 16-bit number that tables hold. -/
def entry16 (p : Nat) : Nat := p % 0x10000

/-- The scan order of a block. -/
structure ScanOrder where
  -- Raster position of each scan index.
  scan : Array Nat
  -- Scan index of each raster position.
  iscan : Array Nat
  -- Raster positions of the two neighbours of each scan index.
  neighbors : Array (Nat × Nat)

namespace ScanOrder

/-- Scan index of each raster position, given the raster position of each scan index. -/
def invert (scan : Array Nat) : Array Nat :=
  scan.toList.zipIdx.foldl (fun a pi => a.setIfInBounds pi.1 (entry16 pi.2))
    (Array.replicate scan.size 0)

/-- The order of a kind over a block of `n` points a side. -/
def generate (n : Nat) (k : ScanKind) : ScanOrder :=
  let raster (p : Nat × Nat) := entry16 (p.1 * n + p.2)
  let scan := ((k.cells n).map raster).toArray
  { scan := scan
    iscan := invert scan
    neighbors := ((k.cells n).map fun p =>
      let (a, b) := k.neighbors p.1 p.2
      (raster a, raster b)).toArray }

end ScanOrder

/-! ## Contexts -/

/-- Context that two neighbours of these energies form: their mean, rounded up. -/
def blend (a b : Nat) : Nat := (1 + a + b) / 2

/-- Context of a scan index, given the energies of the raster positions. -/
def contextAt (neighbors : Array (Nat × Nat)) (energies : Array Nat) (c : Nat) :
    Except Fault Nat :=
  match neighbors[c]? with
  | none => .error .indexOutOfBounds
  | some (a, b) =>
    match energies[a]?, energies[b]? with
    | some x, some y => .ok (blend x y)
    | _, _ => .error .indexOutOfBounds

theorem blend_lt_three {a b : Nat} (ha : a < 3) (hb : b < 3) : blend a b < 3 := by
  unfold blend
  omega

/-- Context that two neighbours of these energies form. -/
def Ctx.ofEnergies (a b : Energy) : Ctx := ⟨blend a b, blend_lt_three a.isLt b.isLt⟩

/-! ## Walks -/

/-- A stop on the walk through a block. -/
structure Position where
  -- Scan index.
  index : Nat
  raster : Nat
  band : Band
  -- Raster positions of the two neighbours.
  neighbors : Nat × Nat

/-- Context of a position: that of the block at the start, and elsewhere what the energies of its
neighbours form. -/
def Position.context (p : Position) (initial : Ctx) (energies : Array Energy) : Ctx :=
  if p.index = 0 then initial
  else .ofEnergies (energies.getD p.neighbors.1 .none) (energies.getD p.neighbors.2 .none)

/-- The stops of an order, with the bands of a size. -/
def ScanOrder.positions (o : ScanOrder) (bands : List Band) : List Position :=
  ((o.scan.toList.zip o.neighbors.toList).zip bands).zipIdx.map fun (((p, ns), b), c) =>
    ⟨c, p, b, ns⟩

/-- The walk of a kind through a block of some size. -/
def walkOf (s : TransformSize) (k : ScanKind) : List Position :=
  (ScanOrder.generate s.points k).positions s.bands

/-- All walks, size by size. -/
def walks : Array (List Position) :=
  (TransformSize.all.flatMap fun s => ScanKind.all.map (walkOf s)).toArray

/-- The walk through the coefficients of a transform. -/
def walk (s : TransformSize) (t : TransformType) : List Position :=
  walks.getD (s.index * 3 + (ScanKind.ofTransform s t).index) []

theorem walk_eq (s : TransformSize) (t : TransformType) :
    walk s t = walkOf s (.ofTransform s t) := by
  unfold walk
  cases s <;> cases ScanKind.ofTransform _ t <;> rfl

/-- Entries of a raster block along a walk. -/
def gather (ps : List Position) (block : Array Int) : List Int :=
  ps.map fun p => block.getD p.raster 0

/-- A raster block of `n` entries from the entries along a walk; the rest is zero. -/
def scatter (n : Nat) (ps : List Position) (xs : List Int) : Array Int :=
  (ps.zip xs).foldl (fun a px => a.setIfInBounds px.1.raster px.2) (Array.replicate n 0)

end ResidualCodec
