/-
  ResidualCodec.EntropyContext

  One flag for every four samples along the top and the left edge of a plane,
  set where the block coded last had coefficients. The context of the first
  token of a block is the number of edges with a set flag over the block.
-/

import ResidualCodec.BlockKind

namespace ResidualCodec

/-- Flags along one edge. -/
abbrev EdgeFlags := Array Bool

namespace EdgeFlags

/-- Set `count` flags from `start` on; what lies past the end of the edge is passed over. -/
def fill (f : EdgeFlags) (start count : Nat) (flag : Bool) : EdgeFlags :=
  f.mapIdx fun i old => if start ≤ i ∧ i < start + count then flag else old

/-- Whether one of `count` flags from `start` on is set; flags past the end of the edge are not. -/
def anySet (f : EdgeFlags) (start count : Nat) : Bool := (f.extract start (start + count)).any id

theorem size_fill (f : EdgeFlags) (start count : Nat) (flag : Bool) :
    (f.fill start count flag).size = f.size := by
  unfold fill
  rw [Array.size_mapIdx]

/-- A flag inside the span takes the new value, and every other flag keeps its own. -/
theorem getElem?_fill (f : EdgeFlags) (start count : Nat) (flag : Bool) (i : Nat) :
    (f.fill start count flag)[i]? =
      f[i]?.map fun old => if start ≤ i ∧ i < start + count then flag else old := by
  unfold fill
  rw [Array.getElem?_mapIdx]

end EdgeFlags

/-- Flags along both edges of a plane of a tile, in units of four samples. -/
structure EntropyContext where
  above : EdgeFlags
  left : EdgeFlags
  deriving DecidableEq

namespace EntropyContext

/-- All flags cleared, over a number of columns and rows. -/
def create (cols rows : Nat) : EntropyContext :=
  ⟨Array.replicate cols false, Array.replicate rows false⟩

/-- Number of columns. -/
def cols (c : EntropyContext) : Nat := c.above.size

/-- Number of rows. -/
def rows (c : EntropyContext) : Nat := c.left.size

/-- The same area with all flags cleared. -/
def reset (c : EntropyContext) : EntropyContext := create c.cols c.rows

theorem two_edges_lt_three (above left : Bool) : above.toNat + left.toNat < 3 := by
  cases above <;> cases left <;> decide

/-- Context of the first token of a block: how many of its two edges have a set flag. -/
def initial (c : EntropyContext) (col row : Nat) (s : TransformSize) : Ctx :=
  ⟨(c.above.anySet col s.units).toNat + (c.left.anySet row s.units).toNat,
    two_edges_lt_three _ _⟩

/-- Set or clear the flags over a rectangle. -/
def mark (c : EntropyContext) (col row width height : Nat) (flag : Bool) : EntropyContext :=
  ⟨c.above.fill col width flag, c.left.fill row height flag⟩

def update (c : EntropyContext) (col row : Nat) (s : TransformSize) (nonzero : Bool) :
    EntropyContext :=
  c.mark col row s.units s.units nonzero

/-- Clear the flags over a rectangle without coefficients. -/
def clear (c : EntropyContext) (col row width height : Nat) : EntropyContext :=
  c.mark col row width height false

end EntropyContext

end ResidualCodec
