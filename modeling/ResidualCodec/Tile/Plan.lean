/-
  ResidualCodec.Tile.Plan

  The layout of a tile: the visible area of each plane in units of four
  samples, and the transform blocks in the order in which they are coded.
-/

import ResidualCodec.Coefficient.Symbol

namespace ResidualCodec

/-! ## Blocks -/

/-- A transform block of a tile. -/
structure TileBlock where
  plane : Nat := 0
  -- Column and row of the block in its plane, in units of four samples.
  col : Nat := 0
  row : Nat := 0
  size : TransformSize
  type : TransformType := .dctDct
  ref : RefType := .intra
  -- Whether the block has no coefficients in the stream.
  skip : Bool := false
  deriving DecidableEq

namespace TileBlock

def planeType (b : TileBlock) : PlaneType := .ofPlane b.plane

def params (b : TileBlock) (q : Dequantizer) : BlockParams :=
  ⟨⟨b.size, b.planeType, b.ref⟩, b.type, q⟩

end TileBlock

/-! ## Plans -/

/-- Columns and rows of a plane. -/
structure Extent where
  cols : Nat
  rows : Nat
  deriving DecidableEq

/-- Layout of a tile with three planes. -/
structure TilePlan where
  planes : Vector Extent 3
  blocks : List TileBlock
  deriving DecidableEq

namespace TilePlan

/-- A plan whose chroma planes have half the columns and rows of the luma plane, rounded up. -/
def yuv420 (luma : Extent) (blocks : List TileBlock) : TilePlan :=
  let chroma : Extent := ⟨(luma.cols + 1) / 2, (luma.rows + 1) / 2⟩
  ⟨#v[luma, chroma, chroma], blocks⟩

/-! ## Validation -/

/-- What is wrong with a block of a plan. -/
inductive Defect where
  | plane (plane : Nat)
  | position (block : TileBlock) (extent : Extent)
  | basis (type : TransformType)
  | losslessSize (size : TransformSize)
  deriving DecidableEq

def Defect.message : Defect → String
  | .plane p => "plane " ++ toString p ++ " out of range"
  | .position b e =>
    "position (" ++ toString b.col ++ ", " ++ toString b.row ++ ") outside plane " ++
      toString b.plane ++ " of " ++ toString e.cols ++ "x" ++ toString e.rows
  | .basis t => (Fault.basisNotAdmitted t).message
  | .losslessSize s => (Fault.losslessSize s).message

def blockDefect? (p : TilePlan) (q : Dequantizer) (b : TileBlock) : Option Defect :=
  match p.planes[b.plane]? with
  | none => some (.plane b.plane)
  | some e =>
    if e.cols ≤ b.col ∨ e.rows ≤ b.row then some (.position b e)
    else if ¬ b.size.Admits b.type then some (.basis b.type)
    else if q.lossless ∧ b.size ≠ .s4 then some (.losslessSize b.size)
    else none

/-- The first block with a defect, by number, and its defect. -/
def defect? (p : TilePlan) (q : Dequantizer) : Option (Nat × Defect) :=
  p.blocks.zipIdx.findSome? fun (b, i) => (p.blockDefect? q b).map fun d => (i, d)

/-- A plan with a defect is refused. Blocks may overlap, and may reach past the visible area. -/
def validate (p : TilePlan) (q : Dequantizer) : Except Error Unit :=
  match p.defect? q with
  | some (i, d) => .error (.invalidInput ("block " ++ toString i ++ ": " ++ d.message))
  | none => .ok ()

end TilePlan

end ResidualCodec
