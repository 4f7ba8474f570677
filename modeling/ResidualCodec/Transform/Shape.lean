/-
  ResidualCodec.Transform.Shape

  The square transform blocks of the codec: their sizes, and the pair of
  one-dimensional bases (vertical, horizontal) that a block is transformed with.
-/

namespace ResidualCodec

/-! ## Sizes -/

/-- Side of a square transform block, in samples. -/
inductive TransformSize where
  | s4 | s8 | s16 | s32
  deriving DecidableEq, Inhabited

namespace TransformSize

def all : List TransformSize := [.s4, .s8, .s16, .s32]

def index : TransformSize → Nat
  | .s4 => 0 | .s8 => 1 | .s16 => 2 | .s32 => 3

def points : TransformSize → Nat
  | .s4 => 4 | .s8 => 8 | .s16 => 16 | .s32 => 32

def log2 : TransformSize → Nat
  | .s4 => 2 | .s8 => 3 | .s16 => 4 | .s32 => 5

/-- Coefficients in the block, which is also the largest end of block. -/
def coeffs (s : TransformSize) : Nat := s.points * s.points

/-- Side in units of four samples, the grain of the entropy contexts. -/
def units (s : TransformSize) : Nat := s.points / 4

/-- Right shift applied to every dequantized magnitude of the block. -/
def dequantShift : TransformSize → Nat
  | .s32 => 1
  | _ => 0

def name : TransformSize → String
  | .s4 => "Tx4x4" | .s8 => "Tx8x8" | .s16 => "Tx16x16" | .s32 => "Tx32x32"

theorem index_lt (s : TransformSize) : s.index < 4 := by cases s <;> decide

theorem index_inj {s t : TransformSize} (h : s.index = t.index) : s = t := by
  cases s <;> cases t <;> simp_all [index]

theorem points_pos (s : TransformSize) : 0 < s.points := by cases s <;> decide

theorem coeffs_pos (s : TransformSize) : 0 < s.coeffs := by cases s <;> decide

end TransformSize

/-! ## Bases -/

/-- One-dimensional basis of a transform pass. -/
inductive Basis where
  | dct | adst
  deriving DecidableEq, Inhabited

def Basis.name : Basis → String
  | .dct => "Dct" | .adst => "Adst"

/-- The basis of the vertical pass (over columns) and of the horizontal pass (over rows). -/
structure TransformType where
  vertical : Basis
  horizontal : Basis
  deriving DecidableEq, Inhabited

namespace TransformType

def dctDct : TransformType := ⟨.dct, .dct⟩

def all : List TransformType := [⟨.dct, .dct⟩, ⟨.adst, .dct⟩, ⟨.dct, .adst⟩, ⟨.adst, .adst⟩]

/-- Name used in messages: vertical basis, then horizontal basis. -/
def name (t : TransformType) : String := t.vertical.name ++ t.horizontal.name

end TransformType

/-- A 32-point block admits the cosine pair alone; smaller blocks admit every type. -/
def TransformSize.Admits (s : TransformSize) (t : TransformType) : Prop :=
  s = .s32 → t = .dctDct

instance (s : TransformSize) (t : TransformType) : Decidable (s.Admits t) :=
  inferInstanceAs (Decidable (_ → _))

end ResidualCodec
