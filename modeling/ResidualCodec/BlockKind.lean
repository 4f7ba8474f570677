/-
  ResidualCodec.BlockKind

  What the probability and count tables are indexed by: the kind of a block
  (size, plane type, reference type), the band of a scan position, and the
  context of a token.
-/

import ResidualCodec.Transform.Shape

namespace ResidualCodec

/-! ## Kinds of block -/

/-- Luma or chroma. -/
inductive PlaneType where
  | luma | chroma
  deriving DecidableEq, Inhabited

namespace PlaneType

/-- Plane 0 is luma, every other plane is chroma. -/
def ofPlane : Nat → PlaneType
  | 0 => .luma
  | _ => .chroma

/-- Position of the plane type in the tables. -/
def index : PlaneType → Nat
  | .luma => 0 | .chroma => 1

theorem index_lt (p : PlaneType) : p.index < 2 := by cases p <;> decide

theorem index_inj {p q : PlaneType} (h : p.index = q.index) : p = q := by
  cases p <;> cases q <;> simp_all [index]

end PlaneType

/-- Whether the block was predicted from its own frame or from another one. -/
inductive RefType where
  | intra | inter
  deriving DecidableEq, Inhabited

namespace RefType

/-- Position of the reference type in the tables. -/
def index : RefType → Nat
  | .intra => 0 | .inter => 1

theorem index_lt (r : RefType) : r.index < 2 := by cases r <;> decide

theorem index_inj {r t : RefType} (h : r.index = t.index) : r = t := by
  cases r <;> cases t <;> simp_all [index]

end RefType

/-- The part of a block's description that selects its set of probabilities. -/
structure BlockKind where
  size : TransformSize
  plane : PlaneType
  ref : RefType
  deriving DecidableEq, Inhabited

namespace BlockKind

def index (k : BlockKind) : Nat := (k.size.index * 2 + k.plane.index) * 2 + k.ref.index

def all : List BlockKind :=
  TransformSize.all.flatMap fun s =>
    [PlaneType.luma, .chroma].flatMap fun p =>
      [RefType.intra, .inter].map fun r => ⟨s, p, r⟩

theorem index_lt (k : BlockKind) : k.index < 16 := by
  have hs := k.size.index_lt
  have hp := k.plane.index_lt
  have hr := k.ref.index_lt
  unfold index
  omega

/-- Kinds of one index are equal: the index is a number in mixed radix. -/
theorem index_inj {k l : BlockKind} (h : k.index = l.index) : k = l := by
  obtain ⟨s, p, r⟩ := k
  obtain ⟨t, q, u⟩ := l
  have hp := p.index_lt
  have hq := q.index_lt
  have hr := r.index_lt
  have hu := u.index_lt
  simp only [index] at h
  have hs : s.index = t.index := by omega
  have hpq : p.index = q.index := by omega
  have hru : r.index = u.index := by omega
  rw [TransformSize.index_inj hs, PlaneType.index_inj hpq, RefType.index_inj hru]

end BlockKind

/-! ## Bands and contexts -/

/-- Coefficient band: positions of similar frequency share their probabilities. -/
abbrev Band := Fin 6

/-- Context of a token: how much energy its neighbourhood holds. -/
abbrev Ctx := Fin 3

/-- Coarse class of a magnitude: zero, one, or more. -/
abbrev Energy := Fin 3

/-- The band of the DC coefficient, which it holds alone. -/
def Band.dc : Band := 0

/-- The band of the highest frequencies. -/
def Band.last : Band := 5

/-- Energy of a zero. -/
def Energy.none : Energy := 0

/-- Energy of a magnitude of one. -/
def Energy.one : Energy := 1

/-- Energy of every larger magnitude. -/
def Energy.more : Energy := 2

/-- Band of a scan position in a 4x4 block. -/
def smallBands : List Band := [0, 1, 1, 2, 2, 2, 3, 3, 3, 3, 4, 4, 4, 5, 5, 5]

/-- Band of a scan position in a block of 8x8 or more. -/
def largeBand (c : Nat) : Band :=
  if c < 1 then 0 else if c < 3 then 1 else if c < 6 then 2 else if c < 10 then 3
  else if c < 22 then 4 else 5

def TransformSize.bands (s : TransformSize) : List Band :=
  match s with
  | .s4 => smallBands
  | _ => (List.range s.coeffs).map largeBand

end ResidualCodec
