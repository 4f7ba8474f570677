/-
  ResidualCodec.Transform.Block

  Two-dimensional transforms of a square block in raster order: a pass over the
  columns, a pass over the rows, and a rounding shift after each. Forward
  outputs are eight times the orthonormal transform (four times for 32 points);
  the last shift of the inverse undoes that scale.
-/

import ResidualCodec.Transform.Adst
import ResidualCodec.Transform.Dct

namespace ResidualCodec

/-! ## Rows and columns -/

/-- A block as the list of its rows. -/
abbrev Rows := List (List Int)

/-- The first `n * n` entries of a raster, cut into `n` rows. -/
def Rows.ofRaster (n : Nat) (xs : Array Int) : Rows :=
  (List.range n).map fun y => (List.range n).map fun x => xs.getD (y * n + x) 0

/-- The first `n` columns, as rows. -/
def Rows.transpose (n : Nat) (m : Rows) : Rows :=
  (List.range n).map fun x => m.map fun row => row.getD x 0

def Rows.each (m : Rows) (f : Int → Int) : Rows := m.map fun row => row.map f

/-- Put the rows over the front of a buffer; what lies beyond them is kept. -/
def Rows.writeTo (m : Rows) (buffer : Array Int) : Array Int :=
  let samples := m.flatten
  (samples ++ buffer.toList.drop samples.length).toArray

/-! ## Kernels and shifts -/

/-- Inverse kernel of a basis; 32 points have the cosine basis alone. -/
def Kernel.inverse (s : TransformSize) : Basis → Kernel
  | .dct => .inverseDct s
  | .adst =>
    match s with
    | .s4 => .inverseAdst4
    | .s8 => .adst8
    | .s16 => .adst16
    | .s32 => .inverseDct .s32

/-- Forward kernel of a basis; 32 points have the cosine basis alone. -/
def Kernel.forward (s : TransformSize) : Basis → Kernel
  | .dct => .forwardDct s
  | .adst =>
    match s with
    | .s4 => .forwardAdst4
    | .s8 => .adst8
    | .s16 => .adst16
    | .s32 => .forwardDct .s32

/-- Rounding shift after the row pass of the inverse. -/
def TransformSize.inverseShift : TransformSize → Nat
  | .s4 => 4
  | .s8 => 5
  | .s16 => 6
  | .s32 => 6

/-- Scaling of the forward transform. -/
structure ForwardScale where
  -- Factor of the samples.
  input : Nat
  -- Rounding shift between the passes.
  middle : Nat
  -- Rounding shift after the row pass.
  output : Nat

/-- Scaling of the forward transform of a size. -/
def TransformSize.forwardScale : TransformSize → ForwardScale
  | .s4 => ⟨16, 0, 2⟩
  | .s8 => ⟨4, 0, 1⟩
  | .s16 => ⟨4, 2, 0⟩
  | .s32 => ⟨4, 2, 2⟩

/-! ## Passes -/

def Rows.pass (m : Rows) (kernel : List Int → List Int) : Rows := m.map kernel

/-- Rows transformed one by one, except that a row of zeros stays as it is. -/
def Rows.passNonzero (m : Rows) (kernel : List Int → List Int) : Rows :=
  m.map fun row => if row.all (· == 0) then row else kernel row

/-- Inverse transform of the rows of a block of coefficients. -/
def inverseRows (s : TransformSize) (t : TransformType) (d : BitDepth) (m : Rows) : Rows :=
  let r := ValueRange.ofDepth d
  let n := s.points
  let columns := (m.each r.wrap).transpose n
  let half := columns.passNonzero ((Kernel.inverse s t.vertical).run r)
  let full := (half.transpose n).pass ((Kernel.inverse s t.horizontal).run r)
  full.each fun x => r.wrap (roundShift x s.inverseShift)

/-- Forward transform of the rows of a block of samples. -/
def forwardRows (s : TransformSize) (t : TransformType) (m : Rows) : Rows :=
  let n := s.points
  let scale := s.forwardScale
  let columns := (m.each fun x => truncate32 (x * scale.input)).transpose n
  let half := columns.pass ((Kernel.forward s t.vertical).run .unbounded)
  let middle := (half.each fun x => roundShift x scale.middle).transpose n
  let full := middle.pass ((Kernel.forward s t.horizontal).run .unbounded)
  full.each fun x => roundShift x scale.output

/-! ## Transforms of buffers -/

/-- A transform needs room for its coefficients on both sides and an admitted pair of bases. -/
def checkBlock (s : TransformSize) (t : TransformType) (input output : Array Int) :
    Except Fault Unit :=
  if input.size < s.coeffs ∨ output.size < s.coeffs then .error (.shortTransform s)
  else if ¬ s.Admits t then .error (.basisNotAdmitted t)
  else .ok ()

/-- Residual samples of dequantized coefficients, written over the front of `output`. An end of
block of zero says that there are no coefficients, whatever `input` holds. -/
def inverseTransform (s : TransformSize) (t : TransformType) (input output : Array Int)
    (eob : Nat) (d : BitDepth) : Except Fault (Array Int) := do
  checkBlock s t input output
  let rows := Rows.ofRaster s.points input
  if eob = 0 then return (rows.each fun _ => 0).writeTo output
  return (inverseRows s t d rows).writeTo output

/-- Coefficients of residual samples, written over the front of `output`. -/
def forwardTransform (s : TransformSize) (t : TransformType) (input output : Array Int) :
    Except Fault (Array Int) := do
  checkBlock s t input output
  return (forwardRows s t (Rows.ofRaster s.points input)).writeTo output

end ResidualCodec
