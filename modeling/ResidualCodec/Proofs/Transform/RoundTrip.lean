/-
  ResidualCodec.Proofs.Transform.RoundTrip

  The forward and the inverse transform of four points, one after the other. The
  bases are orthogonal but for the rounding of their entries, so the two give
  back the residual but for the rounding of the passes and shifts; all of that
  together is less than two units, and no value leaves the range of the bit depth.
-/

import Mathlib.Tactic.Module
import ResidualCodec.Proofs.Transform.Resemblance
import ResidualCodec.Proofs.Transform.Room

namespace ResidualCodec

open Finset (range)
open Matrix

/-! ## Bases of four points -/

/-- Matrix of a basis of four points, a row for each sample. -/
def shortMatrix (b : Basis) : Matrix (Fin 4) (Fin 4) ℚ := weightMatrix 4 (basisWeight .s4 b)

/-- Products of the rows with each other. -/
def gram (b : Basis) : Matrix (Fin 4) (Fin 4) ℚ := shortMatrix b * (shortMatrix b)ᵀ

/-- What keeps the rows from being orthogonal and as long as the root of two. -/
def gramError (b : Basis) : Matrix (Fin 4) (Fin 4) ℚ := gram b - (2 : ℚ) • 1

/-- No row makes anything more than three times as large. The root of eight would do, but what is
left over is not needed. -/
theorem rowGain_weightMatrix {weight : Nat → Nat → Int}
    (h : ∀ j < 4, ∑ k ∈ range 4, |weight j k| ≤ 4 * cosine 16) :
    RowGain 3 (weightMatrix 4 weight) := by
  intro j
  have hcosine : cosine 16 = 11585 := rfl
  have hsum : ((∑ k ∈ range 4, |weight j k| : Int) : ℚ) ≤ (4 * 11585 : Int) := by
    rw [← hcosine]
    exact_mod_cast h j j.isLt
  have hpos : (0 : ℚ) < 2 ^ cosineBits := by positivity
  have hrow : ∑ k, |weightMatrix 4 weight j k| =
      ((∑ k ∈ range 4, |weight j k| : Int) : ℚ) / 2 ^ cosineBits := by
    push_cast
    rw [Finset.sum_range, Finset.sum_div]
    refine Finset.sum_congr rfl fun k _ => ?_
    show |(weight j k : ℚ) / 2 ^ cosineBits| = _
    rw [abs_div, abs_of_pos hpos]
  rw [hrow, div_le_iff₀ hpos, cosineBits]
  refine hsum.trans ?_
  norm_num

theorem rowGain_shortMatrix (b : Basis) : RowGain 3 (shortMatrix b) :=
  rowGain_weightMatrix (sum_abs_shortWeight_le b)

theorem transpose_shortMatrix (b : Basis) :
    (shortMatrix b)ᵀ = weightMatrix 4 (flip (basisWeight .s4 b)) := rfl

theorem rowGain_transpose_shortMatrix (b : Basis) : RowGain 3 (shortMatrix b)ᵀ := by
  rw [transpose_shortMatrix]
  refine rowGain_weightMatrix fun j hj => ?_
  exact sum_abs_basisWeight_le .s4 b j hj

theorem rowGain_gramError (b : Basis) : RowGain (10 / 2 ^ 16) (gramError b) := by
  cases b <;> decide +kernel

theorem transpose_gramError (b : Basis) : (gramError b)ᵀ = gramError b := by
  rw [gramError, gram, transpose_sub, transpose_mul, transpose_transpose, transpose_smul,
    transpose_one]

theorem gram_eq (b : Basis) : gram b = gramError b + (2 : ℚ) • 1 := (sub_add_cancel _ _).symm

section

variable {r : Matrix (Fin 4) (Fin 4) ℚ} {bound : ℚ} (hr : EntryBound bound r)

include hr

theorem entryBound_mul_gramError (b : Basis) :
    EntryBound (10 / 2 ^ 16 * bound) (r * gramError b) := by
  have hle := hr.mul_transpose (rowGain_gramError b)
  rwa [transpose_gramError] at hle

theorem entryBound_mul_gram (b : Basis) : EntryBound (3 * bound) (r * gram b) := by
  have hpos : 0 ≤ bound := (abs_nonneg _).trans (hr 0 0)
  have hsplit : r * gram b = r * gramError b + (2 : ℚ) • r := by
    rw [gram_eq, Matrix.mul_add, Matrix.mul_smul, Matrix.mul_one]
  have hsum := (entryBound_mul_gramError hr b).add (hr.smul 2)
  rw [hsplit]
  refine hsum.mono ?_
  rw [abs_of_pos two_pos]
  linarith

/-- Samples of twelve bits are less than two thirds of a unit off for what keeps the two bases from
being orthogonal. -/
theorem entryBound_scaled_gram (v h : Basis) (hbound : bound ≤ 2 ^ 12) :
    EntryBound (2 / 3) ((1 / 4 : ℚ) • (gram v * r * gram h) - r) := by
  -- Both factors are twice the unit matrix and an error; of the product, the part without an error
  -- is four times the samples.
  have hsplit : (1 / 4 : ℚ) • (gram v * r * gram h) - r =
      (1 / 4 : ℚ) • (gramError v * (r * gramError h)) + (1 / 2 : ℚ) • (gramError v * r) +
        (1 / 2 : ℚ) • (r * gramError h) := by
    rw [gram_eq, gram_eq]
    simp only [Matrix.add_mul, Matrix.mul_add, Matrix.smul_mul, Matrix.mul_smul, Matrix.one_mul,
      Matrix.mul_one, Matrix.mul_assoc]
    module
  have hright := entryBound_mul_gramError hr h
  have hleft := hr.mul (rowGain_gramError v)
  have hboth := hright.mul (rowGain_gramError v)
  have hsum := ((hboth.smul (1 / 4)).add (hleft.smul (1 / 2))).add (hright.smul (1 / 2))
  rw [hsplit]
  refine hsum.mono ?_
  rw [abs_of_pos (by norm_num), abs_of_pos (by norm_num)]
  linarith

end

/-! ## Forward -/

/-- A forward pass multiplies by the matrix of its basis, and rounds once. -/
theorem resembles_pass_forward (b : Basis) {m : Rows} {error : ℚ} {a : Matrix (Fin 4) (Fin 4) ℚ}
    (h : m.Resembles error a) {bound : Nat} (hm : m.Bounded bound)
    (hlimit : 4 * bound ≤ massLimit) :
    (m.pass ((Kernel.forward .s4 b).run .unbounded)).Resembles (3 * error + 1 / 2)
      (a * shortMatrix b) := by
  have hgain := rowGain_transpose_shortMatrix b
  rw [transpose_shortMatrix] at hgain
  have hkernel : ∀ row ∈ m, Near 4 (flip (basisWeight .s4 b)) 0 (1 / 2) row
      ((Kernel.forward .s4 b).run .unbounded row) := by
    intro row hmem
    have hlength := h.square.cols row hmem
    rw [(run_forward (s := .s4) hlength (hm row hmem) hlimit).1]
    exact nearOn_forwardShort b row hlength
      (mass_le_massLimit (s := .s4) hlength (hm row hmem) hlimit)
  have hpass := h.pass hgain hkernel
  rwa [← transpose_shortMatrix, transpose_transpose] at hpass

/-- What the coefficients of a residual are near to. -/
def idealCoeffs (t : TransformType) (r : Matrix (Fin 4) (Fin 4) ℚ) : Matrix (Fin 4) (Fin 4) ℚ :=
  (4 : ℚ) • ((shortMatrix t.vertical)ᵀ * r * shortMatrix t.horizontal)

/-- A shift by no bits changes nothing. -/
theorem each_roundShift_zero (m : Rows) : (m.each fun x => roundShift x 0) = m := by
  have hrow : ∀ row : List Int, row.map (fun x => roundShift x 0) = row := List.map_id
  exact (List.map_congr_left fun row _ => hrow row).trans (List.map_id m)

section

variable (t : TransformType) {m : Rows} (h : m.Square 4) {d : BitDepth}
  (hm : m.Bounded d.maxResidual)

include h hm

theorem resembles_forwardRows : (forwardRows .s4 t m).Resembles 1 (idealCoeffs t (m.matrix 4)) := by
  obtain ⟨hinput, hcolumnLimit, hrowLimit⟩ := fitsForward_maxResidual .s4 d
  have hscaled := (Rows.Resembles.scale h hm hinput).transpose
  have hsamples := (hm.scale hinput).transpose (n := 4)
  have hcolumns := resembles_pass_forward t.vertical hscaled hsamples hcolumnLimit
  have hhalf := (pass_forward (s := .s4) t.vertical hscaled.square hsamples hcolumnLimit).2
  -- Four points are not shifted between the passes, so nothing is rounded there.
  rw [← each_roundShift_zero (Rows.pass _ _)] at hcolumns
  have hrows := resembles_pass_forward t.horizontal hcolumns.transpose
    (hhalf.shift 0).transpose hrowLimit
  have hshifted := hrows.shift 2
  have hideal : (1 / 2 ^ 2 : ℚ) • ((((((16 : Nat) : ℚ) • m.matrix 4)ᵀ * shortMatrix t.vertical)ᵀ *
      shortMatrix t.horizontal)) = idealCoeffs t (m.matrix 4) := by
    rw [idealCoeffs, transpose_mul, transpose_transpose, Matrix.mul_smul, Matrix.smul_mul,
      smul_smul]
    norm_num
  have herror : (3 * (3 * 0 + 1 / 2) + 1 / 2) / 2 ^ 2 + 1 / 2 ≤ (1 : ℚ) := by norm_num
  rw [← hideal]
  exact hshifted.mono herror

end

/-! ## Inverse -/

/-- An inverse pass multiplies by the transposed matrix of its basis, and is off by a unit. -/
theorem resembles_pass_inverse (b : Basis) {m : Rows} {error : ℚ} {a : Matrix (Fin 4) (Fin 4) ℚ}
    (h : m.Resembles error a) :
    (m.pass ((Kernel.inverse .s4 b).network .unbounded)).Resembles (3 * error + 1)
      (a * (shortMatrix b)ᵀ) :=
  h.pass (rowGain_shortMatrix b) fun row hmem => nearOn_inverseShort b row (h.square.cols row hmem)

section

variable {t : TransformType} {m : Rows} {r : Matrix (Fin 4) (Fin 4) ℚ}
  (h : m.Resembles 1 (idealCoeffs t r))

include h

theorem resembles_shortInverseHalf : (shortInverseHalf t m).Resembles 4
    ((4 : ℚ) • ((shortMatrix t.horizontal)ᵀ * (rᵀ * gram t.vertical))) := by
  have hpass := resembles_pass_inverse t.vertical h.transpose
  have hideal : (idealCoeffs t r)ᵀ * (shortMatrix t.vertical)ᵀ =
      (4 : ℚ) • ((shortMatrix t.horizontal)ᵀ * (rᵀ * gram t.vertical)) := by
    rw [idealCoeffs, gram, transpose_smul, transpose_mul, transpose_mul, transpose_transpose,
      Matrix.smul_mul, Matrix.mul_assoc, Matrix.mul_assoc]
  rw [← hideal]
  exact hpass.mono (by norm_num)

theorem resembles_shortInverseRows : (shortInverseRows t m).Resembles (21 / 16)
    ((1 / 4 : ℚ) • (gram t.vertical * r * gram t.horizontal)) := by
  have hpass := resembles_pass_inverse t.horizontal (resembles_shortInverseHalf h).transpose
  have hshifted := hpass.shift 4
  have hideal : (1 / 2 ^ 4 : ℚ) • (((4 : ℚ) • ((shortMatrix t.horizontal)ᵀ *
      (rᵀ * gram t.vertical)))ᵀ * (shortMatrix t.horizontal)ᵀ) =
      (1 / 4 : ℚ) • (gram t.vertical * r * gram t.horizontal) := by
    simp only [gram, transpose_smul, transpose_mul, transpose_transpose, Matrix.smul_mul,
      smul_smul, Matrix.mul_assoc]
    norm_num
  rw [← hideal]
  exact hshifted.mono (by norm_num)

end

/-! ## Round trip -/

/-- The range has room for three times what goes into either pass of the inverse. -/
theorem room_of_depth (d : BitDepth) : 1 ≤ d.maxResidual ∧ d.maxResidual ≤ 2 ^ 12 ∧
    3 * (40 * d.maxResidual) + 1 < 2 ^ (d.bits + 7) := by
  cases d <;> decide

section

variable (t : TransformType) {m : Rows} (h : m.Square 4) {d : BitDepth}
  (hm : m.Bounded d.maxResidual)

include h hm

/-- No coefficient of a residual is more than forty times as large as the samples can be. -/
theorem bounded_shortCoeffs : (forwardRows .s4 t m).Bounded (40 * d.maxResidual) := by
  have hone : (1 : ℚ) ≤ d.maxResidual := by exact_mod_cast (room_of_depth d).1
  have hproduct := (hm.matrix.mul (rowGain_transpose_shortMatrix t.vertical)).mul_transpose
    (rowGain_transpose_shortMatrix t.horizontal)
  rw [transpose_transpose] at hproduct
  refine (resembles_forwardRows t h hm).bounded (hproduct.smul 4) ?_
  rw [abs_of_pos four_pos]
  push_cast
  linarith

theorem bounded_shortInverseHalf :
    (shortInverseHalf t (forwardRows .s4 t m)).Bounded (40 * d.maxResidual) := by
  have hone : (1 : ℚ) ≤ d.maxResidual := by exact_mod_cast (room_of_depth d).1
  have htranspose : EntryBound d.maxResidual (m.matrix 4)ᵀ := fun y x => hm.matrix x y
  have hproduct := (entryBound_mul_gram htranspose t.vertical).mul
    (rowGain_transpose_shortMatrix t.horizontal)
  refine (resembles_shortInverseHalf (resembles_forwardRows t h hm)).bounded (hproduct.smul 4) ?_
  rw [abs_of_pos four_pos]
  push_cast
  linarith

/-- The inverse transform gives back every sample of a residual, up to a unit: of the distance of
less than two, 21 sixteenths are the rounding of passes and shifts, and two thirds that of the
bases. -/
theorem natAbs_shortInverseRows_sub_le {y x : Nat} (hy : y < 4) (hx : x < 4) :
    ((shortInverseRows t (forwardRows .s4 t m)).entry y x - m.entry y x).natAbs ≤ 1 := by
  have hback := resembles_shortInverseRows (resembles_forwardRows t h hm)
  have hbound : (d.maxResidual : ℚ) ≤ 2 ^ 12 := by exact_mod_cast (room_of_depth d).2.1
  have hideal := entryBound_scaled_gram hm.matrix t.vertical t.horizontal hbound ⟨y, hy⟩ ⟨x, hx⟩
  have hnear := hback.near ⟨y, hy⟩ ⟨x, hx⟩
  rw [Matrix.sub_apply] at hideal hnear
  have hsum := (abs_sub_le _ _ _).trans (add_le_add hnear hideal)
  have hlt : |((shortInverseRows t (forwardRows .s4 t m)).entry y x : ℚ) - m.entry y x| < 2 :=
    hsum.trans_lt (by norm_num)
  have hint : |(shortInverseRows t (forwardRows .s4 t m)).entry y x - m.entry y x| < 2 := by
    exact_mod_cast hlt
  rw [Int.abs_eq_natAbs] at hint
  omega

/-- Nothing is wrapped on the way back. -/
theorem inverseRows_forwardRows : Strict.inverseRows .s4 t d (forwardRows .s4 t m) =
    some (shortInverseRows t (forwardRows .s4 t m)) :=
  Strict.inverseRows_eq (resembles_forwardRows t h hm).square (bounded_shortCoeffs t h hm)
    (bounded_shortInverseHalf t h hm) (room_of_depth d).2.2

end

/-! ## Buffers -/

/-- Transformed and transformed back, a residual of the bit depth is off by one at most at every
sample, whatever the bases, and no value on the way back had to be wrapped. -/
theorem inverseTransform_forwardTransform (t : TransformType) (d : BitDepth)
    {residual first second : Array Int} (hresidual : 16 ≤ residual.size)
    (hfirst : 16 ≤ first.size) (hsecond : 16 ≤ second.size)
    (hsamples : ∀ j < 16, (residual.getD j 0).natAbs ≤ d.maxResidual) :
    ∃ coeffs out, forwardTransform .s4 t residual first = .ok coeffs ∧
      Strict.inverseTransform .s4 t coeffs second 16 d = .ok (some out) ∧
      inverseTransform .s4 t coeffs second 16 d = .ok out ∧
      ∀ j < 16, (out.getD j 0 - residual.getD j 0).natAbs ≤ 1 := by
  have hadmits : TransformSize.s4.Admits t := fun h => by cases h
  have hm : (Rows.ofRaster 4 residual).Bounded d.maxResidual := Rows.bounded_ofRaster hsamples
  have hsquare := Rows.square_ofRaster 4 residual
  generalize hrows : Rows.ofRaster 4 residual = m at hm hsquare
  have hcoeffs := (resembles_forwardRows t hsquare hm).square
  have hout := (resembles_shortInverseRows (resembles_forwardRows t hsquare hm)).square
  have hforward : forwardTransform .s4 t residual first =
      .ok ((forwardRows .s4 t m).writeTo first) := by
    simp only [forwardTransform, TransformSize.points]
    rw [checkBlock_eq_ok hadmits hresidual hfirst, hrows]
    rfl
  have hstrict : Strict.inverseTransform .s4 t ((forwardRows .s4 t m).writeTo first) second 16 d =
      .ok (some ((shortInverseRows t (forwardRows .s4 t m)).writeTo second)) := by
    simp only [Strict.inverseTransform, TransformSize.points]
    rw [checkBlock_eq_ok hadmits (hcoeffs.le_size_writeTo first) hsecond,
      hcoeffs.ofRaster_writeTo first, inverseRows_forwardRows t hsquare hm]
    rfl
  refine ⟨_, _, hforward, hstrict, Strict.inverseTransform_of_strict hstrict, ?_⟩
  intro j hj
  have hsplit : j / 4 * 4 + j % 4 = j := Nat.div_add_mod' j 4
  have hy : j / 4 < 4 := Nat.div_lt_of_lt_mul hj
  have hx : j % 4 < 4 := Nat.mod_lt j (by decide)
  have hsample : m.entry (j / 4) (j % 4) = residual.getD j 0 := by
    rw [← hrows, Rows.entry_ofRaster residual hy hx, hsplit]
  have hentry := natAbs_shortInverseRows_sub_le t hsquare hm hy hx
  rwa [← hout.getD_writeTo second hy hx, hsample, hsplit] at hentry

/-- The largest differences of samples of twelve bits, side by side, in both sine bases. -/
theorem inverseTransform_forwardTransform_extreme :
    let residual : Array Int := #[4095, -4095, 4095, -4095, -4095, 4095, -4095, 4095,
      4095, 4095, -4095, -4095, 0, 1, -1, 4095]
    let buffer : Array Int := Array.replicate 16 7
    ∃ coeffs out, forwardTransform .s4 ⟨.adst, .adst⟩ residual buffer = .ok coeffs ∧
      Strict.inverseTransform .s4 ⟨.adst, .adst⟩ coeffs buffer 16 .twelve = .ok (some out) ∧
      inverseTransform .s4 ⟨.adst, .adst⟩ coeffs buffer 16 .twelve = .ok out ∧
      ∀ j < 16, (out.getD j 0 - residual.getD j 0).natAbs ≤ 1 := by
  intro residual buffer
  have hbuffer : 16 ≤ buffer.size := Array.size_replicate.ge
  exact inverseTransform_forwardTransform _ .twelve (by decide) hbuffer hbuffer (by decide)

end ResidualCodec
