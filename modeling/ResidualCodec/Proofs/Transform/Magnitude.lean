/-
  ResidualCodec.Proofs.Transform.Magnitude

  How large the coefficients of a block can be. An output of a kernel is at most
  as large as the largest row of its matrix makes it, and what the network is
  off by; the two passes and their shifts are chained into one bound for each
  size, computed from the bound of the samples.
-/

import ResidualCodec.Proofs.Transform.Cosine
import ResidualCodec.Proofs.Transform.Sine

namespace ResidualCodec

open Finset (range)

/-! ## Bases -/

/-- Matrix of a basis: entries at a sample and a frequency. -/
def basisWeight (s : TransformSize) : Basis → Nat → Nat → Int
  | .dct => cosineWeight s.points
  | .adst =>
    match s with
    | .s4 => shortSineWeight
    | .s8 => sineWeight 8
    | .s16 => sineWeight 16
    | .s32 => cosineWeight 32

/-- The forward kernels are near to the transposed matrices of their bases. -/
theorem nearOn_forward (s : TransformSize) (b : Basis) : ∃ error ≤ 16,
    NearOnSmall s.points (flip (basisWeight s b)) networkDeviation error
      ((Kernel.forward s b).network .unbounded) := by
  cases b with
  | dct => exact nearOn_forwardDct s
  | adst =>
    cases s with
    | s4 =>
      have hnear := nearOn_forwardAdst4.mono networkDeviation_nonneg le_rfl
      exact ⟨1 / 2, by norm_num, hnear.small⟩
    | s8 =>
      have hnear := nearOn_run fit_adst8
      rw [← flip_sineWeight] at hnear
      exact ⟨8, by norm_num, hnear.small⟩
    | s16 =>
      have hnear := nearOn_run fit_adst16
      rw [← flip_sineWeight] at hnear
      exact ⟨8, by norm_num, hnear.small⟩
    | s32 => exact nearOn_forwardDct .s32

/-- No frequency weighs the samples more than the lowest one of the cosine basis. -/
theorem sum_abs_basisWeight_le (s : TransformSize) (b : Basis) : ∀ k < s.points,
    ∑ j ∈ range s.points, |flip (basisWeight s b) k j| ≤ s.points * cosine 16 := by
  cases s <;> cases b <;> decide +kernel

/-! ## Passes -/

/-- Bound of the outputs of a forward kernel of `n` points, from that of its inputs: the weights,
two units off, and the rounding of all stages. -/
def kernelBound (n bound : Nat) : Nat := n * (11585 + 2) * bound / 2 ^ cosineBits + 16

section

variable {s : TransformSize} {b : Basis} {xs : List Int} (hlength : xs.length = s.points)
  {bound : Nat} (hxs : ∀ x ∈ xs, x.natAbs ≤ bound) (hlimit : s.points * bound ≤ massLimit)

include hlength hxs hlimit

theorem mass_le_massLimit : mass s.points xs ≤ massLimit :=
  (mass_le (natAbs_getD_of_mem hlength hxs)).trans (by exact_mod_cast hlimit)

theorem natAbs_getD_network_le {j : Nat} (hj : j < s.points) :
    (((Kernel.forward s b).network .unbounded xs).getD j 0).natAbs ≤
      kernelBound s.points bound := by
  obtain ⟨error, herror, hnear⟩ := nearOn_forward s b
  have hle := (hnear xs hlength (mass_le_massLimit hlength hxs hlimit)).abs_getD_le_of_gain
    networkDeviation_nonneg hj (sum_abs_basisWeight_le s b j hj) (natAbs_getD_of_mem hlength hxs)
  generalize ((Kernel.forward s b).network .unbounded xs).getD j 0 = y at hle
  have hscaled : (y.natAbs * 2 ^ 14 : ℚ) ≤ s.points * (11585 + 2) * bound + 16 * 2 ^ 14 := by
    have habs : |(y : ℚ)| = y.natAbs := by
      rw [← Int.cast_abs, Int.abs_eq_natAbs, Int.cast_natCast]
    have hcosine : cosine 16 = 11585 := rfl
    rw [habs, hcosine, networkDeviation, cosineBits] at hle
    push_cast at hle
    linarith
  have hnat : y.natAbs * 2 ^ 14 ≤ s.points * (11585 + 2) * bound + 16 * 2 ^ 14 := by
    exact_mod_cast hscaled
  simp only [kernelBound, cosineBits]
  generalize s.points * (11585 + 2) * bound = total at hnat ⊢
  omega

/-- A forward kernel bounds its outputs, and cuts none of them to 32 bits. -/
theorem run_forward :
    (Kernel.forward s b).run .unbounded xs = (Kernel.forward s b).network .unbounded xs ∧
      ((Kernel.forward s b).run .unbounded xs).length = s.points ∧
      ∀ y ∈ (Kernel.forward s b).run .unbounded xs, y.natAbs ≤ kernelBound s.points bound := by
  obtain ⟨error, -, hnear⟩ := nearOn_forward s b
  have hpoints : (Kernel.forward s b).points = s.points := by cases s <;> cases b <;> rfl
  have hout := (hnear xs hlength (mass_le_massLimit hlength hxs hlimit)).length
  have hbound : ∀ y ∈ (Kernel.forward s b).network .unbounded xs,
      y.natAbs ≤ kernelBound s.points bound := by
    intro y hy
    obtain ⟨j, hj, rfl⟩ := List.getElem_of_mem hy
    have hle := natAbs_getD_network_le (b := b) hlength hxs hlimit (hout ▸ hj)
    rwa [List.getD_eq_getElem _ _ hj] at hle
  have hmax : kernelBound s.points bound ≤ max32 := by
    simp only [kernelBound, cosineBits]
    have hcap : massLimit = 2 ^ 30 := rfl
    have hword : max32 = 2147483647 := rfl
    rw [Nat.mul_right_comm]
    omega
  have hrun : (Kernel.forward s b).run .unbounded xs =
      (Kernel.forward s b).network .unbounded xs := by
    simp only [Kernel.run]
    rw [List.take_of_length_le (hlength.trans hpoints.symm).le]
    exact map_truncate32_of_le fun y hy => (hbound y hy).trans hmax
  rw [hrun]
  exact ⟨rfl, hout, hbound⟩

end

/-! ## Blocks -/

/-- Bound of the outputs of the column pass, from that of the samples. -/
def halfBound (s : TransformSize) (bound : Nat) : Nat :=
  kernelBound s.points (bound * s.forwardScale.input)

/-- Bound of the outputs of the row pass. -/
def fullBound (s : TransformSize) (bound : Nat) : Nat :=
  kernelBound s.points (shiftBound (halfBound s bound) s.forwardScale.middle)

/-- Bound of the coefficients of a block. -/
def forwardBound (s : TransformSize) (bound : Nat) : Nat :=
  shiftBound (fullBound s bound) s.forwardScale.output

/-- Whether nothing on the way from samples of a bound to their coefficients leaves 32 bits: not the
scaled samples, nor what either pass makes of its inputs. -/
structure FitsForward (s : TransformSize) (bound : Nat) : Prop where
  input : bound * s.forwardScale.input ≤ max32
  columns : s.points * (bound * s.forwardScale.input) ≤ massLimit
  rows : s.points * shiftBound (halfBound s bound) s.forwardScale.middle ≤ massLimit

/-- Largest magnitude of a residual sample. -/
def BitDepth.maxResidual (d : BitDepth) : Nat := 2 ^ d.bits - 1

theorem fitsForward_maxResidual (s : TransformSize) (d : BitDepth) :
    FitsForward s d.maxResidual := by
  cases s <;> cases d <;> exact ⟨by decide, by decide, by decide⟩

/-- A pass of a forward kernel keeps the shape of a block, and bounds it. -/
theorem pass_forward {s : TransformSize} (b : Basis) {m : Rows} (h : m.Square s.points)
    {bound : Nat} (hm : m.Bounded bound) (hlimit : s.points * bound ≤ massLimit) :
    (m.pass ((Kernel.forward s b).run .unbounded)).Square s.points ∧
      (m.pass ((Kernel.forward s b).run .unbounded)).Bounded (kernelBound s.points bound) := by
  have hrun : ∀ row ∈ m, ((Kernel.forward s b).run .unbounded row).length = s.points ∧
      ∀ y ∈ (Kernel.forward s b).run .unbounded row, y.natAbs ≤ kernelBound s.points bound :=
    fun row hrow => (run_forward (h.cols row hrow) (hm row hrow) hlimit).2
  refine ⟨⟨(List.length_map _).trans h.rows, ?_⟩, ?_⟩
  · intro row hrow
    obtain ⟨row, hmem, rfl⟩ := List.mem_map.mp hrow
    exact (hrun row hmem).1
  · intro row hrow
    obtain ⟨row, hmem, rfl⟩ := List.mem_map.mp hrow
    exact (hrun row hmem).2

/-- The block that the column pass of the forward transform is made on. -/
def forwardColumns (s : TransformSize) (m : Rows) : Rows :=
  (m.each fun x => truncate32 (x * s.forwardScale.input)).transpose s.points

/-- The block that the row pass is made on. -/
def forwardMiddle (s : TransformSize) (t : TransformType) (m : Rows) : Rows :=
  (((forwardColumns s m).pass ((Kernel.forward s t.vertical).run .unbounded)).each fun x =>
    roundShift x s.forwardScale.middle).transpose s.points

theorem forwardRows_eq (s : TransformSize) (t : TransformType) (m : Rows) :
    forwardRows s t m =
      ((forwardMiddle s t m).pass ((Kernel.forward s t.horizontal).run .unbounded)).each fun x =>
        roundShift x s.forwardScale.output := rfl

section

variable {s : TransformSize} {m : Rows} (h : m.Square s.points) {bound : Nat}
  (hfits : FitsForward s bound) (hm : m.Bounded bound)

include h hfits hm

theorem bounded_forwardColumns : (forwardColumns s m).Square s.points ∧
    (forwardColumns s m).Bounded (bound * s.forwardScale.input) :=
  ⟨Rows.square_transpose (h.each _).rows, (hm.scale hfits.input).transpose⟩

theorem bounded_forwardMiddle (t : TransformType) : (forwardMiddle s t m).Square s.points ∧
    (forwardMiddle s t m).Bounded (shiftBound (halfBound s bound) s.forwardScale.middle) := by
  obtain ⟨hcolumns, hscaled⟩ := bounded_forwardColumns h hfits hm
  obtain ⟨hout, hhalf⟩ := pass_forward t.vertical hcolumns hscaled hfits.columns
  exact ⟨Rows.square_transpose (hout.each _).rows, (hhalf.shift _).transpose⟩

/-- The coefficients of a residual are bounded by what its passes and shifts are bounded by. -/
theorem bounded_forwardRows (t : TransformType) : (forwardRows s t m).Square s.points ∧
    (forwardRows s t m).Bounded (forwardBound s bound) := by
  obtain ⟨hmiddle, hshifted⟩ := bounded_forwardMiddle h hfits hm t
  obtain ⟨hout, hfull⟩ := pass_forward t.horizontal hmiddle hshifted hfits.rows
  exact ⟨hout.each _, hfull.shift s.forwardScale.output⟩

end

/-! ## Buffers -/

section

variable {s : TransformSize} {t : TransformType} {residual output : Array Int}
  (hcheck : checkBlock s t residual output = .ok ()) (hroom : output.size = s.coeffs)
  {d : BitDepth} (hresidual : ∀ j < s.coeffs, (residual.getD j 0).natAbs ≤ d.maxResidual)

include hcheck hroom hresidual

theorem forwardTransform_ok : forwardTransform s t residual output =
    .ok (forwardRows s t (.ofRaster s.points residual)).flatten.toArray := by
  have hsquare := (bounded_forwardRows (Rows.square_ofRaster s.points residual)
    (fitsForward_maxResidual s d) (Rows.bounded_ofRaster hresidual) t).1
  simp only [forwardTransform]
  rw [hcheck, Rows.writeTo_eq (hsquare.length_flatten.trans hroom.symm)]
  rfl

/-- No coefficient of a residual is larger than the bound of its size. -/
theorem natAbs_of_mem_forwardTransform {coeffs : Array Int}
    (h : forwardTransform s t residual output = .ok coeffs) {x : Int} (hx : x ∈ coeffs) :
    x.natAbs ≤ forwardBound s d.maxResidual := by
  rw [forwardTransform_ok hcheck hroom hresidual] at h
  cases h
  obtain ⟨row, hrow, hx⟩ := List.mem_flatten.mp (List.mem_toArray.mp hx)
  exact (bounded_forwardRows (Rows.square_ofRaster s.points residual)
    (fitsForward_maxResidual s d) (Rows.bounded_ofRaster hresidual) t).2 row hrow x hx

end

end ResidualCodec
