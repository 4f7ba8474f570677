/-
  ResidualCodec.Proofs.Transform.Resemblance

  Blocks next to rational matrices. What is done to a block is done to a matrix:
  transposing, a pass of a kernel, a rounding shift. The distance of the entries
  is carried along, multiplied by the largest row of the kernel and added to by
  every rounding.
-/

import Mathlib.Algebra.BigOperators.Fin
import Mathlib.Data.Matrix.Mul
import ResidualCodec.Proofs.Transform.Estimate

namespace ResidualCodec

open Matrix

/-! ## Bounds of matrices -/

section

variable {n : Nat} {a b : Matrix (Fin n) (Fin n) ℚ} {bound bound' gain : ℚ}

/-- Bound of the entries. -/
def EntryBound (bound : ℚ) (a : Matrix (Fin n) (Fin n) ℚ) : Prop := ∀ y x, |a y x| ≤ bound

/-- Bound of the magnitudes of a row, taken together. -/
def RowGain (gain : ℚ) (a : Matrix (Fin n) (Fin n) ℚ) : Prop := ∀ y, ∑ x, |a y x| ≤ gain

instance : Decidable (RowGain gain a) := inferInstanceAs (Decidable (∀ y, ∑ x, |a y x| ≤ gain))

theorem EntryBound.add (ha : EntryBound bound a) (hb : EntryBound bound' b) :
    EntryBound (bound + bound') (a + b) :=
  fun y x => (abs_add_le _ _).trans (add_le_add (ha y x) (hb y x))

theorem EntryBound.smul (ha : EntryBound bound a) (c : ℚ) : EntryBound (|c| * bound) (c • a) := by
  intro y x
  rw [Matrix.smul_apply, smul_eq_mul, abs_mul]
  exact mul_le_mul_of_nonneg_left (ha y x) (abs_nonneg c)

theorem EntryBound.mono (ha : EntryBound bound a) (h : bound ≤ bound') : EntryBound bound' a :=
  fun y x => (ha y x).trans h

/-- A product is bounded by the rows of its first factor. -/
theorem EntryBound.mul (ha : RowGain gain a) (hb : EntryBound bound b) :
    EntryBound (gain * bound) (a * b) := by
  intro y x
  have hpos : 0 ≤ bound := (abs_nonneg _).trans (hb y x)
  rw [Matrix.mul_apply]
  calc |∑ k, a y k * b k x|
      ≤ ∑ k, |a y k * b k x| := Finset.abs_sum_le_sum_abs _ _
    _ ≤ ∑ k, |a y k| * bound := by
        refine Finset.sum_le_sum fun k _ => ?_
        rw [abs_mul]
        exact mul_le_mul_of_nonneg_left (hb k x) (abs_nonneg _)
    _ = (∑ k, |a y k|) * bound := (Finset.sum_mul _ _ _).symm
    _ ≤ gain * bound := mul_le_mul_of_nonneg_right (ha y) hpos

/-- A product is bounded by the columns of its second factor. -/
theorem EntryBound.mul_transpose (ha : EntryBound bound a) (hb : RowGain gain b) :
    EntryBound (gain * bound) (a * bᵀ) := by
  intro y x
  have hle := EntryBound.mul (b := aᵀ) hb (fun y x => ha x y) x y
  rwa [← Matrix.transpose_apply (b * aᵀ), Matrix.transpose_mul, Matrix.transpose_transpose] at hle

end

/-! ## Entries -/

section

variable {n : Nat} {m : Rows}

theorem Rows.entry_each {f : Int → Int} (hf : f 0 = 0) (y x : Nat) :
    (m.each f).entry y x = f (m.entry y x) := by
  simp only [Rows.entry, Rows.each]
  rw [← List.map_nil (f := f), List.getD_map]
  exact getD_map_of_zero hf _ x

theorem Rows.entry_pass {kernel : List Int → List Int} {y : Nat} (hy : y < m.length) (x : Nat) :
    (m.pass kernel).entry y x = (kernel (m.getD y [])).getD x 0 := by
  have hlength : y < (m.map kernel).length := by rwa [List.length_map]
  simp only [Rows.entry, Rows.pass]
  rw [List.getD_eq_getElem _ _ hlength, List.getElem_map, List.getD_eq_getElem _ _ hy]

theorem Rows.Bounded.natAbs_entry {bound : Nat} (h : m.Bounded bound) (y x : Nat) :
    (m.entry y x).natAbs ≤ bound := by
  simp only [Rows.entry]
  rw [List.getD_eq_getElem?_getD, List.getD_eq_getElem?_getD]
  cases hrow : m[y]? with
  | none => exact Nat.zero_le _
  | some row =>
    rw [Option.getD_some]
    cases hvalue : row[x]? with
    | none => exact Nat.zero_le _
    | some v => exact h row (List.mem_of_getElem? hrow) v (List.mem_of_getElem? hvalue)

theorem Rows.Square.bounded {bound : Nat} (h : m.Square n)
    (hentry : ∀ y < n, ∀ x < n, (m.entry y x).natAbs ≤ bound) : m.Bounded bound := by
  intro row hrow v hv
  obtain ⟨y, hy, rfl⟩ := List.getElem_of_mem hrow
  obtain ⟨x, hx, rfl⟩ := List.getElem_of_mem hv
  rw [← Rows.entry_eq_getElem hy hx]
  exact hentry y (h.rows ▸ hy) x (h.cols _ hrow ▸ hx)

/-- Entries of a block, as a matrix. -/
def Rows.matrix (n : Nat) (m : Rows) : Matrix (Fin n) (Fin n) ℚ := .of fun y x => (m.entry y x : ℚ)

theorem Rows.Bounded.matrix {bound : Nat} (h : m.Bounded bound) :
    EntryBound bound (m.matrix n) := by
  intro y x
  have hle : |m.entry y x| ≤ bound := by
    rw [Int.abs_eq_natAbs]
    exact_mod_cast h.natAbs_entry y x
  show |(m.entry y x : ℚ)| ≤ bound
  exact_mod_cast hle

/-- A matrix of 14-bit entries. -/
def weightMatrix (n : Nat) (weight : Nat → Nat → Int) : Matrix (Fin n) (Fin n) ℚ :=
  .of fun j k => (weight j k : ℚ) / 2 ^ cosineBits

/-- The rows of a block, each multiplied by the matrix. -/
theorem rowSum_div_eq (weight : Nat → Nat → Int) (y x : Fin n) :
    (rowSum n weight (m.getD y []) x : ℚ) / 2 ^ cosineBits =
      (m.matrix n * (weightMatrix n weight)ᵀ) y x := by
  rw [rowSum_div, Matrix.mul_apply, Finset.sum_range]
  exact Finset.sum_congr rfl fun k _ => mul_comm _ _

end

/-! ## Resemblance -/

/-- A block whose entries are within a distance of those of a matrix. -/
structure Rows.Resembles {n : Nat} (m : Rows) (error : ℚ) (a : Matrix (Fin n) (Fin n) ℚ) :
    Prop where
  square : m.Square n
  near : EntryBound error (m.matrix n - a)

namespace Rows.Resembles

variable {n : Nat} {m : Rows} {error : ℚ} {a : Matrix (Fin n) (Fin n) ℚ}

theorem mono (h : m.Resembles error a) {error' : ℚ} (herror : error ≤ error') :
    m.Resembles error' a := ⟨h.square, h.near.mono herror⟩

theorem transpose (h : m.Resembles error a) : (m.transpose n).Resembles error aᵀ := by
  refine ⟨square_transpose h.square.rows, ?_⟩
  intro y x
  have hentry : (m.transpose n).entry y x = m.entry x y :=
    entry_transpose y.isLt (x.isLt.trans_eq h.square.rows.symm)
  show |(((m.transpose n).entry y x : Int) : ℚ) - a x y| ≤ error
  rw [hentry]
  exact h.near x y

/-- Samples in whole numbers, multiplied without being cut to 32 bits. -/
theorem scale (h : m.Square n) {bound : Nat} (hm : m.Bounded bound) {k : Nat}
    (hmax : bound * k ≤ max32) :
    (m.each fun x => truncate32 (x * k)).Resembles 0 ((k : ℚ) • m.matrix n) := by
  refine ⟨h.each _, ?_⟩
  intro y x
  have hle : (m.entry y x * k).natAbs ≤ max32 := by
    rw [Int.natAbs_mul, Int.natAbs_natCast]
    exact (Nat.mul_le_mul_right k (hm.natAbs_entry y x)).trans hmax
  have hentry : (m.each fun x => truncate32 (x * k)).entry y x = m.entry y x * k := by
    rw [entry_each (by rw [Int.zero_mul]; rfl), truncate32_of_le hle]
  show |(((m.each fun x => truncate32 (x * k)).entry y x : Int) : ℚ) - k * m.entry y x| ≤ 0
  rw [hentry, Int.cast_mul, Int.cast_natCast, mul_comm, sub_self, abs_zero]

theorem shift (h : m.Resembles error a) (bits : Nat) :
    (m.each fun x => roundShift x bits).Resembles (error / 2 ^ bits + 1 / 2)
      ((1 / 2 ^ bits : ℚ) • a) := by
  have hpos : (0 : ℚ) < 2 ^ bits := by positivity
  refine ⟨h.square.each _, ?_⟩
  intro y x
  show |(((m.each fun x => roundShift x bits).entry y x : Int) : ℚ) - 1 / 2 ^ bits * a y x| ≤ _
  rw [entry_each (roundShift_zero bits)]
  calc |(roundShift (m.entry y x) bits : ℚ) - 1 / 2 ^ bits * a y x|
      ≤ |(roundShift (m.entry y x) bits : ℚ) - m.entry y x / 2 ^ bits| +
          |m.entry y x / 2 ^ bits - 1 / 2 ^ bits * a y x| := abs_sub_le _ _ _
    _ = |(roundShift (m.entry y x) bits : ℚ) - m.entry y x / 2 ^ bits| +
          |m.entry y x - a y x| / 2 ^ bits := by
        rw [one_div_mul_eq_div, ← sub_div, abs_div, abs_of_pos hpos]
    _ ≤ error / 2 ^ bits + 1 / 2 := by
        rw [add_comm]
        exact add_le_add (div_le_div_of_nonneg_right (h.near y x) hpos.le)
          (abs_roundShift_sub_le _ bits)

/-- A pass multiplies by the matrix of its kernel. -/
theorem pass (h : m.Resembles error a) {weight : Nat → Nat → Int} {gain rounding : ℚ}
    (hgain : RowGain gain (weightMatrix n weight)) {kernel : List Int → List Int}
    (hkernel : ∀ row ∈ m, Near n weight 0 rounding row (kernel row)) :
    (m.pass kernel).Resembles (gain * error + rounding) (a * (weightMatrix n weight)ᵀ) := by
  refine ⟨⟨(List.length_map _).trans h.square.rows, ?_⟩, ?_⟩
  · intro row hrow
    obtain ⟨row, hmem, rfl⟩ := List.mem_map.mp hrow
    exact (hkernel row hmem).length
  · intro y x
    have hy : (y : Nat) < m.length := y.isLt.trans_eq h.square.rows.symm
    have hmem : m.getD y [] ∈ m := by
      rw [List.getD_eq_getElem _ _ hy]
      exact List.getElem_mem hy
    have hrow := (hkernel _ hmem).near x x.isLt
    rw [zero_mul, zero_add, rowSum_div_eq, ← entry_pass hy] at hrow
    have hmatrix := h.near.mul_transpose hgain y x
    rw [Matrix.sub_mul, Matrix.sub_apply] at hmatrix
    show |(((m.pass kernel).entry y x : Int) : ℚ) - (a * (weightMatrix n weight)ᵀ) y x| ≤ _
    rw [add_comm]
    exact (abs_sub_le _ _ _).trans (add_le_add hrow hmatrix)

/-- What resembles a bounded matrix is bounded. -/
theorem bounded (h : m.Resembles error a) {limit : ℚ} (ha : EntryBound limit a) {bound : Nat}
    (hbound : limit + error ≤ bound) : m.Bounded bound := by
  refine h.square.bounded ?_
  intro y hy x hx
  have hnear : |(m.entry y x : ℚ) - a ⟨y, hy⟩ ⟨x, hx⟩| ≤ error := h.near ⟨y, hy⟩ ⟨x, hx⟩
  have hle : |(m.entry y x : ℚ)| ≤ bound := by
    calc |(m.entry y x : ℚ)|
        = |(m.entry y x - a ⟨y, hy⟩ ⟨x, hx⟩) + a ⟨y, hy⟩ ⟨x, hx⟩| := by rw [sub_add_cancel]
      _ ≤ |m.entry y x - a ⟨y, hy⟩ ⟨x, hx⟩| + |a ⟨y, hy⟩ ⟨x, hx⟩| := abs_add_le _ _
      _ ≤ error + limit := add_le_add hnear (ha _ _)
      _ ≤ bound := by rwa [add_comm]
  rw [← Int.ofNat_le, Int.natCast_natAbs]
  exact_mod_cast hle

end Rows.Resembles

end ResidualCodec
