/-
  ResidualCodec.Proofs.Transform.Zero

  Blocks of zeros. Every step of a forward transform keeps them: each is linear
  up to rounding, and zero is not rounded. No output buffer of zeros is changed
  by writing them over it.
-/

import ResidualCodec.Proofs.Transform.Rounding
import ResidualCodec.Residual

namespace ResidualCodec

namespace Rows

variable {n : Nat} {m : Rows}

/-- The block of zeros. -/
def zero (n : Nat) : Rows := List.replicate n (List.replicate n 0)

theorem square_zero (n : Nat) : Square n (zero n) := by
  refine ⟨List.length_replicate, ?_⟩
  intro row hrow
  rw [List.eq_of_mem_replicate hrow, List.length_replicate]

theorem entry_zero {y x : Nat} (hy : y < n) (hx : x < n) : (zero n).entry y x = 0 := by
  simp only [entry, zero]
  rw [List.getD_replicate _ hy, List.getD_replicate _ hx]

theorem ofRaster_eq_zero {xs : Array Int} (h : ∀ j < n * n, xs.getD j 0 = 0) :
    ofRaster n xs = zero n := by
  apply (square_ofRaster n xs).ext (square_zero n)
  intro y hy x hx
  rw [entry_ofRaster xs hy hx, entry_zero hy hx]
  exact h _ (ScanKind.raster_lt (p := (y, x)) hy hx)

theorem transpose_zero (n : Nat) : (zero n).transpose n = zero n := by
  apply (square_transpose (square_zero n).rows).ext (square_zero n)
  intro y hy x hx
  rw [entry_transpose hy (by rwa [(square_zero n).rows]), entry_zero hx hy, entry_zero hy hx]

theorem pass_zero {kernel : List Int → List Int}
    (h : kernel (List.replicate n 0) = List.replicate n 0) : (zero n).pass kernel = zero n := by
  simp only [pass, zero]
  rw [List.map_replicate, h]

theorem each_zero {f : Int → Int} (h : f 0 = 0) : (zero n).each f = zero n := by
  apply pass_zero
  rw [List.map_replicate, h]

theorem shift_zero (n bits : Nat) : ((zero n).each fun x => roundShift x bits) = zero n :=
  each_zero (roundShift_zero bits)

theorem scale_zero (n factor : Nat) :
    ((zero n).each fun x => truncate32 (x * factor)) = zero n := by
  apply each_zero
  rw [Int.zero_mul]
  rfl

/-- Any block with its entries cleared. -/
theorem Square.each_eq_zero (h : Square n m) : (m.each fun _ => 0) = zero n := by
  refine List.eq_replicate_iff.mpr ⟨(h.each _).rows, ?_⟩
  intro row hrow
  obtain ⟨row, hmem, rfl⟩ := List.mem_map.mp hrow
  rw [List.map_const', h.cols row hmem]

end Rows

theorem writeTo_zeroBlock (s : TransformSize) :
    (Rows.zero s.points).writeTo (zeroBlock s) = zeroBlock s := by
  have hflatten : (Rows.zero s.points).flatten = List.replicate s.coeffs 0 :=
    List.flatten_replicate_replicate
  rw [Rows.writeTo_eq (by rw [hflatten, List.length_replicate]; exact Array.size_replicate.symm),
    hflatten, List.toArray_replicate]
  rfl

/-! ## Forward transforms -/

theorem run_forward_zero (s : TransformSize) (b : Basis) :
    (Kernel.forward s b).run .unbounded (List.replicate s.points 0) =
      List.replicate s.points 0 := by
  cases s <;> cases b <;> decide +kernel

theorem forwardRows_zero (s : TransformSize) (t : TransformType) :
    forwardRows s t (.zero s.points) = .zero s.points := by
  simp only [forwardRows]
  rw [Rows.scale_zero, Rows.transpose_zero, Rows.pass_zero (run_forward_zero s _),
    Rows.shift_zero, Rows.transpose_zero, Rows.pass_zero (run_forward_zero s _), Rows.shift_zero]

theorem forwardHadamardRows_zero : forwardHadamardRows (.zero 4) = .zero 4 := by
  decide +kernel

end ResidualCodec
