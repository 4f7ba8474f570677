/-
  ResidualCodec.Proofs.Transform.Hadamard

  The lossless transform loses nothing: every lifting step is undone exactly,
  whatever its halves are rounded to and whether or not a sum was wrapped. As
  long as no sum is wrapped, a pass doubles magnitudes at most, so that
  coefficients are multiples of the unit step and at most sixteen times as large
  as the samples.
-/

import ResidualCodec.Proofs.Transform.Rounding
import ResidualCodec.Residual

namespace ResidualCodec

/-! ## Lifting -/

theorem length_liftForward {row : List Int} (h : row.length = 4) :
    (liftForward row).length = 4 := by
  match row, h with
  | [_, _, _, _], _ => rfl

theorem length_liftInverse {row : List Int} (h : row.length = 4) :
    (liftInverse row).length = 4 := by
  match row, h with
  | [_, _, _, _], _ => rfl

/-- The inverse pass finds the same half as the forward pass, and takes it back. -/
theorem liftInverse_liftForward {row : List Int} (h : row.length = 4)
    (hrow : ∀ x ∈ row, x.natAbs ≤ max32) : liftInverse (liftForward row) = row := by
  match row, h with
  | [a, b, c, d], _ =>
    have ha : truncate32 a = a := truncate32_of_le (hrow a (by simp))
    have hb : truncate32 b = b := truncate32_of_le (hrow b (by simp))
    have hc : truncate32 c = c := truncate32_of_le (hrow c (by simp))
    have hd : truncate32 d = d := truncate32_of_le (hrow d (by simp))
    simp only [liftForward, liftInverse, truncate32_sub_add, truncate32_add_sub,
      truncate32_sub_sub, truncate32_truncate32, ha, hb, hc, hd]

/-- No sum of a pass is more than four times as large as its inputs, so that with room for that
none is wrapped. -/
theorem liftForward_of_le {a b c d : Int} {bound : Nat} (hbound : 4 * bound ≤ max32)
    (hrow : ∀ x ∈ [a, b, c, d], x.natAbs ≤ bound) :
    liftForward [a, b, c, d] =
      let e := halfDown (a + b - (d - c))
      [a + b - (e - c), e - c, d - c + (e - b), e - b] := by
  have ha := hrow a (by simp)
  have hb := hrow b (by simp)
  have hc := hrow c (by simp)
  have hd := hrow d (by simp)
  have hsum : truncate32 (a + b) = a + b := truncate32_of_le (by omega)
  have hdifference : truncate32 (d - c) = d - c := truncate32_of_le (by omega)
  have hboth : truncate32 (a + b - (d - c)) = a + b - (d - c) := truncate32_of_le (by omega)
  simp only [liftForward, hsum, hdifference, hboth, halfDown]
  generalize he : (a + b - (d - c)) / 2 = e
  have hfirst : truncate32 (e - b) = e - b := truncate32_of_le (by omega)
  have hsecond : truncate32 (e - c) = e - c := truncate32_of_le (by omega)
  rw [hfirst, hsecond, truncate32_of_le (by omega), truncate32_of_le (by omega)]

/-- A pass doubles magnitudes at most: each output is half a signed sum of the four inputs. -/
theorem natAbs_liftForward {row : List Int} (h : row.length = 4) {bound : Nat}
    (hbound : 4 * bound ≤ max32) (hrow : ∀ x ∈ row, x.natAbs ≤ bound) :
    ∀ x ∈ liftForward row, x.natAbs ≤ 2 * bound := by
  match row, h with
  | [a, b, c, d], _ =>
    have ha := hrow a (by simp)
    have hb := hrow b (by simp)
    have hc := hrow c (by simp)
    have hd := hrow d (by simp)
    intro x hx
    rw [liftForward_of_le hbound hrow] at hx
    simp only [halfDown, List.mem_cons, List.not_mem_nil, or_false] at hx
    rcases hx with rfl | rfl | rfl | rfl
    · omega
    · omega
    · omega
    · omega

/-! ## Blocks -/

/-- Coefficients of four rows of samples, before they are scaled. -/
def liftedRows (m : Rows) : Rows :=
  (((m.transpose 4).pass liftForward).transpose 4).pass liftForward

section

variable {m : Rows}

theorem square_half (h : m.Square 4) :
    (((m.transpose 4).pass liftForward).transpose 4).Square 4 := by
  have hcolumns : (m.transpose 4).Square 4 := Rows.square_transpose h.rows
  exact Rows.square_transpose (hcolumns.pass fun _ => length_liftForward).rows

theorem square_liftedRows (h : m.Square 4) : (liftedRows m).Square 4 :=
  (square_half h).pass fun _ => length_liftForward

theorem square_forwardHadamardRows (h : m.Square 4) : (forwardHadamardRows m).Square 4 :=
  (square_liftedRows h).each _

variable (h : m.Square 4) {bound : Nat} (hm : m.Bounded bound)

include h hm

theorem pass_liftForward_liftInverse (hbound : bound ≤ max32) :
    (m.pass liftForward).pass liftInverse = m := by
  apply Rows.pass_pass
  intro row hrow
  exact liftInverse_liftForward (h.cols row hrow) fun x hx => (hm row hrow x hx).trans hbound

theorem bounded_half (hbound : 4 * bound ≤ max32) :
    (((m.transpose 4).pass liftForward).transpose 4).Bounded (2 * bound) := by
  have hcolumns : (m.transpose 4).Square 4 := Rows.square_transpose h.rows
  refine Rows.Bounded.transpose (hm.transpose.pass ?_)
  intro row hrow
  exact natAbs_liftForward (hcolumns.cols row hrow) hbound

/-- Two passes, each of which doubles magnitudes at most. -/
theorem bounded_liftedRows (hbound : 8 * bound ≤ max32) : (liftedRows m).Bounded (4 * bound) := by
  have hfull : (liftedRows m).Bounded (2 * (2 * bound)) := by
    apply (bounded_half h hm (by omega)).pass
    intro row hrow
    exact natAbs_liftForward ((square_half h).cols row hrow) (by omega)
  rwa [← Nat.mul_assoc] at hfull

theorem pass_liftedRows (hbound : 4 * bound ≤ max32) :
    (liftedRows m).pass liftInverse = ((m.transpose 4).pass liftForward).transpose 4 :=
  pass_liftForward_liftInverse (square_half h) (bounded_half h hm hbound) (by omega)

variable (hbound : 16 * bound ≤ max32)

include hbound

/-- The largest product is the coefficient itself, at sixteen times the samples. -/
theorem forwardHadamardRows_eq : forwardHadamardRows m = (liftedRows m).each (· * unitStep) := by
  have hlifted := bounded_liftedRows h hm (by omega)
  refine List.map_congr_left fun row hrow => List.map_congr_left fun x hx => ?_
  have hle := hlifted row hrow x hx
  apply truncate32_of_le
  simp only [unitStep]
  omega

theorem unscale_forwardHadamardRows :
    (forwardHadamardRows m).each (· / unitStep) = liftedRows m := by
  rw [forwardHadamardRows_eq h hm hbound]
  exact Rows.each_each_eq fun _ _ x _ => Int.mul_ediv_cancel x (by decide)

/-- The inverse transform undoes the scale, then the rows, then the columns. -/
theorem inverseHadamardRows_forwardHadamardRows :
    inverseHadamardRows (forwardHadamardRows m) = m := by
  have hcolumns : (m.transpose 4).Square 4 := Rows.square_transpose h.rows
  have hlifted : ((m.transpose 4).pass liftForward).Square 4 :=
    hcolumns.pass fun _ => length_liftForward
  simp only [inverseHadamardRows]
  rw [unscale_forwardHadamardRows h hm hbound, pass_liftedRows h hm (by omega),
    hlifted.transpose_transpose, pass_liftForward_liftInverse hcolumns hm.transpose (by omega),
    h.transpose_transpose]

/-- Coefficients are multiples of the unit step, and few of them. -/
theorem exists_of_mem_forwardHadamardRows {x : Int} (hx : x ∈ (forwardHadamardRows m).flatten) :
    ∃ k : Int, x = k * unitStep ∧ k.natAbs ≤ 4 * bound := by
  obtain ⟨row, hrow, hx⟩ := List.mem_flatten.mp hx
  rw [forwardHadamardRows_eq h hm hbound] at hrow
  obtain ⟨lifted, hlifted, rfl⟩ := List.mem_map.mp hrow
  obtain ⟨k, hk, rfl⟩ := List.mem_map.mp hx
  exact ⟨k, rfl, bounded_liftedRows h hm (by omega) lifted hlifted k hk⟩

end

/-! ## Buffers -/

section

variable {residual coeffs output : Array Int}

theorem forwardHadamard_ok (hsize : 16 ≤ residual.size) (hroom : output.size = 16) :
    forwardHadamard residual output =
      .ok (forwardHadamardRows (.ofRaster 4 residual)).flatten.toArray := by
  have hsquare := square_forwardHadamardRows (Rows.square_ofRaster 4 residual)
  simp only [forwardHadamard]
  rw [if_neg (by omega), Rows.writeTo_eq (hsquare.length_flatten.trans hroom.symm)]

variable (hsize : 16 ≤ residual.size) (h : forwardHadamard residual (zeroBlock .s4) = .ok coeffs)

include hsize h

theorem size_of_forwardHadamard : coeffs.size = 16 := by
  have hroom : (zeroBlock .s4).size = 16 := Array.size_replicate
  rw [forwardHadamard_ok hsize hroom] at h
  cases h
  exact (square_forwardHadamardRows (Rows.square_ofRaster 4 residual)).length_flatten

variable {bound : Nat} (hresidual : ∀ j < 16, (residual.getD j 0).natAbs ≤ bound)
  (hbound : 16 * bound ≤ max32)

include hresidual hbound

theorem exists_of_mem_forwardHadamard {x : Int} (hx : x ∈ coeffs) :
    ∃ k : Int, x = k * unitStep ∧ k.natAbs ≤ 4 * bound := by
  have hroom : (zeroBlock .s4).size = 16 := Array.size_replicate
  rw [forwardHadamard_ok hsize hroom] at h
  cases h
  exact exists_of_mem_forwardHadamardRows (Rows.square_ofRaster 4 residual)
    (Rows.bounded_ofRaster hresidual) hbound (List.mem_toArray.mp hx)

omit hsize h hresidual in
/-- Coefficients of zero give samples of zero, whether or not the block says that it is empty. -/
theorem inverseHadamard_ok {m : Rows} (h : m.Square 4) (hm : m.Bounded bound) {eob : Nat}
    (hzero : eob = 0 → ∀ x ∈ (forwardHadamardRows m).flatten, x = 0) :
    inverseHadamard (forwardHadamardRows m).flatten.toArray (zeroBlock .s4) eob =
      .ok m.flatten.toArray := by
  have hsquare := square_forwardHadamardRows h
  have hsize : (forwardHadamardRows m).flatten.toArray.size = 16 := hsquare.length_flatten
  have hroom : (zeroBlock .s4).size = 16 := Array.size_replicate
  have hback := inverseHadamardRows_forwardHadamardRows h hm hbound
  simp only [inverseHadamard]
  rw [if_neg (by omega), hsquare.ofRaster_flatten, hback]
  split
  case isTrue hempty =>
    have hzeros : forwardHadamardRows m = List.replicate 4 (List.replicate 4 0) := by
      refine List.eq_replicate_iff.mpr ⟨hsquare.rows, ?_⟩
      intro row hrow
      refine List.eq_replicate_iff.mpr ⟨hsquare.cols row hrow, ?_⟩
      intro x hx
      exact hzero hempty x (List.mem_flatten_of_mem hrow hx)
    rw [hzeros] at hback ⊢
    rw [← hback]
    rfl
  case isFalse => rw [Rows.writeTo_eq (h.length_flatten.trans hroom.symm)]

/-- The first 16 samples come back from their coefficients. -/
theorem inverseHadamard_forwardHadamard {eob : Nat}
    (hzero : eob = 0 → ∀ x ∈ coeffs, x = 0) :
    inverseHadamard coeffs (zeroBlock .s4) eob = .ok (residual.extract 0 16) := by
  have hroom : (zeroBlock .s4).size = 16 := Array.size_replicate
  rw [forwardHadamard_ok hsize hroom] at h
  cases h
  rw [inverseHadamard_ok hbound (Rows.square_ofRaster 4 residual) (Rows.bounded_ofRaster hresidual),
    Rows.flatten_ofRaster hsize]
  · congr 1
    rw [← Array.toList_inj, Array.toList_extract]
    rfl
  · intro hempty x hx
    exact hzero hempty x (List.mem_toArray.mpr hx)

end

end ResidualCodec
