/-
  ResidualCodec.Proofs.Transform.Room

  Inverse kernels of four points have room in the range of the bit depth: no
  value of theirs is more than three times as large as the inputs. As long as
  the range has room for that, nothing is wrapped, and the checked kernels give
  what the kernels compute without a range.
-/

import ResidualCodec.Proofs.Transform.Magnitude
import ResidualCodec.Proofs.Transform.Strict

namespace ResidualCodec

open Finset (range)

/-! ## Four points -/

/-- Forward kernels of four points round once. -/
theorem nearOn_forwardShort (b : Basis) :
    NearOnSmall 4 (flip (basisWeight .s4 b)) 0 (1 / 2)
      ((Kernel.forward .s4 b).network .unbounded) := by
  cases b with
  | dct => exact nearOn_forwardDct4
  | adst => exact nearOn_forwardAdst4.small

theorem nearOn_inverseShort (b : Basis) :
    NearOn 4 (basisWeight .s4 b) 0 1 ((Kernel.inverse .s4 b).network .unbounded) := by
  cases b with
  | dct => exact nearOn_inverseDct4.mono le_rfl (by norm_num)
  | adst => exact nearOn_inverseAdst4.mono le_rfl (by norm_num)

/-- No sample is weighed by more than four of the cosines of half a right angle. -/
theorem sum_abs_shortWeight_le (b : Basis) : ∀ j < 4,
    ∑ k ∈ range 4, |basisWeight .s4 b j k| ≤ 4 * cosine 16 := by
  cases b <;> decide +kernel

/-- Two weights that are one at most are not more than that. -/
theorem sum_abs_pair_le {weight : Nat → Nat → Int} (h : ∀ j k, |weight j k| ≤ 2 ^ cosineBits) :
    ∀ j < 2, ∑ k ∈ range 2, |weight j k| ≤ 4 * cosine 16 := by
  intro j _
  have hfirst := h j 0
  have hsecond := h j 1
  have hcosine : cosine 16 = 11585 := rfl
  rw [cosineBits] at hfirst hsecond
  rw [Finset.sum_range_succ, Finset.sum_range_one, hcosine]
  linarith

/-- Such weights make nothing more than three times as large. -/
theorem natAbs_le_of_nearOn {n : Nat} {weight : Nat → Nat → Int} {error : ℚ}
    {kernel : List Int → List Int} (h : NearOn n weight 0 error kernel) (herror : error ≤ 1)
    (hgain : ∀ j < n, ∑ k ∈ range n, |weight j k| ≤ 4 * cosine 16) {xs : List Int}
    (hlength : xs.length = n) {bound : Nat} (hxs : ∀ x ∈ xs, x.natAbs ≤ bound) :
    ∀ y ∈ kernel xs, y.natAbs ≤ 3 * bound + 1 := by
  intro y hy
  obtain ⟨j, hj, rfl⟩ := List.getElem_of_mem hy
  have hnear := h xs hlength
  have hjn : j < n := hnear.length ▸ hj
  have hle := hnear.abs_getD_le_of_gain le_rfl hjn (hgain j hjn) (natAbs_getD_of_mem hlength hxs)
  have hcosine : cosine 16 = 11585 := rfl
  rw [List.getD_eq_getElem _ _ hj, hcosine, zero_mul, cosineBits] at hle
  have hnat : (0 : ℚ) ≤ bound := Nat.cast_nonneg bound
  have habs : |((kernel xs)[j] : ℚ)| ≤ (3 * bound + 1 : Nat) := by
    push_cast at hle ⊢
    linarith
  rw [← Int.ofNat_le, Int.natCast_natAbs]
  exact_mod_cast habs

/-! ## Blocks -/

/-- The pass over the columns of the inverse transform of four points, without a range. -/
def shortInverseHalf (t : TransformType) (m : Rows) : Rows :=
  (m.transpose 4).pass ((Kernel.inverse .s4 t.vertical).network .unbounded)

/-- The inverse transform of four points, without a range. -/
def shortInverseRows (t : TransformType) (m : Rows) : Rows :=
  (((shortInverseHalf t m).transpose 4).pass
    ((Kernel.inverse .s4 t.horizontal).network .unbounded)).each
      fun x => roundShift x TransformSize.s4.inverseShift

/-! ## Checked kernels -/

namespace Strict

variable {d : BitDepth}

/-- Values that the range of a bit depth holds. -/
theorem keep?_ofDepth {x : Int} (h : x.natAbs < 2 ^ (d.bits + 7)) :
    (ValueRange.ofDepth d).keep? x = some x :=
  ValueRange.keep?_of_lt h

theorem mapM_keep? {ys : List Int} (h : ∀ y ∈ ys, y.natAbs < 2 ^ (d.bits + 7)) :
    ys.mapM (ValueRange.ofDepth d).keep? = some ys :=
  mapM_eq_some_self fun y hy => keep?_ofDepth (h y hy)

theorem keepEach_ofDepth {m : Rows} {bound : Nat} (hm : m.Bounded bound)
    (hroom : bound < 2 ^ (d.bits + 7)) : keepEach (.ofDepth d) m = some m :=
  mapM_eq_some_self fun row hrow => mapM_keep? fun y hy => (hm row hrow y hy).trans_lt hroom

theorem gate_eq_keep? (r : ValueRange) (xs : List Int) (g : Gate) :
    gate r xs g = r.keep? (g.eval .unbounded xs) := by
  cases g with
  | sum => rfl
  | turn => rfl

/-- A network of one stage is checked at its outputs. -/
theorem network_stage {s : Stage} {xs : List Int}
    (h : ∀ y ∈ Network.run [s] .unbounded xs, y.natAbs < 2 ^ (d.bits + 7)) :
    network (.ofDepth d) [s] xs = some (Network.run [s] .unbounded xs) := by
  have hstage : stage (.ofDepth d) s xs = some (s.run .unbounded xs) := by
    refine mapM_eq_some_map fun g hg => ?_
    rw [gate_eq_keep?]
    exact keep?_ofDepth (h _ (List.mem_map_of_mem hg))
  show (stage (.ofDepth d) s xs).bind some = _
  rw [hstage]
  rfl

theorem unfold_eq {es os : List Int}
    (h : ∀ y ∈ ResidualCodec.unfold .unbounded es os, y.natAbs < 2 ^ (d.bits + 7)) :
    unfold (.ofDepth d) es os = some (ResidualCodec.unfold .unbounded es os) := by
  have hsums : ∀ y ∈ List.zipWith (· + ·) es os, y.natAbs < 2 ^ (d.bits + 7) :=
    fun y hy => h y (List.mem_append_left _ hy)
  have hdifferences : ∀ y ∈ List.zipWith (· - ·) es os, y.natAbs < 2 ^ (d.bits + 7) :=
    fun y hy => h y (List.mem_append_right _ (List.mem_reverse.mpr hy))
  rw [unfold, mapM_keep? hsums, Option.bind_eq_bind, Option.bind_some, mapM_keep? hdifferences]
  rfl

section

variable {b : Basis} {xs : List Int} (hlength : xs.length = 4) {bound : Nat}
  (hxs : ∀ x ∈ xs, x.natAbs ≤ bound) (hroom : 3 * bound + 1 < 2 ^ (d.bits + 7))

include hlength hxs hroom

theorem inverseNetwork_eq : inverseNetwork .s4 b (.ofDepth d) xs =
    some ((Kernel.inverse .s4 b).network .unbounded xs) := by
  have hout : ∀ y ∈ (Kernel.inverse .s4 b).network .unbounded xs, y.natAbs < 2 ^ (d.bits + 7) :=
    fun y hy => (natAbs_le_of_nearOn (nearOn_inverseShort b) le_rfl (sum_abs_shortWeight_le b)
      hlength hxs y hy).trans_lt hroom
  cases b with
  | dct =>
    match xs, hlength with
    | [w, x, y, z], _ =>
      have hevens : ∀ v ∈ [w, y], v.natAbs ≤ bound := by
        intro v hv
        exact hxs v (by grind)
      have hodds : ∀ v ∈ [x, z], v.natAbs ≤ bound := by
        intro v hv
        exact hxs v (by grind)
      have heven := natAbs_le_of_nearOn nearOn_dctPair (by norm_num)
        (sum_abs_pair_le (abs_cosineWeight_le 2)) rfl hevens
      have hodd := natAbs_le_of_nearOn nearOn_dctOdd2 (by norm_num)
        (sum_abs_pair_le fun _ _ => abs_cosineAt_le _) rfl hodds
      show double (fun r => network r dctPair) dctOdd2 (.ofDepth d) [w, x, y, z] = _
      simp only [double, evens, odds]
      rw [dctPair, network_stage fun v hv => (heven v hv).trans_lt hroom, Option.bind_eq_bind,
        Option.bind_some, dctOdd2, network_stage fun v hv => (hodd v hv).trans_lt hroom,
        Option.bind_some]
      exact unfold_eq hout
  | adst => exact network_stage hout

/-- With room for three times the inputs nothing is wrapped, and nothing is cut to 32 bits. -/
theorem inverseKernel_eq : inverseKernel .s4 b (.ofDepth d) xs =
    some ((Kernel.inverse .s4 b).network .unbounded xs) := by
  have hword : 2 ^ (d.bits + 7) ≤ max32 := by cases d <;> decide
  have hfits : ∀ y ∈ (Kernel.inverse .s4 b).network .unbounded xs, y.natAbs ≤ max32 := by
    intro y hy
    have hle := natAbs_le_of_nearOn (nearOn_inverseShort b) le_rfl (sum_abs_shortWeight_le b)
      hlength hxs y hy
    omega
  have htake : xs.take TransformSize.s4.points = xs := List.take_of_length_le hlength.le
  rw [inverseKernel, htake, words, inverseNetwork_eq hlength hxs hroom, Option.map_some,
    map_truncate32_of_le hfits]

/-- A kernel makes zeros of zeros, so it does not matter that they are passed over. -/
theorem nonzero_inverseKernel_eq : nonzero (inverseKernel .s4 b (.ofDepth d)) xs =
    some ((Kernel.inverse .s4 b).network .unbounded xs) := by
  simp only [nonzero]
  split
  case isTrue hzero =>
    have hzeros : xs = [0, 0, 0, 0] := by
      refine List.eq_replicate_iff.mpr ⟨hlength, ?_⟩
      intro x hx
      exact eq_of_beq (List.all_eq_true.mp hzero x hx)
    rw [hzeros]
    cases b <;> rfl
  case isFalse => exact inverseKernel_eq hlength hxs hroom

end

/-! ## Checked blocks -/

/-- With room for three times the coefficients, and for three times the outputs of the first pass,
nothing is wrapped. -/
theorem inverseRows_eq {t : TransformType} {m : Rows} (h : m.Square 4) {bound : Nat}
    (hm : m.Bounded bound) (hhalf : (shortInverseHalf t m).Bounded bound)
    (hroom : 3 * bound + 1 < 2 ^ (d.bits + 7)) :
    inverseRows .s4 t d m = some (shortInverseRows t m) := by
  have hcolumns := Rows.square_transpose h.rows
  have hhalfSquare : (shortInverseHalf t m).Square 4 :=
    hcolumns.pass fun row hrow => (nearOn_inverseShort t.vertical row hrow).length
  have hrows := Rows.square_transpose hhalfSquare.rows
  have hfull : (((shortInverseHalf t m).transpose 4).pass
      ((Kernel.inverse .s4 t.horizontal).network .unbounded)).Bounded (3 * bound + 1) :=
    hhalf.transpose.pass fun row hmem hrow =>
      natAbs_le_of_nearOn (nearOn_inverseShort t.horizontal) le_rfl
        (sum_abs_shortWeight_le t.horizontal) (hrows.cols row hmem) hrow
  have hfirst : (m.transpose 4).mapM (nonzero (inverseKernel .s4 t.vertical (.ofDepth d))) =
      some (shortInverseHalf t m) :=
    mapM_eq_some_map fun row hmem =>
      nonzero_inverseKernel_eq (hcolumns.cols row hmem) (hm.transpose row hmem) hroom
  have hsecond : ((shortInverseHalf t m).transpose 4).mapM
      (inverseKernel .s4 t.horizontal (.ofDepth d)) =
      some (((shortInverseHalf t m).transpose 4).pass
        ((Kernel.inverse .s4 t.horizontal).network .unbounded)) :=
    mapM_eq_some_map fun row hmem =>
      inverseKernel_eq (hrows.cols row hmem) (hhalf.transpose row hmem) hroom
  have hshift : shiftBound (3 * bound + 1) TransformSize.s4.inverseShift < 2 ^ (d.bits + 7) := by
    simp only [shiftBound, TransformSize.inverseShift]
    omega
  simp only [inverseRows, TransformSize.points]
  rw [keepEach_ofDepth hm (by omega), Option.bind_eq_bind, Option.bind_some, hfirst,
    Option.bind_some, hsecond, Option.bind_some, keepEach_ofDepth (hfull.shift _) hshift]
  rfl

end Strict

end ResidualCodec
