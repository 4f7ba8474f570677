/-
  ResidualCodec.Proofs.Transform.Sine

  The fast sine transforms of 8 and 16 points compute the sine matrix. The
  matrix is symmetric, and one network serves both directions. Those of 4 points
  are one stage each, with the weights of a matrix and of its transpose.
-/

import ResidualCodec.Proofs.Transform.Angle
import ResidualCodec.Proofs.Transform.Estimate
import ResidualCodec.Transform.Block

namespace ResidualCodec

open Finset (range)

/-! ## Real matrices -/

/-- What is near to a matrix of 14-bit entries is also near to the real matrix that the entries
stand for. -/
theorem Near.abs_sub_sum_le {n : Nat} {weight : Nat → Nat → Int} {error : ℚ} {xs ys : List Int}
    (h : Near n weight networkDeviation error xs ys) {entry : Nat → Nat → ℝ}
    (hentry : ∀ j < n, ∀ k < n,
      |(weight j k : ℝ) / 2 ^ cosineBits - entry j k| ≤ 3 / 2 ^ cosineBits) {j : Nat} (hj : j < n) :
    |(ys.getD j 0 : ℝ) - ∑ k ∈ range n, entry j k * xs.getD k 0| ≤
      (mass n xs : ℝ) / 2 ^ 10 + error := by
  have hnear : |(ys.getD j 0 : ℝ) - rowSum n weight xs j / 2 ^ cosineBits| ≤
      2 / 2 ^ 14 * mass n xs + error := by
    have hcast := Rat.cast_le (K := ℝ).mpr (h.near j hj)
    rw [networkDeviation] at hcast
    push_cast at hcast
    exact hcast
  have hmatrix : |(rowSum n weight xs j : ℝ) / 2 ^ cosineBits -
      ∑ k ∈ range n, entry j k * xs.getD k 0| ≤ 3 / 2 ^ cosineBits * mass n xs := by
    rw [rowSum_div, cast_mass]
    exact abs_sum_mul_sub_le (hentry j hj) _
  have hmass : (0 : ℝ) ≤ mass n xs := by exact_mod_cast mass_nonneg n xs
  calc |(ys.getD j 0 : ℝ) - ∑ k ∈ range n, entry j k * xs.getD k 0|
      ≤ |(ys.getD j 0 : ℝ) - rowSum n weight xs j / 2 ^ cosineBits| +
          |(rowSum n weight xs j : ℝ) / 2 ^ cosineBits -
            ∑ k ∈ range n, entry j k * xs.getD k 0| := abs_sub_le _ _ _
    _ ≤ (2 / 2 ^ 14 * mass n xs + error) + 3 / 2 ^ cosineBits * mass n xs :=
        add_le_add hnear hmatrix
    _ ≤ (mass n xs : ℝ) / 2 ^ 10 + error := by
        rw [cosineBits]
        linarith

/-! ## The sine matrix -/

/-- Entry of the sine matrix of `n` points, as the cosine of the complementary angle. -/
def sineWeight (n j k : Nat) : Int :=
  cosineAt (32 - ((2 * j + 1) * (2 * k + 1) * (16 / n) : Nat))

theorem flip_sineWeight (n : Nat) : flip (sineWeight n) = sineWeight n := by
  funext j k
  simp only [flip, sineWeight]
  rw [Nat.mul_comm (2 * k + 1)]

/-- The 14-bit entries stand for sines. -/
theorem abs_sineWeight_sub_sin_le {n c : Nat} (hn : n * c = 16) (j k : Nat) :
    |(sineWeight n j k : ℝ) / 2 ^ cosineBits -
        Real.sin ((2 * j + 1) * (2 * k + 1) * Real.pi / (4 * n))| ≤ 3 / 2 ^ cosineBits := by
  have hpos : 0 < n := Nat.pos_of_ne_zero (by rintro rfl; omega)
  have hdiv : 16 / n = c := Nat.div_eq_of_eq_mul_right hpos hn.symm
  have hturn : (n : ℝ) * c = 16 := by exact_mod_cast hn
  have hangle : Real.sin ((2 * j + 1) * (2 * k + 1) * Real.pi / (4 * n)) =
      Real.cos ((32 - ((2 * j + 1) * (2 * k + 1) * c : Nat) : Int) * (Real.pi / 64)) := by
    have hquotient : (2 * j + 1) * (2 * k + 1) * Real.pi / (4 * n) =
        (2 * j + 1) * (2 * k + 1) * c * (Real.pi / 64) := by
      rw [div_eq_iff (by positivity)]
      linear_combination -((2 * j + 1) * (2 * k + 1) * Real.pi / 16 : ℝ) * hturn
    rw [← Real.cos_pi_div_two_sub, hquotient]
    congr 1
    push_cast
    ring
  rw [hangle, sineWeight, hdiv]
  exact abs_cosineAt_sub_cos_le _

theorem abs_sineWeight_le (n j k : Nat) : |sineWeight n j k| ≤ 2 ^ cosineBits := abs_cosineAt_le _

/-! ## Networks -/

theorem fit_adst8 : Estimate.fit 8 (sineWeight 8) networkDeviation 8
    (Estimate.ofNetwork adst8 (Estimate.inputs 8)) = true := by
  decide +kernel

theorem fit_adst16 : Estimate.fit 16 (sineWeight 16) networkDeviation 8
    (Estimate.ofNetwork adst16 (Estimate.inputs 16)) = true := by
  decide +kernel

/-! ## Four points -/

/-- The sine of `m * pi / 9` at the scale of the four-point weights, for all angles. -/
def sineAt (m : Nat) : Int :=
  if m % 18 < 9 then sine (min (m % 18) (9 - m % 18)) else -sine (min (m % 18 - 9) (18 - m % 18))

/-- Entry of the four-point sine matrix at a sample and a frequency. -/
def shortSineWeight (j k : Nat) : Int := sineAt ((j + 1) * (2 * k + 1))

def shortSineComparisons : List Comparison :=
  [⟨4, shortSineWeight, 0, 1 / 2, inverseAdst4⟩, ⟨4, flip shortSineWeight, 0, 1 / 2, forwardAdst4⟩]

theorem shortSineComparisons_fit : ∀ c ∈ shortSineComparisons, c.fits = true := by
  decide +kernel

theorem nearOn_inverseAdst4 : NearOn 4 shortSineWeight 0 (1 / 2) (inverseAdst4.run .unbounded) :=
  nearOn_of_fits shortSineComparisons_fit 0 rfl

theorem nearOn_forwardAdst4 :
    NearOn 4 (flip shortSineWeight) 0 (1 / 2) (forwardAdst4.run .unbounded) :=
  nearOn_of_fits shortSineComparisons_fit 1 rfl

/-! ## Transforms -/

/-- Outputs that are near to those of the sine matrix, with its 14-bit entries and with the real
ones. -/
structure NearSines (n : Nat) (xs ys : List Int) : Prop where
  table : Near n (sineWeight n) (1 / 2 ^ 10) 64 xs ys
  real : ∀ j < n, |(ys.getD j 0 : ℝ) - ∑ k ∈ range n,
      Real.sin ((2 * j + 1) * (2 * k + 1) * Real.pi / (4 * n)) * xs.getD k 0| ≤
    (mass n xs : ℝ) / 2 ^ 10 + 64

theorem NearOn.sines {n c : Nat} (hn : n * c = 16) {k : Kernel} (hk : k.points = n)
    (h : NearOn n (sineWeight n) networkDeviation 8 (k.network .unbounded)) {xs : List Int}
    (hlength : n ≤ xs.length) (hxs : ∀ i < n, |xs.getD i 0| ≤ 2 ^ 19) :
    ∃ ys, k.apply .unbounded xs = .ok ys ∧ NearSines n xs ys := by
  have hpoints : n ≤ 16 := Nat.le_of_dvd (by decide) ⟨c, hn.symm⟩
  obtain ⟨ys, happly, hys⟩ :=
    h.small.apply hk (by omega) (by norm_num) (abs_sineWeight_le n) hlength hxs
  refine ⟨ys, happly, hys.mono networkDeviation_le (by norm_num), ?_⟩
  intro j hj
  refine (hys.abs_sub_sum_le (fun j _ k _ => abs_sineWeight_sub_sin_le hn j k) hj).trans ?_
  norm_num

/-- The fast sine transforms of 8 and 16 points are near to the sine matrix in both directions, for
the matrix is its own transpose. -/
theorem adst_near_sines {s : TransformSize} (hs : s = .s8 ∨ s = .s16) {xs : List Int}
    (hlength : s.points ≤ xs.length) (hxs : ∀ k < s.points, |xs.getD k 0| ≤ 2 ^ 19) :
    flip (sineWeight s.points) = sineWeight s.points ∧
    (∃ ys, (Kernel.inverse s .adst).apply .unbounded xs = .ok ys ∧ NearSines s.points xs ys) ∧
    ∃ ys, (Kernel.forward s .adst).apply .unbounded xs = .ok ys ∧ NearSines s.points xs ys := by
  refine ⟨flip_sineWeight _, ?_⟩
  rcases hs with rfl | rfl
  · have hnear := NearOn.sines (k := .adst8) (c := 2) rfl rfl (nearOn_run fit_adst8) hlength hxs
    exact ⟨hnear, hnear⟩
  · have hnear := NearOn.sines (k := .adst16) (c := 1) rfl rfl (nearOn_run fit_adst16) hlength hxs
    exact ⟨hnear, hnear⟩

/-- Eight samples, the largest of them at the limit. -/
theorem adst_near_sines_eight :
    let xs : List Int := [524288, -3, 0, 77, -524288, 12, 0, 1]
    (TransformSize.s8 = .s8 ∨ TransformSize.s8 = .s16) ∧ TransformSize.s8.points ≤ xs.length ∧
      (∀ k < TransformSize.s8.points, |xs.getD k 0| ≤ 2 ^ 19) ∧
      flip (sineWeight 8) = sineWeight 8 ∧
      (∃ ys, (Kernel.inverse .s8 .adst).apply .unbounded xs = .ok ys ∧ NearSines 8 xs ys) ∧
      ∃ ys, (Kernel.forward .s8 .adst).apply .unbounded xs = .ok ys ∧ NearSines 8 xs ys :=
  ⟨.inl rfl, by decide, by decide, adst_near_sines (.inl rfl) (by decide) (by decide)⟩

end ResidualCodec
