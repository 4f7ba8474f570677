/-
  ResidualCodec.Proofs.Transform.Angle

  The 14-bit cosines of all angles. The table holds those of a quarter turn, and
  the others follow by symmetry. Every one of them is within three units of
  `2 ^ 14` times the real cosine. Angles are in 64ths of a half turn.
-/

import Mathlib.Analysis.Real.Pi.Bounds
import ResidualCodec.Transform.Network

namespace ResidualCodec

/-! ## Symmetry -/

/-- The angle between none and a half turn that has the same cosine. -/
def foldAngle (m : Int) : Nat := min (m % 128).toNat (128 - (m % 128).toNat)

/-- The 14-bit cosine of an angle. -/
def cosineAt (m : Int) : Int :=
  if foldAngle m ≤ 32 then cosine (foldAngle m) else -cosine (64 - foldAngle m)

theorem foldAngle_le (m : Int) : foldAngle m ≤ 64 := by
  unfold foldAngle
  omega

/-- Cosines are even, and repeat after a full turn. -/
theorem cosineAt_sub (k m : Int) : cosineAt (128 * k - m) = cosineAt m := by
  have hfold : foldAngle (128 * k - m) = foldAngle m := by
    unfold foldAngle
    omega
  rw [cosineAt, hfold, cosineAt]

/-- Angles that add up to a half turn have opposite cosines. -/
theorem cosineAt_mirror (k m : Int) : cosineAt (128 * k + 64 - m) = -cosineAt m := by
  have hfold : foldAngle (128 * k + 64 - m) = 64 - foldAngle m := by
    unfold foldAngle
    omega
  have hle := foldAngle_le m
  rw [cosineAt, hfold, cosineAt]
  generalize foldAngle m = h at hle
  by_cases hfirst : h ≤ 32
  · by_cases hboth : 64 - h ≤ 32
    · -- Only the right angle lies in both quarters, and its cosine is zero.
      obtain rfl : h = 32 := by omega
      rfl
    · rw [if_pos hfirst, if_neg hboth, Nat.sub_sub_self hle]
  · rw [if_neg hfirst, if_pos (by omega), neg_neg]

theorem abs_cosine_le (m : Nat) : |cosine m| ≤ 2 ^ cosineBits := by
  have htable : ∀ x ∈ cosineTable, |x| ≤ 2 ^ cosineBits := by decide
  simp only [cosine]
  rw [List.getD_eq_getElem?_getD]
  cases hx : cosineTable[m]? with
  | none => decide
  | some x => exact htable x (List.mem_of_getElem? hx)

theorem abs_cosineAt_le (m : Int) : |cosineAt m| ≤ 2 ^ cosineBits := by
  unfold cosineAt
  split
  case isTrue => exact abs_cosine_le _
  case isFalse => exact (abs_neg _).trans_le (abs_cosine_le _)

/-! ## Real cosines -/

/-- Numerators over `10 ^ (6 * m)` of the `m`-th power of a Gaussian rational near to the turn by
one unit of angle. -/
def turnPower : Nat → Int × Int
  | 0 => (1, 0)
  | m + 1 =>
    let (x, y) := turnPower m
    (998795 * x - 49067 * y, 49067 * x + 998795 * y)

/-- The table is within one unit of the powers of the rational turn. -/
theorem abs_cosine_sub_turnPower_le :
    ∀ m ≤ 32, |cosine m * 10 ^ (6 * m) - 2 ^ 14 * (turnPower m).1| ≤ 10 ^ (6 * m) := by
  decide +kernel

section

open Complex

/-- The rational turn. -/
noncomputable def rationalTurn : ℂ := (998795 + 49067 * I) / 10 ^ 6

/-- The turn by one unit of angle. -/
noncomputable def unitTurn : ℂ := exp ((Real.pi / 64 : ℝ) * I)

theorem rationalTurn_re : rationalTurn.re = 998795 / 10 ^ 6 := by
  simp [rationalTurn, ← ofReal_ofNat, ← ofReal_pow, div_ofReal_re]

theorem rationalTurn_im : rationalTurn.im = 49067 / 10 ^ 6 := by
  simp [rationalTurn, ← ofReal_ofNat, ← ofReal_pow, div_ofReal_im]

theorem re_rationalTurn_pow (m : Nat) :
    (rationalTurn ^ m).re = (turnPower m).1 / (10 : ℝ) ^ (6 * m) := by
  have hpow : (998795 + 49067 * I) ^ m = ((turnPower m).1 : ℂ) + (turnPower m).2 * I := by
    induction m with
    | zero => simp [turnPower]
    | succ m ih =>
      rw [pow_succ, ih]
      simp only [turnPower]
      push_cast
      linear_combination 49067 * ((turnPower m).2 : ℂ) * I_sq
  have hscale : ((10 : ℂ) ^ 6) ^ m = ((10 ^ (6 * m) : ℝ) : ℂ) := by
    push_cast
    rw [pow_mul]
  rw [rationalTurn, div_pow, hpow, hscale, div_ofReal_re]
  simp

theorem norm_rationalTurn_le : ‖rationalTurn‖ ≤ 1 := by
  rw [← sq_le_one_iff₀ (norm_nonneg _), Complex.sq_norm, normSq_apply, rationalTurn_re,
    rationalTurn_im]
  norm_num

/-- The first terms of the series of cosine and sine are enough for an angle as small as one
unit. -/
theorem norm_unitTurn_sub_le : ‖unitTurn - rationalTurn‖ ≤ 2 / 10 ^ 6 := by
  have hlow : 0.0490873 ≤ Real.pi / 64 := by linarith [Real.pi_gt_d6]
  have hhigh : Real.pi / 64 ≤ 0.0490875 := by linarith [Real.pi_lt_d6]
  have hre : unitTurn.re = Real.cos (Real.pi / 64) := exp_ofReal_mul_I_re _
  have him : unitTurn.im = Real.sin (Real.pi / 64) := exp_ofReal_mul_I_im _
  generalize Real.pi / 64 = x at *
  have habs : |x| = x := abs_of_nonneg (by linarith)
  have hone : |x| ≤ 1 := by linarith
  obtain ⟨hcosLow, hcosHigh⟩ := abs_le.mp (Real.cos_bound hone)
  obtain ⟨hsinLow, hsinHigh⟩ := abs_le.mp (Real.sin_bound hone)
  rw [habs] at hcosLow hcosHigh hsinLow hsinHigh
  have hsquare : 0.0490873 ^ 2 ≤ x ^ 2 ∧ x ^ 2 ≤ 0.0490875 ^ 2 := ⟨by gcongr, by gcongr⟩
  have hcube : 0.0490873 ^ 3 ≤ x ^ 3 ∧ x ^ 3 ≤ 0.0490875 ^ 3 := ⟨by gcongr, by gcongr⟩
  have hfourth : x ^ 4 ≤ 0.0490875 ^ 4 := by gcongr
  have hfifth : x ^ 5 ≤ 0.0490875 ^ 5 := by gcongr
  have hreal : |(unitTurn - rationalTurn).re| ≤ 1 / 10 ^ 6 := by
    rw [sub_re, hre, rationalTurn_re, abs_le]
    constructor
    · linarith
    · linarith
  have himaginary : |(unitTurn - rationalTurn).im| ≤ 1 / 10 ^ 6 := by
    rw [sub_im, him, rationalTurn_im, abs_le]
    constructor
    · linarith
    · linarith
  calc ‖unitTurn - rationalTurn‖
      ≤ |(unitTurn - rationalTurn).re| + |(unitTurn - rationalTurn).im| :=
        norm_le_abs_re_add_abs_im _
    _ ≤ 2 / 10 ^ 6 := by linarith

theorem norm_unitTurn : ‖unitTurn‖ = 1 := norm_exp_ofReal_mul_I _

/-- Powers of the two turns drift apart by as much in every step. -/
theorem norm_unitTurn_pow_sub_le (m : Nat) :
    ‖unitTurn ^ m - rationalTurn ^ m‖ ≤ m * (2 / 10 ^ 6) := by
  induction m with
  | zero => simp
  | succ m ih =>
    have hsplit : unitTurn ^ (m + 1) - rationalTurn ^ (m + 1) =
        unitTurn * (unitTurn ^ m - rationalTurn ^ m) +
          (unitTurn - rationalTurn) * rationalTurn ^ m := by ring
    have hpow : ‖rationalTurn ^ m‖ ≤ 1 := by
      rw [norm_pow]
      exact pow_le_one₀ (norm_nonneg _) norm_rationalTurn_le
    calc ‖unitTurn ^ (m + 1) - rationalTurn ^ (m + 1)‖
        ≤ ‖unitTurn * (unitTurn ^ m - rationalTurn ^ m)‖ +
            ‖(unitTurn - rationalTurn) * rationalTurn ^ m‖ := by
          rw [hsplit]
          exact norm_add_le _ _
      _ = ‖unitTurn ^ m - rationalTurn ^ m‖ + ‖unitTurn - rationalTurn‖ * ‖rationalTurn ^ m‖ := by
          rw [norm_mul, norm_mul, norm_unitTurn, one_mul]
      _ ≤ m * (2 / 10 ^ 6) + 2 / 10 ^ 6 * 1 :=
          add_le_add ih (mul_le_mul norm_unitTurn_sub_le hpow (norm_nonneg _) (by positivity))
      _ = (m + 1 : Nat) * (2 / 10 ^ 6) := by
          push_cast
          ring

theorem re_unitTurn_pow (m : Nat) : (unitTurn ^ m).re = Real.cos (m * (Real.pi / 64)) := by
  rw [unitTurn, ← exp_nat_mul, ← exp_ofReal_mul_I_re]
  push_cast
  ring_nf

end

/-- An entry of the table is within three units of the real cosine. -/
theorem abs_cosine_sub_cos_le {m : Nat} (hm : m ≤ 32) :
    |(cosine m : ℝ) / 2 ^ cosineBits - Real.cos (m * (Real.pi / 64))| ≤ 3 / 2 ^ cosineBits := by
  have hpos : (0 : ℝ) < 10 ^ (6 * m) := by positivity
  have htable : |(cosine m : ℝ) * 10 ^ (6 * m) - 2 ^ 14 * (turnPower m).1| ≤ 10 ^ (6 * m) := by
    exact_mod_cast abs_cosine_sub_turnPower_le m hm
  have hrational : |(cosine m : ℝ) / 2 ^ cosineBits - (rationalTurn ^ m).re| ≤
      1 / 2 ^ cosineBits := by
    have hscale : (cosine m : ℝ) / 2 ^ cosineBits - (rationalTurn ^ m).re =
        (cosine m * 10 ^ (6 * m) - 2 ^ 14 * (turnPower m).1) / (2 ^ 14 * 10 ^ (6 * m)) := by
      rw [re_rationalTurn_pow, cosineBits]
      field_simp
    rw [hscale, abs_div, abs_of_pos (a := (2 : ℝ) ^ 14 * _) (by positivity), cosineBits,
      div_le_div_iff₀ (by positivity) (by positivity)]
    linarith
  have hturn : |(rationalTurn ^ m).re - (unitTurn ^ m).re| ≤ 2 / 2 ^ cosineBits := by
    have hm' : (m : ℝ) ≤ 32 := by exact_mod_cast hm
    calc |(rationalTurn ^ m).re - (unitTurn ^ m).re|
        = |(unitTurn ^ m - rationalTurn ^ m).re| := by rw [abs_sub_comm, Complex.sub_re]
      _ ≤ ‖unitTurn ^ m - rationalTurn ^ m‖ := Complex.abs_re_le_norm _
      _ ≤ m * (2 / 10 ^ 6) := norm_unitTurn_pow_sub_le m
      _ ≤ 32 * (2 / 10 ^ 6) := by gcongr
      _ ≤ 2 / 2 ^ cosineBits := by
        rw [cosineBits]
        norm_num
  rw [← re_unitTurn_pow]
  calc |(cosine m : ℝ) / 2 ^ cosineBits - (unitTurn ^ m).re|
      ≤ |(cosine m : ℝ) / 2 ^ cosineBits - (rationalTurn ^ m).re| +
          |(rationalTurn ^ m).re - (unitTurn ^ m).re| := abs_sub_le _ _ _
    _ ≤ 1 / 2 ^ cosineBits + 2 / 2 ^ cosineBits := add_le_add hrational hturn
    _ = 3 / 2 ^ cosineBits := by ring

theorem cos_foldAngle (m : Int) :
    Real.cos (foldAngle m * (Real.pi / 64)) = Real.cos (m * (Real.pi / 64)) := by
  obtain ⟨k, hk | hk⟩ : ∃ k : Int, m = foldAngle m + 128 * k ∨ m = 128 * k - foldAngle m := by
    unfold foldAngle
    by_cases h : (m % 128).toNat ≤ 64
    · exact ⟨m / 128, .inl (by omega)⟩
    · exact ⟨m / 128 + 1, .inr (by omega)⟩
  · have hangle : (m : ℝ) * (Real.pi / 64) = foldAngle m * (Real.pi / 64) + k * (2 * Real.pi) := by
      have hcast : (m : ℝ) = foldAngle m + 128 * k := by exact_mod_cast hk
      rw [hcast]
      ring
    rw [hangle, Real.cos_add_int_mul_two_pi]
  · have hangle : (m : ℝ) * (Real.pi / 64) = k * (2 * Real.pi) - foldAngle m * (Real.pi / 64) := by
      have hcast : (m : ℝ) = 128 * k - foldAngle m := by exact_mod_cast hk
      rw [hcast]
      ring
    rw [hangle, Real.cos_int_mul_two_pi_sub]

/-- Every 14-bit cosine is within three units of the real one. -/
theorem abs_cosineAt_sub_cos_le (m : Int) :
    |(cosineAt m : ℝ) / 2 ^ cosineBits - Real.cos (m * (Real.pi / 64))| ≤
      3 / 2 ^ cosineBits := by
  have hle := foldAngle_le m
  rw [← cos_foldAngle, cosineAt]
  generalize foldAngle m = h at hle
  split
  case isTrue hfirst => exact abs_cosine_sub_cos_le hfirst
  case isFalse hsecond =>
    have hangle : (h : ℝ) * (Real.pi / 64) = Real.pi - (64 - h : Nat) * (Real.pi / 64) := by
      push_cast [hle]
      ring
    have hbound := abs_cosine_sub_cos_le (m := 64 - h) (by omega)
    rw [hangle, Real.cos_pi_sub, Int.cast_neg, neg_div, ← neg_sub', abs_neg]
    exact hbound

end ResidualCodec
