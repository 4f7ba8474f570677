/-
  ResidualCodec.Proofs.Transform.Rounding

  Rounding shifts and two's-complement widths: how far a shift is from what it
  rounds, how large it is, what a width leaves alone, and what can be taken back
  in it; of a value, and of a block.
-/

import Mathlib.Algebra.Order.Field.Basic
import Mathlib.Data.Rat.Cast.Order
import Mathlib.Tactic.Linarith
import Mathlib.Tactic.Positivity
import ResidualCodec.Proofs.Transform.Rows

namespace ResidualCodec

/-! ## Widths -/

/-- What lies in the range of a width is kept. -/
theorem wrapTo_succ_of_lt {w : Nat} {x : Int} (hlow : -(2 ^ w : Nat) ≤ x)
    (hhigh : x < (2 ^ w : Nat)) : wrapTo (w + 1) x = x := by
  simp only [wrapTo, Nat.one_shiftLeft, Nat.pow_succ]
  apply Int.bmod_eq_of_le
  · omega
  · omega

/-- What fits into 32 bits is not truncated. -/
theorem truncate32_of_le {x : Int} (h : x.natAbs ≤ max32) : truncate32 x = x := by
  have hmax : max32 = 2147483647 := rfl
  apply wrapTo_succ_of_lt
  · omega
  · omega

theorem map_truncate32_of_le {xs : List Int} (h : ∀ x ∈ xs, x.natAbs ≤ max32) :
    xs.map truncate32 = xs :=
  (List.map_congr_left fun x hx => truncate32_of_le (h x hx)).trans (List.map_id xs)

/-! ### Wrapped sums

What was added is taken back exactly, whether or not the sum was truncated. -/

theorem truncate32_truncate32 (x : Int) : truncate32 (truncate32 x) = truncate32 x := Int.bmod_bmod

theorem truncate32_add_sub (x y : Int) : truncate32 (truncate32 (x + y) - y) = truncate32 x := by
  simp only [truncate32, wrapTo]
  rw [Int.bmod_sub_bmod, Int.add_sub_cancel]

theorem truncate32_sub_add (x y : Int) : truncate32 (truncate32 (x - y) + y) = truncate32 x := by
  simp only [truncate32, wrapTo]
  rw [Int.bmod_add_bmod, Int.sub_add_cancel]

theorem truncate32_sub_sub (x y : Int) : truncate32 (x - truncate32 (x - y)) = truncate32 y := by
  simp only [truncate32, wrapTo]
  rw [Int.sub_bmod_bmod, Int.sub_sub_self]

/-! ## Rounding shifts -/

/-- What a rounding shift stands for is off by half a unit at most. -/
theorem abs_mul_roundShift_sub_le (x : Int) (bits : Nat) :
    2 * |2 ^ bits * roundShift x bits - x| ≤ 2 ^ bits := by
  simp only [roundShift]
  cases bits with
  | zero => simp
  | succ k =>
    rw [if_neg (Nat.succ_ne_zero k), Nat.add_sub_cancel, Nat.one_shiftLeft, pow_succ]
    -- The remainder of a shift to the unit lies between none and two halves.
    have hshift : ∀ y : Int, |2 ^ k * 2 * ((y + (2 ^ k : Nat)) >>> (k + 1)) - y| ≤ 2 ^ k := by
      intro y
      have hpow : (0 : Int) < 2 ^ k * 2 := by positivity
      have hdiv := Int.mul_ediv_add_emod (y + (2 ^ k : Nat)) (2 ^ k * 2)
      have hlow := Int.emod_nonneg (y + (2 ^ k : Nat)) hpow.ne'
      have hhigh := Int.emod_lt_of_pos (y + (2 ^ k : Nat)) hpow
      rw [Int.shiftRight_eq_div_pow, Nat.cast_pow, Nat.cast_pow, pow_succ, Nat.cast_ofNat] at *
      rw [abs_le]
      constructor
      · linarith
      · linarith
    split
    case isTrue =>
      have hle := hshift x
      linarith
    case isFalse =>
      have hle := hshift (-x)
      rw [mul_neg, ← abs_neg, neg_sub, sub_neg_eq_add, add_comm]
      rw [sub_neg_eq_add] at hle
      linarith

/-- Rounding moves a number by half a unit at most. -/
theorem abs_roundShift_sub_le (x : Int) (bits : Nat) :
    |(roundShift x bits : ℚ) - x / 2 ^ bits| ≤ 1 / 2 := by
  have hpos : (0 : ℚ) < 2 ^ bits := by positivity
  have hscaled : 2 * |2 ^ bits * (roundShift x bits : ℚ) - x| ≤ 2 ^ bits := by
    exact_mod_cast abs_mul_roundShift_sub_le x bits
  have hquotient : (roundShift x bits : ℚ) - x / 2 ^ bits =
      (2 ^ bits * roundShift x bits - x) / 2 ^ bits := by
    rw [sub_div, mul_div_cancel_left₀ _ hpos.ne']
  rw [hquotient, abs_div, abs_of_pos hpos, div_le_iff₀ hpos]
  linarith

/-- Bound of a rounding shift, from that of its input. -/
def shiftBound (bound bits : Nat) : Nat := (bound + 2 ^ bits / 2) / 2 ^ bits

theorem natAbs_roundShift_le {x : Int} {bound bits : Nat} (h : x.natAbs ≤ bound) :
    (roundShift x bits).natAbs ≤ shiftBound bound bits := by
  have herror := abs_mul_roundShift_sub_le x bits
  have hnat : (2 ^ bits * roundShift x bits).natAbs = (roundShift x bits).natAbs * 2 ^ bits := by
    rw [Int.natAbs_mul, Int.natAbs_pow, Nat.mul_comm]
    rfl
  have hpow : ((2 ^ bits : Nat) : Int) = 2 ^ bits := Nat.cast_pow 2 bits
  rw [shiftBound, Nat.le_div_iff_mul_le (Nat.two_pow_pos bits), ← hnat]
  rw [← hpow, Int.abs_eq_natAbs] at herror
  rw [← hpow]
  generalize (2 ^ bits : Nat) * roundShift x bits = y at herror ⊢
  generalize 2 ^ bits = unit at herror ⊢
  omega

theorem roundShift_zero (bits : Nat) : roundShift 0 bits = 0 := by
  have hle : (roundShift 0 bits).natAbs ≤ shiftBound 0 bits := natAbs_roundShift_le le_rfl
  have hzero : shiftBound 0 bits = 0 := by
    rw [shiftBound, Nat.zero_add]
    exact Nat.div_eq_of_lt (Nat.div_lt_self (Nat.two_pow_pos bits) Nat.one_lt_two)
  rw [hzero] at hle
  exact Int.natAbs_eq_zero.mp (Nat.le_zero.mp hle)

/-- Without a sign, ties go up. -/
theorem roundShift_succ_of_nonneg {x : Int} (h : 0 ≤ x) (bits : Nat) :
    roundShift x (bits + 1) = (x + 2 ^ bits) / 2 ^ (bits + 1) := by
  simp only [roundShift]
  rw [if_neg (Nat.succ_ne_zero bits), if_pos h, Nat.add_sub_cancel, Nat.one_shiftLeft,
    Int.shiftRight_eq_div_pow, Nat.cast_pow, Nat.cast_pow, Nat.cast_ofNat]

/-! ## Blocks -/

theorem Rows.Bounded.scale {m : Rows} {b k : Nat} (h : m.Bounded b) (hmax : b * k ≤ max32) :
    (m.each fun x => truncate32 (x * k)).Bounded (b * k) := by
  refine h.each ?_
  intro x hx
  have hle : (x * k).natAbs ≤ b * k := by
    rw [Int.natAbs_mul, Int.natAbs_natCast]
    exact Nat.mul_le_mul_right _ hx
  rwa [truncate32_of_le (hle.trans hmax)]

theorem Rows.Bounded.shift {m : Rows} {b : Nat} (h : m.Bounded b) (bits : Nat) :
    (m.each fun x => roundShift x bits).Bounded (shiftBound b bits) :=
  h.each fun _ => natAbs_roundShift_le

end ResidualCodec
