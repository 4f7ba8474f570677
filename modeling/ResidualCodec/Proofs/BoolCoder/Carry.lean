/-
  ResidualCodec.Proofs.BoolCoder.Carry

  The encoder holds its interval exactly, at every moment of a run, and loses no
  carry: whenever one ripples into the emitted bytes, it finds a byte that takes
  it. The finished stream is the lower end of the interval, read as a number
  with one digit before the point.
-/

import Mathlib.Tactic.LinearCombination
import ResidualCodec.Proofs.BoolCoder.Exact

namespace ResidualCodec

/-! ## Numbers in bytes -/

theorem bytesValue_append (bs cs : List UInt8) :
    bytesValue (bs ++ cs) = bytesValue bs + 256 ^ bs.length * bytesValue cs := by
  induction bs with
  | nil => rw [List.nil_append, bytesValue_nil, List.length_nil, pow_zero, one_mul, zero_add]
  | cons b bs ih =>
    rw [List.cons_append, bytesValue_cons, bytesValue_cons, ih, List.length_cons, pow_succ]
    ring

/-- Bytes that spell less than the largest number of their length are not all 255. -/
theorem exists_mem_ne_of_bytesValue_lt {bs : List UInt8}
    (h : bytesValue bs + 1 < 256 ^ bs.length) : ∃ b ∈ bs, b ≠ 255 := by
  induction bs with
  | nil => exact absurd h (by decide)
  | cons b bs ih =>
    by_cases hb : b = 255
    · have h255 : b.toNat = 255 := by rw [hb]; rfl
      rw [bytesValue_cons, List.length_cons, pow_succ, h255] at h
      obtain ⟨c, hmem, hne⟩ := ih (by omega)
      exact ⟨c, List.mem_cons_of_mem b hmem, hne⟩
    · exact ⟨b, List.mem_cons_self, hb⟩

/-- The number with one digit before the point, moved to the end of its last byte. -/
theorem dataValue_mul (data : List UInt8) :
    dataValue data * 256 ^ data.length = 256 * bytesValue data.reverse := by
  induction data with
  | nil => rw [dataValue_nil, List.reverse_nil, bytesValue_nil, zero_mul, Nat.cast_zero, mul_zero]
  | cons b bs ih =>
    rw [dataValue_cons, List.length_cons, pow_succ, List.reverse_cons, bytesValue_append,
      List.length_reverse, bytesValue_cons, bytesValue_nil]
    push_cast
    linear_combination ih

theorem toNat_le_dataValue (b : UInt8) (bs : List UInt8) : (b.toNat : ℚ) ≤ dataValue (b :: bs) := by
  have hrest := dataValue_nonneg bs
  rw [dataValue_cons]
  linarith

namespace BoolEncoder

/-! ## States of a run -/

/-- The encoder holds the interval exactly, and its bytes have room for a carry. -/
structure Holds (e : BoolEncoder) (i : Interval) : Prop where
  range_eq : e.range = i.range
  countdown_pos : 1 ≤ e.countdown
  countdown_le : e.countdown ≤ 24
  -- Emitted bytes and pending bits spell the lower end; without bytes the pending bits alone do.
  low_eq : bytesValue e.emitted * 2 ^ (32 - e.countdown) + e.low = i.low
  -- Where a doubling carries, a byte takes the carry.
  doubling_carries : 0x80000000 ≤ e.low → ∃ b ∈ e.emitted, b ≠ 255
  -- Where finishing carries, a byte takes the carry.
  finish_carries : e.low.testBit (32 - e.countdown) = true → ∃ b ∈ e.emitted, b ≠ 255

section

variable {e : BoolEncoder} {i : Interval}

/-- A carry that leaves the pending bits finds a byte that takes it. -/
theorem Represents.exists_mem_ne (h : Represents e i) (hi : i.Bounded)
    (hcarry : 2 ^ (32 - e.countdown) ≤ e.low) : ∃ b ∈ e.emitted, b ≠ 255 :=
  exists_mem_ne_of_bytesValue_lt (h.room hi hcarry)

theorem Represents.holds (h : Represents e i) (hi : i.Bounded) : Holds e i := by
  have hpos := h.countdown_pos
  refine ⟨h.range, hpos, Nat.le_of_lt_succ h.countdown_lt, ?_, ?_, ?_⟩
  · rw [Nat.mul_comm]
    exact h.low
  · intro hfull
    have hle : 2 ^ (32 - e.countdown) ≤ 2 ^ 31 := Nat.pow_le_pow_right (by decide) (by omega)
    exact h.exists_mem_ne hi (by omega)
  · intro hbit
    rw [h.testBit_low hi, decide_eq_true_eq] at hbit
    exact h.exists_mem_ne hi hbit

/-! ## Finishing -/

/-- Two bytes for the window of a decoder and one for every eight doublings, and four at least. -/
theorem Represents.length_finish_eq (h : Represents e i) :
    e.finish.length = max 4 (2 + i.shifts / 8) := by
  have hclock := h.clock
  have hpos := h.countdown_pos
  have hle := h.countdown_le
  rw [length_finish]
  omega

theorem Represents.dataValue_finish (h : Represents e i) (hi : i.Bounded) :
    dataValue e.finish = i.low / 2 ^ i.shifts := by
  have hvalue := dataValue_mul e.finish
  have hpow : (256 : ℚ) ^ e.finish.length = 256 * (2 ^ i.shifts * 2 ^ e.countdown) := by
    have hclock := h.clock
    rw [length_finish, show (256 : ℚ) = 2 ^ 8 by norm_num, ← pow_mul, ← pow_add, ← pow_add]
    congr 1
    omega
  rw [h.bytesValue_finish hi, hpow] at hvalue
  rw [eq_div_iff (by positivity)]
  have hcount : (0 : ℚ) < 256 * 2 ^ e.countdown := by positivity
  apply mul_right_cancel₀ hcount.ne'
  push_cast at hvalue
  linear_combination hvalue

/-- The interval lies below 255, and so does the first byte. -/
theorem Represents.exists_head?_finish (h : Represents e i) (hi : i.Bounded) :
    ∃ b, e.finish.head? = some b ∧ b ≤ 254 := by
  have hlength := h.length_finish_eq
  have hvalue := h.dataValue_finish hi
  cases hfinish : e.finish with
  | nil =>
    rw [hfinish, List.length_nil] at hlength
    omega
  | cons b bs =>
    refine ⟨b, rfl, ?_⟩
    have hpos := hi.range_pos
    have htop := hi.top_le
    have hlow : (i.low : ℚ) < 255 * 2 ^ i.shifts := by
      exact_mod_cast (show i.low < 255 * 2 ^ i.shifts by omega)
    have hlt : dataValue (b :: bs) < 255 := by
      rw [← hfinish, hvalue, div_lt_iff₀ (by positivity)]
      exact hlow
    have hb : (b.toNat : ℚ) < 255 := (toNat_le_dataValue b bs).trans_lt hlt
    have hnat : b.toNat < 255 := by exact_mod_cast hb
    rw [UInt8.le_iff_toNat_le]
    exact Nat.le_of_lt_succ hnat

end

/-! ## Runs -/

/-- Whatever is written, with whatever probabilities, the encoder holds the interval of the
decisions exactly: between two decisions and, inside one, after each doubling. The finished stream
spells the lower end of the interval. -/
theorem writeAll_holds (ds : List Decision) :
    let e := writeAll {} ds
    let i := Interval.run {} ds
    Holds e i ∧ 128 ≤ e.range ∧ e.range ≤ 255 ∧
      (∀ d k, Holds ((e.choose d).renormalize k) ((i.choose d).normalize k)) ∧
      e.finish.length = max 4 (2 + i.shifts / 8) ∧
      dataValue e.finish = i.low / 2 ^ i.shifts ∧
      ∃ b, e.finish.head? = some b ∧ b ≤ 254 := by
  intro e i
  have hi : i.Ready := Interval.ready_start.run ds
  have h : Represents e i := represents_start.writeAll Interval.ready_start ds
  refine ⟨h.holds hi.toBounded, ?_, ?_, ?_, h.length_finish_eq, h.dataValue_finish hi.toBounded,
    h.exists_head?_finish hi.toBounded⟩
  · rw [h.range]
    exact hi.minRange_le
  · rw [h.range]
    exact Nat.le_of_lt_succ hi.range_lt
  · intro d k
    have hchosen := hi.choose d
    exact ((h.choose hi d).renormalize hchosen k).holds (hchosen.normalize k)

/-- A pending carry ripples over an emitted byte of 255. -/
example :
    let closing : List Decision := [⟨false, 4⟩, ⟨true, 169⟩]
    let e := writeAll {} ([⟨false, 130⟩, ⟨true, 252⟩, ⟨true, 125⟩] ++ closing ++ closing ++
      closing ++ closing ++ [⟨true, 128⟩])
    e.emitted = [255, 127] ∧ e.finish.take 3 = [128, 0, 0] := by
  decide +kernel

end BoolEncoder

end ResidualCodec
