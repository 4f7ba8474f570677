/-
  ResidualCodec.Proofs.BoolCoder.Exact

  The decoder is an exact arithmetic decoder of any data, however short. The
  data spells a number, and every interval of the coder either encloses it or
  does not. The window holds the distance of that number from the lower end but
  for the bytes not yet read, which are too small to decide anything, so that
  the decoder always reads the one bit whose interval encloses the number.
-/

import Mathlib.Algebra.BigOperators.Field
import Mathlib.Algebra.Order.Field.Basic
import Mathlib.Tactic.Linarith
import Mathlib.Tactic.NormNum
import Mathlib.Tactic.Positivity
import Mathlib.Tactic.Ring
import ResidualCodec.Proofs.BoolCoder.Decoder

namespace ResidualCodec

open Finset (range)

/-! ## The number that the data spells -/

/-- The data as a number in base 256 with one digit before the point. Bytes past the end are
zeros. -/
def dataValue (data : List UInt8) : ℚ :=
  ∑ i ∈ range data.length, ((data.getD i 0).toNat : ℚ) / 256 ^ i

theorem dataValue_nil : dataValue [] = 0 := rfl

theorem dataValue_cons (b : UInt8) (bs : List UInt8) :
    dataValue (b :: bs) = b.toNat + dataValue bs / 256 := by
  have hrest : ∀ i, (((b :: bs).getD (i + 1) 0).toNat : ℚ) / 256 ^ (i + 1) =
      ((bs.getD i 0).toNat : ℚ) / 256 ^ i / 256 := by
    intro i
    rw [List.getD_cons_succ, pow_succ, div_div]
  simp only [dataValue]
  rw [List.length_cons, Finset.sum_range_succ', Finset.sum_congr rfl fun i _ => hrest i,
    Finset.sum_div, List.getD_cons_zero, pow_zero, div_one, add_comm]

theorem dataValue_nonneg (data : List UInt8) : 0 ≤ dataValue data :=
  Finset.sum_nonneg fun _ _ => by positivity

theorem dataValue_lt (data : List UInt8) : dataValue data < 256 := by
  induction data with
  | nil => exact dataValue_nil.trans_lt (by norm_num)
  | cons b bs ih =>
    have hb : (b.toNat : ℚ) ≤ 255 := by exact_mod_cast Nat.le_of_lt_succ b.toNat_lt
    rw [dataValue_cons]
    linarith

/-! ## Numbers in an interval -/

namespace Interval

/-- The number lies in the interval, in the units of the start. -/
structure Encloses (i : Interval) (v : ℚ) : Prop where
  low_le : (i.low : ℚ) ≤ v * 2 ^ i.shifts
  lt_top : v * 2 ^ i.shifts < i.low + i.range

variable {i : Interval} {v : ℚ}

/-- A doubling changes the units, and no number cares. -/
theorem encloses_double : i.double.Encloses v ↔ i.Encloses v := by
  have hlow : (i.double.low : ℚ) = 2 * i.low := by exact_mod_cast rfl
  have hrange : (i.double.range : ℚ) = 2 * i.range := by exact_mod_cast rfl
  have hunits : v * 2 ^ i.double.shifts = 2 * (v * 2 ^ i.shifts) := by
    rw [show i.double.shifts = i.shifts + 1 from rfl, pow_succ]
    ring
  constructor
  · rintro ⟨hle, hlt⟩
    rw [hlow, hunits] at hle
    rw [hlow, hrange, hunits] at hlt
    exact ⟨by linarith, by linarith⟩
  · rintro ⟨hle, hlt⟩
    refine ⟨?_, ?_⟩
    · rw [hlow, hunits]
      linarith
    · rw [hlow, hrange, hunits]
      linarith

theorem encloses_normalize (fuel : Nat) : (i.normalize fuel).Encloses v ↔ i.Encloses v := by
  induction fuel generalizing i with
  | zero => exact Iff.rfl
  | succ fuel ih =>
    simp only [normalize]
    split
    case isTrue => exact ih.trans encloses_double
    case isFalse => exact Iff.rfl

theorem encloses_step {d : Decision} : (i.step d).Encloses v ↔ (i.choose d).Encloses v :=
  encloses_normalize 7

/-- Of the two parts of an interval, the upper one encloses the numbers from the split on. -/
theorem encloses_choose_iff (hi : i.Ready) {d : Decision} :
    (i.choose d).Encloses v ↔ i.Encloses v ∧
      (d.bit = true ↔ (i.low + splitRange i.range d.prob : ℚ) ≤ v * 2 ^ i.shifts) := by
  have hmin : 128 ≤ i.range := hi.minRange_le
  have hsplit := splitRange_lt (show 1 < i.range by omega) d.prob
  have hlt : (splitRange i.range d.prob : ℚ) < i.range := by exact_mod_cast hsplit
  have hpos : (0 : ℚ) < splitRange i.range d.prob := by
    exact_mod_cast splitRange_pos i.range d.prob
  cases hb : d.bit with
  | false =>
    rw [choose_zero i hb]
    constructor
    · rintro ⟨hle, htop⟩
      dsimp only at hle htop
      exact ⟨⟨hle, by linarith⟩, ⟨fun h => absurd h Bool.false_ne_true, fun h => by linarith⟩⟩
    · rintro ⟨⟨hle, -⟩, hbit⟩
      refine ⟨hle, ?_⟩
      by_contra hnot
      exact Bool.false_ne_true (hbit.mpr (not_lt.mp hnot))
  | true =>
    have hrange : ((i.range - splitRange i.range d.prob : Nat) : ℚ) =
        i.range - splitRange i.range d.prob := Nat.cast_sub hsplit.le
    rw [choose_one i hb]
    constructor
    · rintro ⟨hle, htop⟩
      dsimp only at hle htop
      rw [Nat.cast_add] at hle htop
      rw [hrange] at htop
      exact ⟨⟨by linarith, by linarith⟩, ⟨fun _ => hle, fun _ => rfl⟩⟩
    · rintro ⟨⟨-, htop⟩, hbit⟩
      refine ⟨?_, ?_⟩
      · dsimp only
        rw [Nat.cast_add]
        exact hbit.mp rfl
      · dsimp only
        rw [Nat.cast_add, hrange]
        linarith

theorem Encloses.of_run (hi : i.Ready) {ds : List Decision} (h : (i.run ds).Encloses v) :
    i.Encloses v := by
  induction ds generalizing i with
  | nil => exact h
  | cons d ds ih => exact ((encloses_choose_iff hi).mp (encloses_step.mp (ih (hi.step d) h))).1

/-- Of all answers to the same questions, only one leads to an interval that encloses the number. -/
theorem bits_eq_of_encloses (hi : i.Ready) {probs : List UInt8} {bits bits' : List Bool}
    (hlength : bits.length = probs.length) (hlength' : bits'.length = probs.length)
    (h : (i.run (List.zipWith Decision.mk bits probs)).Encloses v)
    (h' : (i.run (List.zipWith Decision.mk bits' probs)).Encloses v) : bits = bits' := by
  induction probs generalizing i bits bits' with
  | nil => rw [List.eq_nil_of_length_eq_zero hlength, List.eq_nil_of_length_eq_zero hlength']
  | cons p ps ih =>
    match bits, bits', hlength, hlength' with
    | b :: bs, b' :: bs', hlength, hlength' =>
      rw [List.zipWith_cons_cons, run_cons] at h h'
      have hfirst := (encloses_choose_iff hi).mp (encloses_step.mp (h.of_run (hi.step _)))
      have hfirst' := (encloses_choose_iff hi).mp (encloses_step.mp (h'.of_run (hi.step _)))
      obtain rfl : b = b' := Bool.eq_iff_iff.mpr (hfirst.2.trans hfirst'.2.symm)
      rw [ih (hi.step _) (Nat.succ.inj hlength) (Nat.succ.inj hlength') h h']

end Interval

/-! ## The decoder and the number -/

namespace BoolDecoder

/-- The decoder `d` has followed the interval `i` over the data, whose number is still enclosed. -/
structure Locates (d : BoolDecoder) (i : Interval) (data : List UInt8) : Prop where
  range : d.range = i.range
  shifts : d.shifts = i.shifts % 8
  -- Every byte that was asked for was read or was missing.
  clock : d.position + d.missing = i.consumed
  inside : d.position + d.rest.length = data.length
  -- The low bits of the window are not filled in yet.
  aligned : 2 ^ d.shifts ∣ d.window
  -- The distance of the number from the lower end.
  window : 256 * (dataValue data * 2 ^ i.shifts - i.low) =
    d.window + dataValue d.rest * 2 ^ d.shifts / 256
  encloses : i.Encloses (dataValue data)

/-- What asking for a byte does: the number that the rest spells is the byte and, behind the point,
what is left. -/
structure Supplies (d : BoolDecoder) (b : Nat) (d' : BoolDecoder) : Prop where
  value : dataValue d.rest = b + dataValue d'.rest / 256
  clock : d'.position + d'.missing = d.position + d.missing + 1
  inside : d'.position + d'.rest.length = d.position + d.rest.length
  range : d'.range = d.range
  window : d'.window = d.window
  shifts : d'.shifts = d.shifts

theorem supplies_nextByte (d : BoolDecoder) : Supplies d d.nextByte.1 d.nextByte.2 := by
  cases hrest : d.rest with
  | nil =>
    have hvalue : dataValue d.rest = (0 : Nat) + dataValue [] / 256 := by
      rw [hrest, dataValue_nil, Nat.cast_zero, zero_add, zero_div]
    have hinside : d.position + ([] : List UInt8).length = d.position + d.rest.length := by
      rw [hrest]
    simp only [nextByte, hrest]
    exact ⟨hvalue, rfl, hinside, rfl, rfl, rfl⟩
  | cons b bs =>
    have hvalue : dataValue d.rest = b.toNat + dataValue bs / 256 := by
      rw [hrest, dataValue_cons]
    have hclock : d.position + 1 + d.missing = d.position + d.missing + 1 := by omega
    have hinside : d.position + 1 + bs.length = d.position + d.rest.length := by
      rw [hrest, List.length_cons]
      omega
    simp only [nextByte, hrest]
    exact ⟨hvalue, hclock, hinside, rfl, rfl, rfl⟩

/-- Data that does not start with the one byte outside the first interval. -/
theorem dataValue_lt_of_head? {data : List UInt8} (h : data.head? ≠ some 255) :
    dataValue data < 255 := by
  cases data with
  | nil => exact dataValue_nil.trans_lt (by norm_num)
  | cons b bs =>
    have htop := b.toNat_lt
    have hne : b.toNat ≠ 255 := fun hb => h (congrArg some (UInt8.toNat_inj.mp hb))
    have hb : (b.toNat : ℚ) ≤ 254 := by exact_mod_cast (show b.toNat ≤ 254 by omega)
    have hrest := dataValue_lt bs
    rw [dataValue_cons]
    linarith

/-- The decoder starts with two bytes in its window, be they there or not. -/
theorem locates_start {data : List UInt8} (h : data.head? ≠ some 255) :
    Locates (start data) {} data := by
  have hfirst := supplies_nextByte { rest := data }
  have hsecond := supplies_nextByte (nextByte { rest := data }).2
  have hshifts : (start data).shifts = 0 := hsecond.shifts.trans hfirst.shifts
  have hunits : dataValue data * 2 ^ ({} : Interval).shifts = dataValue data := mul_one _
  refine ⟨?_, hshifts, ?_, ?_, ?_, ?_, ?_⟩
  · exact hsecond.range.trans hfirst.range
  · exact hsecond.clock.trans (congrArg (· + 1) hfirst.clock)
  · exact (hsecond.inside.trans hfirst.inside).trans (Nat.zero_add _)
  · rw [hshifts]
    exact one_dvd _
  · have hvalue : dataValue data = _ := hfirst.value
    rw [hunits, hshifts, hvalue, hsecond.value]
    simp only [start]
    push_cast
    ring
  · have hlt := dataValue_lt_of_head? h
    refine ⟨?_, ?_⟩
    · rw [hunits, Nat.cast_zero]
      exact dataValue_nonneg data
    · rw [hunits, Nat.cast_zero, zero_add]
      exact hlt

section

variable {d : BoolDecoder} {i : Interval} {data : List UInt8}

/-- The number lies in the interval, so that the window lies in the range. -/
theorem Locates.window_lt (h : Locates d i data) : d.window < 256 * i.range := by
  have hrest : 0 ≤ dataValue d.rest * 2 ^ d.shifts / 256 := by
    have hnonneg := dataValue_nonneg d.rest
    positivity
  have hwindow := h.window
  have htop := h.encloses.lt_top
  have hcast : (d.window : ℚ) < (256 * i.range : Nat) := by
    push_cast
    linarith
  exact_mod_cast hcast

/-- Bytes not yet read never decide a comparison: the window lies below the split if the number
does. -/
theorem Locates.split_le_iff (h : Locates d i data) (split : Nat) :
    split * 256 ≤ d.window ↔ (i.low + split : ℚ) ≤ dataValue data * 2 ^ i.shifts := by
  have hshifts : d.shifts ≤ 8 := by
    have heq := h.shifts
    omega
  have hpow : (0 : ℚ) < 2 ^ d.shifts := by positivity
  have hnonneg := dataValue_nonneg d.rest
  have hlt := dataValue_lt d.rest
  have hwindow := h.window
  constructor
  · intro hle
    have hcast : (split * 256 : ℚ) ≤ d.window := by exact_mod_cast hle
    have hrest : 0 ≤ dataValue d.rest * 2 ^ d.shifts / 256 := by positivity
    linarith
  · intro hle
    by_contra hnot
    -- Both sides are multiples of what the bytes not yet read are smaller than.
    have hgap : d.window + 2 ^ d.shifts ≤ split * 256 := by
      have hdvd : 2 ^ d.shifts ∣ split * 256 - d.window :=
        Nat.dvd_sub (Dvd.dvd.mul_left (Nat.pow_dvd_pow 2 hshifts) split) h.aligned
      have hpos := Nat.le_of_dvd (by omega) hdvd
      omega
    have hcast : (d.window + 2 ^ d.shifts : ℚ) ≤ split * 256 := by exact_mod_cast hgap
    have hrest : dataValue d.rest * 2 ^ d.shifts / 256 < 2 ^ d.shifts := by
      rw [div_lt_iff₀' (by norm_num)]
      exact mul_lt_mul_of_pos_right hlt hpow
    linarith

/-! ### Doubling -/

/-- Any data is doubled alike: the eighth doubling asks for a byte. -/
theorem double_of_last_supplied (hlast : d.shifts + 1 = 8) (hlt : d.window < 0x80000000) :
    ∃ b d', Supplies d b d' ∧
      d.double = { d' with range := 2 * d.range, window := 2 * d.window + b, shifts := 0 } := by
  have hmod : 2 * d.window % 0x100000000 = 2 * d.window := Nat.mod_eq_of_lt (by omega)
  refine ⟨d.nextByte.1, d.nextByte.2, supplies_nextByte d, ?_⟩
  cases hrest : d.rest with
  | nil => simp only [double, if_pos hlast, nextByte, hrest, hmod]
  | cons b bs => simp only [double, if_pos hlast, nextByte, hrest, hmod]

theorem Locates.double (h : Locates d i data) (hr : i.range < minRange) :
    Locates d.double i.double data := by
  have hr' : i.range < 128 := hr
  have hlt := h.window_lt
  have hrange : 2 * d.range = i.double.range := congrArg (2 * ·) h.range
  have hclock : d.position + d.missing = 2 + i.shifts / 8 := h.clock
  have hshifts := h.shifts
  have hunits : 256 * (dataValue data * 2 ^ i.double.shifts - i.double.low) =
      2 * (256 * (dataValue data * 2 ^ i.shifts - i.low)) := by
    simp only [Interval.double]
    push_cast
    ring
  by_cases hlast : d.shifts + 1 = 8
  · obtain ⟨b, d', hb, hdouble⟩ := double_of_last_supplied hlast (by omega)
    rw [hdouble]
    refine ⟨hrange, ?_, ?_, hb.inside.trans h.inside, one_dvd _, ?_,
      Interval.encloses_double.mpr h.encloses⟩
    · show 0 = (i.shifts + 1) % 8
      omega
    · show d'.position + d'.missing = 2 + (i.shifts + 1) / 8
      rw [hb.clock]
      omega
    · rw [hunits, h.window, hb.value, show d.shifts = 7 by omega]
      push_cast
      ring
  · rw [double_of_ne_last hlast (by omega)]
    refine ⟨hrange, ?_, ?_, h.inside, ?_, ?_, Interval.encloses_double.mpr h.encloses⟩
    · show d.shifts + 1 = (i.shifts + 1) % 8
      omega
    · show d.position + d.missing = 2 + (i.shifts + 1) / 8
      omega
    · show 2 ^ (d.shifts + 1) ∣ 2 * d.window
      rw [pow_succ']
      exact mul_dvd_mul_left 2 h.aligned
    · rw [hunits, h.window]
      push_cast
      ring

theorem Locates.renormalize (h : Locates d i data) (fuel : Nat) :
    Locates (d.renormalize fuel) (i.normalize fuel) data := by
  induction fuel generalizing d i with
  | zero => exact h
  | succ fuel ih =>
    simp only [BoolDecoder.renormalize, Interval.normalize]
    rw [h.range]
    split
    case isTrue hr => exact ih (h.double hr)
    case isFalse => exact h

/-! ### Reading -/

/-- The decoder reads the bit that keeps the number enclosed. -/
theorem Locates.read (h : Locates d i data) (hi : i.Ready) (p : UInt8) :
    ∃ bit m, d.read p = (bit, m) ∧ Locates m (i.step ⟨bit, p⟩) data := by
  have hiff := h.split_le_iff (splitRange i.range p)
  have hdvd : 2 ^ d.shifts ∣ splitRange i.range p * 256 :=
    Dvd.dvd.mul_left (Nat.pow_dvd_pow 2 (show d.shifts ≤ 8 by rw [h.shifts]; omega)) _
  simp only [BoolDecoder.read]
  rw [h.range]
  by_cases hsplit : splitRange i.range p * 256 ≤ d.window
  · have hchosen := (Interval.encloses_choose_iff hi (d := ⟨true, p⟩)).mpr
      ⟨h.encloses, fun _ => hiff.mp hsplit, fun _ => rfl⟩
    rw [if_pos hsplit]
    refine ⟨true, _, rfl, Locates.renormalize ?_ 7⟩
    rw [Interval.choose_one i rfl] at hchosen ⊢
    refine ⟨rfl, h.shifts, h.clock, h.inside, Nat.dvd_sub h.aligned hdvd, ?_, hchosen⟩
    have hwindow := h.window
    push_cast [hsplit]
    linarith
  · have hchosen := (Interval.encloses_choose_iff hi (d := ⟨false, p⟩)).mpr
      ⟨h.encloses, fun hbit => absurd hbit Bool.false_ne_true,
        fun hle => absurd (hiff.mpr hle) hsplit⟩
    rw [if_neg hsplit]
    refine ⟨false, _, rfl, Locates.renormalize ?_ 7⟩
    rw [Interval.choose_zero i rfl] at hchosen ⊢
    exact ⟨rfl, h.shifts, h.clock, h.inside, h.aligned, h.window, hchosen⟩

end

/-- Answers to questions with the given probabilities, in order, and the decoder after them. -/
def readAll (d : BoolDecoder) : List UInt8 → List Bool × BoolDecoder
  | [] => ([], d)
  | p :: ps =>
    let (bit, m) := d.read p
    let (bits, m) := readAll m ps
    (bit :: bits, m)

theorem Locates.readAll {d : BoolDecoder} {i : Interval} {data : List UInt8}
    (h : Locates d i data) (hi : i.Ready) (probs : List UInt8) :
    ∃ bits m, d.readAll probs = (bits, m) ∧ bits.length = probs.length ∧
      Locates m (i.run (List.zipWith Decision.mk bits probs)) data := by
  induction probs generalizing d i with
  | nil => exact ⟨[], d, rfl, rfl, h⟩
  | cons p ps ih =>
    obtain ⟨bit, m, hread, hm⟩ := h.read hi p
    obtain ⟨bits, m', hreads, hlength, hm'⟩ := ih hm (hi.step _)
    refine ⟨bit :: bits, m', ?_, congrArg Nat.succ hlength, hm'⟩
    simp only [BoolDecoder.readAll]
    rw [hread]
    dsimp only
    rw [hreads]

/-! ## Exact decoding -/

/-- The bits and the decoder after some reads are those of exact arithmetic over the data: the
decoder has the range of the interval that the bits lead to and has asked for as many bytes as the
interval was doubled for, and the interval encloses the number that the data spells, which no other
bits achieve. -/
structure Exact (data : List UInt8) (probs : List UInt8) (bits : List Bool) (d : BoolDecoder)
    (i : Interval) : Prop where
  length : bits.length = probs.length
  range_eq : d.range = i.range
  minRange_le : 128 ≤ d.range
  range_le : d.range ≤ 255
  asked : d.position + d.missing = 2 + i.shifts / 8
  position_le : d.position ≤ data.length
  window_lt : d.window < d.range * 256
  low_le : (i.low : ℚ) ≤ dataValue data * 2 ^ i.shifts
  lt_top : dataValue data * 2 ^ i.shifts < i.low + i.range
  unique : ∀ bits' : List Bool, bits'.length = probs.length →
    (Interval.run {} (List.zipWith Decision.mk bits' probs)).Encloses (dataValue data) →
      bits' = bits

/-- Whatever data is decoded, with whatever probabilities, every read is that of exact arithmetic,
before the end of the data and after it. -/
theorem readAll_exact {data : List UInt8} (h : data.head? ≠ some 255) (probs : List UInt8) :
    ∃ bits d, (start data).readAll probs = (bits, d) ∧
      Exact data probs bits d (Interval.run {} (List.zipWith Decision.mk bits probs)) := by
  obtain ⟨bits, d, hread, hlength, hd⟩ := (locates_start h).readAll Interval.ready_start probs
  have hready := Interval.ready_start.run (List.zipWith Decision.mk bits probs)
  have hinside := hd.inside
  refine ⟨bits, d, hread, hlength, hd.range, ?_, ?_, hd.clock, by omega, ?_,
    hd.encloses.low_le, hd.encloses.lt_top, ?_⟩
  · rw [hd.range]
    exact hready.minRange_le
  · rw [hd.range]
    exact Nat.le_of_lt_succ hready.range_lt
  · rw [hd.range, Nat.mul_comm]
    exact hd.window_lt
  · intro bits' hlength' hencloses
    exact Interval.bits_eq_of_encloses Interval.ready_start hlength' hlength hencloses hd.encloses

/-- Six reads of a single byte, with the largest and the least probabilities. -/
theorem readAll_exact_short :
    let data : List UInt8 := [254]
    let probs : List UInt8 := [0, 255, 128, 0, 255, 1]
    data.head? ≠ some 255 ∧
      ∃ bits d, (start data).readAll probs = (bits, d) ∧
        Exact data probs bits d (Interval.run {} (List.zipWith Decision.mk bits probs)) :=
  ⟨by decide, readAll_exact (by decide) _⟩

end BoolDecoder

end ResidualCodec
