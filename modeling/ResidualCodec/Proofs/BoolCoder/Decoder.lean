/-
  ResidualCodec.Proofs.BoolCoder.Decoder

  The decoder follows the interval over its data: its window is the distance of
  the data from the lower end. While the data lies in the interval that the
  decisions lead to, the decoder reads exactly these decisions.
-/

import ResidualCodec.BoolCoder.Decoder
import ResidualCodec.Proofs.BoolCoder.Encoder
import ResidualCodec.Proofs.Reader.Replay

namespace ResidualCodec

/-! ## Data in view -/

/-- The number that the first `n` bytes spell, most significant first. -/
def leadingValue (data : List UInt8) (n : Nat) : Nat := bytesValue (data.take n).reverse

theorem leadingValue_succ {data : List UInt8} {n : Nat} (h : n < data.length) :
    leadingValue data (n + 1) = data[n].toNat + 256 * leadingValue data n := by
  simp only [leadingValue]
  rw [List.take_succ_eq_append_getElem h, List.reverse_append, List.reverse_singleton,
    List.singleton_append, bytesValue_cons]

/-- What a decoder has seen after some doublings: two bytes and one more for every eight doublings,
on the scale of its window. -/
def view (data : List UInt8) (shifts : Nat) : Nat :=
  2 ^ (shifts % 8) * leadingValue data (2 + shifts / 8)

theorem view_zero (data : List UInt8) : view data 0 = leadingValue data 2 := by
  show 1 * leadingValue data 2 = _
  rw [Nat.one_mul]

theorem view_succ {shifts : Nat} (data : List UInt8) (h : shifts % 8 + 1 ≠ 8) :
    view data (shifts + 1) = 2 * view data shifts := by
  have hmod : (shifts + 1) % 8 = shifts % 8 + 1 := by omega
  have hdiv : (shifts + 1) / 8 = shifts / 8 := by omega
  simp only [view]
  rw [hmod, hdiv, Nat.pow_succ', Nat.mul_assoc]

/-- Before a byte is read, what is in view is a multiple of 128. -/
theorem view_eq_of_last {shifts : Nat} (data : List UInt8) (h : shifts % 8 + 1 = 8) :
    view data shifts = 128 * leadingValue data (2 + shifts / 8) := by
  have hmod : shifts % 8 = 7 := by omega
  simp only [view]
  rw [hmod, show 2 ^ 7 = 128 from rfl]

theorem view_succ_of_last {data : List UInt8} {shifts : Nat} (h : shifts % 8 + 1 = 8)
    (hlen : 2 + shifts / 8 < data.length) :
    view data (shifts + 1) = 2 * view data shifts + data[2 + shifts / 8].toNat := by
  have hmod : (shifts + 1) % 8 = 0 := by omega
  have hdiv : 2 + (shifts + 1) / 8 = 2 + shifts / 8 + 1 := by omega
  rw [view_eq_of_last data h]
  simp only [view]
  rw [hmod, hdiv, leadingValue_succ hlen]
  omega

/-! ## Data inside an interval -/

namespace Interval

/-- The data lies in the interval, as far as it is in view. -/
structure Contains (i : Interval) (data : List UInt8) : Prop where
  low_le : 256 * i.low ≤ view data i.shifts
  lt_top : view data i.shifts < 256 * (i.low + i.range)

/-- How many bytes a decoder has read. -/
def consumed (i : Interval) : Nat := 2 + i.shifts / 8

theorem consumed_le {i j : Interval} (h : i.shifts ≤ j.shifts) : i.consumed ≤ j.consumed := by
  simp only [consumed]
  omega

variable {i : Interval} {data : List UInt8}

/-- A doubling brings at most a byte into view, which decides nothing about whole units. -/
theorem contains_double (hlen : i.double.consumed ≤ data.length) :
    i.double.Contains data ↔ i.Contains data := by
  have hshifts : i.double.shifts = i.shifts + 1 := rfl
  have hlow : i.double.low = 2 * i.low := rfl
  have hrange : i.double.range = 2 * i.range := rfl
  by_cases hlast : i.shifts % 8 + 1 = 8
  · have hlt : 2 + i.shifts / 8 < data.length := by
      simp only [consumed] at hlen
      omega
    have hview := view_succ_of_last hlast hlt
    have hseven := view_eq_of_last data hlast
    have hbyte : data[2 + i.shifts / 8].toNat < 256 := UInt8.toNat_lt _
    rw [← hshifts] at hview
    constructor
    · rintro ⟨hle, htop⟩
      exact ⟨by omega, by omega⟩
    · rintro ⟨hle, htop⟩
      exact ⟨by omega, by omega⟩
  · have hview := view_succ data hlast
    rw [← hshifts] at hview
    constructor
    · rintro ⟨hle, htop⟩
      exact ⟨by omega, by omega⟩
    · rintro ⟨hle, htop⟩
      exact ⟨by omega, by omega⟩

theorem contains_normalize (fuel : Nat) (hlen : (i.normalize fuel).consumed ≤ data.length) :
    (i.normalize fuel).Contains data ↔ i.Contains data := by
  induction fuel generalizing i with
  | zero => exact Iff.rfl
  | succ fuel ih =>
    simp only [normalize] at hlen ⊢
    split at hlen
    case isTrue hr =>
      rw [if_pos hr, ih hlen]
      exact contains_double (Nat.le_trans (consumed_le (shifts_le_normalize i.double fuel)) hlen)
    case isFalse hr => rw [if_neg hr]

/-- What a decision keeps lies in what was there before it. -/
theorem Contains.of_choose (hi : i.Ready) {d : Decision} (h : (i.choose d).Contains data) :
    i.Contains data := by
  have hmin : 128 ≤ i.range := hi.minRange_le
  have hsplit := splitRange_lt (show 1 < i.range by omega) d.prob
  have hle := h.low_le
  have hlt := h.lt_top
  rw [choose_shifts] at hle hlt
  cases hb : d.bit with
  | false =>
    rw [choose_zero i hb] at hle hlt
    have hlt' : view data i.shifts < 256 * (i.low + splitRange i.range d.prob) := hlt
    exact ⟨hle, by omega⟩
  | true =>
    rw [choose_one i hb] at hle hlt
    have hle' : 256 * (i.low + splitRange i.range d.prob) ≤ view data i.shifts := hle
    have hlt' : view data i.shifts <
      256 * (i.low + splitRange i.range d.prob + (i.range - splitRange i.range d.prob)) := hlt
    exact ⟨by omega, by omega⟩

theorem Contains.of_run (hi : i.Ready) {ds : List Decision}
    (hlen : (i.run ds).consumed ≤ data.length) (h : (i.run ds).Contains data) :
    i.Contains data := by
  induction ds generalizing i with
  | nil => exact h
  | cons d ds ih =>
    have hstep := ih (hi.step d) hlen h
    have hle := Nat.le_trans (consumed_le (shifts_le_run (i.step d) ds)) hlen
    exact Contains.of_choose hi ((contains_normalize 7 hle).mp hstep)

end Interval

/-! ## The decoder and the interval -/

namespace BoolDecoder

/-- The decoder `d` stands for the interval `i` over the data. -/
structure Tracks (d : BoolDecoder) (i : Interval) (data : List UInt8) : Prop where
  range : d.range = i.range
  shifts : d.shifts = i.shifts % 8
  rest : d.rest = data.drop i.consumed
  -- The window is the distance of the data from the lower end.
  window : d.window + 256 * i.low = view data i.shifts
  missing : d.missing = 0

theorem tracks_start {data : List UInt8} (h : 2 ≤ data.length) :
    Tracks (start data) {} data := by
  match data, h with
  | a :: b :: rest, _ =>
    refine ⟨rfl, rfl, rfl, ?_, rfl⟩
    show 256 * a.toNat + b.toNat + 256 * 0 = view (a :: b :: rest) 0
    rw [view_zero]
    show _ = b.toNat + 256 * (a.toNat + 256 * 0)
    omega

section

variable {d : BoolDecoder} {i : Interval} {data : List UInt8}

/-- Data in the interval keeps the window below the range. -/
theorem Tracks.window_lt (h : Tracks d i data) (hc : i.Contains data) :
    d.window < 256 * i.range := by
  have hwindow := h.window
  have hlt := hc.lt_top
  omega

/-! ### Doubling -/

theorem double_of_ne_last (hne : d.shifts + 1 ≠ 8) (hlt : d.window < 0x80000000) :
    d.double = { d with range := 2 * d.range, window := 2 * d.window, shifts := d.shifts + 1 } := by
  have hmod : 2 * d.window % 0x100000000 = 2 * d.window := Nat.mod_eq_of_lt (by omega)
  simp only [double, if_neg hne, hmod]

theorem double_of_last {b : UInt8} {bs : List UInt8} (hlast : d.shifts + 1 = 8)
    (hlt : d.window < 0x80000000) (hrest : d.rest = b :: bs) :
    d.double = { d with
      rest := bs, position := d.position + 1, range := 2 * d.range
      window := 2 * d.window + b.toNat, shifts := 0 } := by
  have hmod : 2 * d.window % 0x100000000 = 2 * d.window := Nat.mod_eq_of_lt (by omega)
  simp only [double, if_pos hlast, nextByte, hrest, hmod]

theorem Tracks.double (h : Tracks d i data) (hr : i.range < minRange) (hc : i.Contains data)
    (hlen : i.double.consumed ≤ data.length) :
    Tracks d.double i.double data := by
  have hr' : i.range < 128 := hr
  have hrange : 2 * d.range = i.double.range := by
    rw [h.range]
    rfl
  have hwindow := h.window
  have hlt := h.window_lt hc
  by_cases hlast : i.shifts % 8 + 1 = 8
  · have hbyte : 2 + i.shifts / 8 < data.length := by
      have hle : 2 + (i.shifts + 1) / 8 ≤ data.length := hlen
      omega
    have hrest : d.rest = data[2 + i.shifts / 8] :: data.drop (2 + i.shifts / 8 + 1) := by
      rw [h.rest]
      exact List.drop_eq_getElem_cons hbyte
    have hview := view_succ_of_last hlast hbyte
    rw [double_of_last (by rw [h.shifts]; exact hlast) (by omega) hrest]
    refine ⟨hrange, ?_, ?_, ?_, h.missing⟩
    · show 0 = (i.shifts + 1) % 8
      omega
    · show data.drop (2 + i.shifts / 8 + 1) = data.drop (2 + (i.shifts + 1) / 8)
      congr 1
      omega
    · show 2 * d.window + data[2 + i.shifts / 8].toNat + 256 * (2 * i.low) =
        view data (i.shifts + 1)
      omega
  · have hview := view_succ data hlast
    rw [double_of_ne_last (by rw [h.shifts]; exact hlast) (by omega)]
    refine ⟨hrange, ?_, ?_, ?_, h.missing⟩
    · show d.shifts + 1 = (i.shifts + 1) % 8
      rw [h.shifts]
      omega
    · show d.rest = data.drop (2 + (i.shifts + 1) / 8)
      rw [h.rest]
      show data.drop (2 + i.shifts / 8) = _
      congr 1
      omega
    · show 2 * d.window + 256 * (2 * i.low) = view data (i.shifts + 1)
      omega

theorem Tracks.renormalize (h : Tracks d i data) (fuel : Nat)
    (hc : (i.normalize fuel).Contains data) (hlen : (i.normalize fuel).consumed ≤ data.length) :
    Tracks (d.renormalize fuel) (i.normalize fuel) data := by
  have hcontains := (Interval.contains_normalize fuel hlen).mp hc
  induction fuel generalizing d i with
  | zero => exact h
  | succ fuel ih =>
    simp only [BoolDecoder.renormalize]
    simp only [Interval.normalize] at hc hlen ⊢
    rw [h.range]
    split
    case isTrue hr =>
      rw [if_pos hr] at hc hlen
      have hle := Nat.le_trans
        (Interval.consumed_le (Interval.shifts_le_normalize i.double fuel)) hlen
      exact ih (h.double hr hcontains hle) hc hlen ((Interval.contains_double hle).mpr hcontains)
    case isFalse => exact h

/-! ### Reading -/

/-- The decoder reads the decision that keeps the data inside, and follows it. -/
theorem Tracks.read (h : Tracks d i data) {dec : Decision} (hc : (i.step dec).Contains data)
    (hlen : (i.step dec).consumed ≤ data.length) :
    ∃ m, d.read dec.prob = (dec.bit, m) ∧ Tracks m (i.step dec) data := by
  have hchosen := (Interval.contains_normalize 7 hlen).mp hc
  have hwindow := h.window
  have hle := hchosen.low_le
  have hlt := hchosen.lt_top
  rw [Interval.choose_shifts] at hle hlt
  simp only [BoolDecoder.read]
  simp only [Interval.step] at hc hlen ⊢
  rw [h.range]
  cases hb : dec.bit with
  | false =>
    rw [Interval.choose_zero i hb] at hc hlen hlt ⊢
    have hlt' : view data i.shifts < 256 * (i.low + splitRange i.range dec.prob) := hlt
    have hsplit : ¬ splitRange i.range dec.prob * 256 ≤ d.window := by omega
    have hpart : Tracks { d with range := splitRange i.range dec.prob }
        { i with range := splitRange i.range dec.prob } data :=
      ⟨rfl, h.shifts, h.rest, h.window, h.missing⟩
    rw [if_neg hsplit]
    exact ⟨_, rfl, hpart.renormalize 7 hc hlen⟩
  | true =>
    rw [Interval.choose_one i hb] at hc hlen hle ⊢
    have hle' : 256 * (i.low + splitRange i.range dec.prob) ≤ view data i.shifts := hle
    have hsplit : splitRange i.range dec.prob * 256 ≤ d.window := by omega
    have hpart : Tracks { d with
          range := i.range - splitRange i.range dec.prob
          window := d.window - splitRange i.range dec.prob * 256 }
        { i with
          low := i.low + splitRange i.range dec.prob
          range := i.range - splitRange i.range dec.prob } data := by
      refine ⟨rfl, h.shifts, h.rest, ?_, h.missing⟩
      show d.window - splitRange i.range dec.prob * 256 +
        256 * (i.low + splitRange i.range dec.prob) = view data i.shifts
      omega
    rw [if_pos hsplit]
    exact ⟨_, rfl, hpart.renormalize 7 hc hlen⟩

/-- Over data that lies in the interval that some decisions lead to, the decoder replays them. -/
theorem Tracks.replays (h : Tracks d i data) (hi : i.Ready) (ds : List Decision)
    (hc : (i.run ds).Contains data) (hlen : (i.run ds).consumed ≤ data.length) :
    ∃ m, Replays d ds m ∧ Tracks m (i.run ds) data := by
  induction ds generalizing d i with
  | nil => exact ⟨d, .nil d, h⟩
  | cons dec ds ih =>
    have hstep := Interval.Contains.of_run (hi.step dec) hlen hc
    have hle := Nat.le_trans
      (Interval.consumed_le (Interval.shifts_le_run (i.step dec) ds)) hlen
    obtain ⟨m, hread, hm⟩ := h.read hstep hle
    obtain ⟨k, hreplays, hk⟩ := ih hm (hi.step dec) hc hlen
    have hin : m.overrun = false := by
      simp only [overrun]
      rw [hm.missing]
      rfl
    exact ⟨k, .cons hread hin hreplays, hk⟩

end

end BoolDecoder

end ResidualCodec
