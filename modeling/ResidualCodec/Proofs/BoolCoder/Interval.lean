/-
  ResidualCodec.Proofs.BoolCoder.Interval

  The interval of the binary arithmetic coder on unbounded numbers. A coder
  starts with an interval of 255 values. Each decision keeps one part of it, and
  what is left is doubled until it holds at least 128 values again. The encoder
  keeps the lower end of this interval in bytes, and the decoder the distance of
  its data from that end, so each of them is related to the interval and not to
  the other.
-/

import Mathlib.Tactic.Ring
import ResidualCodec.BoolCoder.Decision

namespace ResidualCodec

/-! ## Splitting a range -/

theorem splitRange_pos (range : Nat) (prob : UInt8) : 0 < splitRange range prob := by
  simp only [splitRange]
  omega

/-- A zero never takes the whole range, not even at probability 255. -/
theorem splitRange_lt {range : Nat} (h : 1 < range) (prob : UInt8) :
    splitRange range prob < range := by
  have hp : prob.toNat < 256 := prob.toNat_lt
  have hmul : (range - 1) * prob.toNat < (range - 1) * 256 :=
    Nat.mul_lt_mul_of_pos_left hp (by omega)
  have hdiv : (range - 1) * prob.toNat / 256 < range - 1 :=
    Nat.div_lt_of_lt_mul (by rw [Nat.mul_comm 256]; exact hmul)
  simp only [splitRange]
  omega

/-! ## Intervals -/

/-- An interval of the coder: `range` values from `low` on, in units that have been halved
`shifts` times since the start. -/
structure Interval where
  low : Nat := 0
  range : Nat := 255
  shifts : Nat := 0

namespace Interval

/-- The same interval in units of half the size. -/
def double (i : Interval) : Interval := ⟨2 * i.low, 2 * i.range, i.shifts + 1⟩

/-- Double until the range is large enough, `fuel` times at most. -/
def normalize : (fuel : Nat) → Interval → Interval
  | 0, i => i
  | fuel + 1, i => if i.range < minRange then normalize fuel i.double else i

/-- The part that a decision keeps: the lower one for a zero, the upper one for a one. -/
def choose (i : Interval) (d : Decision) : Interval :=
  let split := splitRange i.range d.prob
  if d.bit then { i with low := i.low + split, range := i.range - split }
  else { i with range := split }

/-- The interval after a decision. -/
def step (i : Interval) (d : Decision) : Interval := normalize 7 (i.choose d)

/-- The interval after decisions in order. -/
def run (i : Interval) (ds : List Decision) : Interval := ds.foldl step i

theorem run_cons (i : Interval) (d : Decision) (ds : List Decision) :
    i.run (d :: ds) = (i.step d).run ds := rfl

theorem choose_one (i : Interval) {d : Decision} (h : d.bit = true) :
    i.choose d = { i with
      low := i.low + splitRange i.range d.prob, range := i.range - splitRange i.range d.prob } := by
  simp only [choose, h, if_true]

theorem choose_zero (i : Interval) {d : Decision} (h : d.bit = false) :
    i.choose d = { i with range := splitRange i.range d.prob } := by
  simp only [choose, h, Bool.false_eq_true, if_false]

theorem choose_shifts (i : Interval) (d : Decision) : (i.choose d).shifts = i.shifts := by
  simp only [choose]
  cases d.bit <;> rfl

/-! ## Bounds -/

/-- What holds of an interval at any moment: it is not empty, its range fits a byte, and it lies
inside the interval of the start. -/
structure Bounded (i : Interval) : Prop where
  range_pos : 0 < i.range
  range_lt : i.range < 256
  top_le : i.low + i.range ≤ 255 * 2 ^ i.shifts

/-- What holds of an interval between two decisions. -/
structure Ready (i : Interval) : Prop extends Bounded i where
  minRange_le : minRange ≤ i.range

theorem ready_start : Ready {} := ⟨⟨by decide, by decide, by decide⟩, by decide⟩

/-- A decision keeps a part of the interval, which is never empty. -/
theorem Ready.choose {i : Interval} (h : i.Ready) (d : Decision) : (i.choose d).Bounded := by
  have hmin : 128 ≤ i.range := h.minRange_le
  have hlt := h.range_lt
  have htop := h.top_le
  have hpos := splitRange_pos i.range d.prob
  have hsplit : splitRange i.range d.prob < i.range := splitRange_lt (by omega) d.prob
  cases hb : d.bit with
  | false =>
    rw [choose_zero i hb]
    refine ⟨hpos, show splitRange i.range d.prob < 256 by omega, ?_⟩
    show i.low + splitRange i.range d.prob ≤ 255 * 2 ^ i.shifts
    omega
  | true =>
    rw [choose_one i hb]
    refine ⟨show 0 < i.range - _ by omega, show i.range - _ < 256 by omega, ?_⟩
    show i.low + splitRange i.range d.prob + (i.range - splitRange i.range d.prob) ≤
      255 * 2 ^ i.shifts
    omega

theorem Bounded.double {i : Interval} (h : i.Bounded) (hr : i.range < minRange) :
    i.double.Bounded := by
  have hpos := h.range_pos
  have htop := h.top_le
  have hr' : i.range < 128 := hr
  refine ⟨show 0 < 2 * i.range by omega, show 2 * i.range < 256 by omega, ?_⟩
  show 2 * i.low + 2 * i.range ≤ 255 * 2 ^ (i.shifts + 1)
  rw [Nat.pow_succ]
  omega

theorem Bounded.normalize {i : Interval} (h : i.Bounded) (fuel : Nat) :
    (i.normalize fuel).Bounded := by
  induction fuel generalizing i with
  | zero => exact h
  | succ fuel ih =>
    simp only [Interval.normalize]
    split
    case isTrue hr => exact ih (h.double hr)
    case isFalse => exact h

/-- Enough doublings make the range large enough. -/
theorem minRange_le_normalize {i : Interval} (fuel : Nat) (h : minRange ≤ i.range * 2 ^ fuel) :
    minRange ≤ (i.normalize fuel).range := by
  induction fuel generalizing i with
  | zero => rwa [Nat.pow_zero, Nat.mul_one] at h
  | succ fuel ih =>
    simp only [Interval.normalize]
    split
    case isTrue =>
      apply ih
      show minRange ≤ 2 * i.range * 2 ^ fuel
      rwa [Nat.mul_comm 2, Nat.mul_assoc, Nat.mul_comm 2, ← Nat.pow_succ]
    case isFalse hr => exact Nat.le_of_not_lt hr

theorem Ready.step {i : Interval} (h : i.Ready) (d : Decision) : (i.step d).Ready := by
  have hc := h.choose d
  refine ⟨hc.normalize 7, minRange_le_normalize 7 ?_⟩
  have hpos := hc.range_pos
  show 128 ≤ (i.choose d).range * 2 ^ 7
  omega

theorem Ready.run {i : Interval} (h : i.Ready) (ds : List Decision) : (i.run ds).Ready := by
  induction ds generalizing i with
  | nil => exact h
  | cons d ds ih => exact ih (h.step d)

/-! ## The clock -/

theorem shifts_le_normalize (i : Interval) (fuel : Nat) :
    i.shifts ≤ (i.normalize fuel).shifts := by
  induction fuel generalizing i with
  | zero => exact Nat.le_refl _
  | succ fuel ih =>
    simp only [normalize]
    split
    case isTrue => exact Nat.le_trans (Nat.le_succ i.shifts) (ih i.double)
    case isFalse => exact Nat.le_refl _

theorem shifts_le_step (i : Interval) (d : Decision) : i.shifts ≤ (i.step d).shifts := by
  have h := shifts_le_normalize (i.choose d) 7
  rwa [choose_shifts] at h

theorem shifts_le_run (i : Interval) (ds : List Decision) : i.shifts ≤ (i.run ds).shifts := by
  induction ds generalizing i with
  | nil => exact Nat.le_refl _
  | cons d ds ih => exact Nat.le_trans (shifts_le_step i d) (ih (i.step d))

end Interval

end ResidualCodec
