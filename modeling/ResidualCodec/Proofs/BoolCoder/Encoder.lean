/-
  ResidualCodec.Proofs.BoolCoder.Encoder

  The encoder follows the interval: its bytes and its pending bits spell the
  lower end. At most one carry is pending at any moment, it is seen before it
  leaves the pending bits, and the bytes always have room for it.
-/

import ResidualCodec.BoolCoder.Encoder
import ResidualCodec.Proofs.BoolCoder.Interval

namespace ResidualCodec

/-! ## Numbers in bytes -/

/-- The number that bytes spell, least significant first. -/
def bytesValue : List UInt8 → Nat
  | [] => 0
  | b :: bs => b.toNat + 256 * bytesValue bs

theorem bytesValue_nil : bytesValue [] = 0 := rfl

theorem bytesValue_cons (b : UInt8) (bs : List UInt8) :
    bytesValue (b :: bs) = b.toNat + 256 * bytesValue bs := rfl

/-- Bytes without the `k` least significant ones spell the number without its low bits. -/
theorem bytesValue_drop (bs : List UInt8) (k : Nat) :
    bytesValue (bs.drop k) = bytesValue bs / 256 ^ k := by
  induction k generalizing bs with
  | zero => rw [List.drop_zero, Nat.pow_zero, Nat.div_one]
  | succ k ih =>
    cases bs with
    | nil => rw [List.drop_nil, bytesValue_nil, Nat.zero_div]
    | cons b bs =>
      have hb : b.toNat < 256 := b.toNat_lt
      have hhead : (b.toNat + 256 * bytesValue bs) / 256 = bytesValue bs := by omega
      rw [List.drop_succ_cons, ih, bytesValue_cons, Nat.pow_succ, Nat.mul_comm (256 ^ k) 256,
        ← Nat.div_div_eq_div_mul, hhead]

theorem toNat_add_one {b : UInt8} (h : b ≠ 255) : (b + 1).toNat = b.toNat + 1 := by
  have hb : b.toNat < 256 := b.toNat_lt
  have hne : b.toNat ≠ 255 := by
    intro hn
    exact h (UInt8.toNat_inj.mp hn)
  rw [UInt8.toNat_add]
  show (b.toNat + 1) % 2 ^ 8 = b.toNat + 1
  omega

namespace BoolEncoder

theorem length_carry (bs : List UInt8) : (carry bs).length = bs.length := by
  induction bs with
  | nil => rfl
  | cons b bs ih =>
    simp only [carry]
    split
    case isTrue => rw [List.length_cons, List.length_cons, ih]
    case isFalse => rfl

/-- A carry adds one, where the bytes have room for it. -/
theorem bytesValue_carry (bs : List UInt8) (h : bytesValue bs + 1 < 256 ^ bs.length) :
    bytesValue (carry bs) = bytesValue bs + 1 := by
  induction bs with
  | nil => exact absurd h (by decide)
  | cons b bs ih =>
    rw [bytesValue_cons, List.length_cons, Nat.pow_succ] at h
    simp only [carry]
    split
    case isTrue hb =>
      have h255 : b.toNat = 255 := by rw [hb]; rfl
      rw [h255] at h
      rw [bytesValue_cons, bytesValue_cons, ih (by omega), h255]
      show 0 + 256 * (bytesValue bs + 1) = 255 + 256 * bytesValue bs + 1
      omega
    case isFalse hb =>
      rw [bytesValue_cons, bytesValue_cons, toNat_add_one hb]
      omega

/-- The four bytes of a number spell it below the bytes before them. -/
theorem bytesValue_fourBytes {n : Nat} (h : n < 2 ^ 32) (bs : List UInt8) :
    bytesValue ((fourBytes n).reverse ++ bs) = n + 2 ^ 32 * bytesValue bs := by
  show bytesValue (UInt8.ofNat n :: UInt8.ofNat (n >>> 8) :: UInt8.ofNat (n >>> 16) ::
    UInt8.ofNat (n >>> 24) :: bs) = _
  simp only [bytesValue_cons, UInt8.toNat_ofNat', Nat.shiftRight_eq_div_pow]
  omega

/-! ## The encoder and the interval -/

/-- The encoder `e` stands for the interval `i`. -/
structure Represents (e : BoolEncoder) (i : Interval) : Prop where
  range : e.range = i.range
  -- Emitted bytes and pending bits spell the lower end.
  low : 2 ^ (32 - e.countdown) * bytesValue e.emitted + e.low = i.low
  -- Every doubling has moved the countdown or emitted a byte.
  clock : i.shifts + e.countdown = 24 + 8 * e.emitted.length
  countdown_pos : 0 < e.countdown
  countdown_le : 0 < e.emitted.length → e.countdown ≤ 8
  -- The pending bits hold one carry at most.
  top_le : e.low + e.range ≤ 2 * 2 ^ (32 - e.countdown)

theorem represents_start : Represents {} {} := by
  refine ⟨rfl, rfl, rfl, by decide, ?_, by decide⟩
  intro h
  exact absurd h (by decide)

section

variable {e : BoolEncoder} {i : Interval}

theorem Represents.range_pos (h : Represents e i) (hi : i.Bounded) : 0 < e.range := by
  rw [h.range]
  exact hi.range_pos

theorem Represents.countdown_lt (h : Represents e i) : e.countdown < 25 := by
  have hclock := h.clock
  have hle := h.countdown_le
  omega

/-- There are `2 ^ countdown` times as many numbers of 32 bits as pending ones. -/
theorem Represents.pow_mul_pow (h : Represents e i) :
    2 ^ (32 - e.countdown) * 2 ^ e.countdown = 2 ^ 32 := by
  have hlt := h.countdown_lt
  rw [← Nat.pow_add]
  congr 1
  omega

/-- Emitted bytes that a carry reaches are not all 255: the interval ends below the number that
they would overflow to. -/
theorem Represents.room (h : Represents e i) (hi : i.Bounded)
    (hcarry : 2 ^ (32 - e.countdown) ≤ e.low) :
    bytesValue e.emitted + 1 < 256 ^ e.emitted.length := by
  have hpos := hi.range_pos
  have htop := hi.top_le
  have hlow := h.low
  -- 256 values of the start would need one more byte, and the interval lies below 255.
  have hpow : 2 ^ i.shifts * 256 = 2 ^ (32 - e.countdown) * 256 ^ e.emitted.length := by
    have hclock := h.clock
    have hlt := h.countdown_lt
    rw [show (256 : Nat) = 2 ^ 8 from rfl, ← Nat.pow_mul, ← Nat.pow_add, ← Nat.pow_add]
    congr 1
    omega
  by_contra hfull
  have hle : 2 ^ (32 - e.countdown) * 256 ^ e.emitted.length ≤
      2 ^ (32 - e.countdown) * (bytesValue e.emitted + 1) :=
    Nat.mul_le_mul_left _ (by omega)
  have hsplit : 2 ^ (32 - e.countdown) * (bytesValue e.emitted + 1) =
      2 ^ (32 - e.countdown) * bytesValue e.emitted + 2 ^ (32 - e.countdown) := by ring
  omega

/-! ### Doubling -/

/-- While more than one doubling is left, nothing is emitted and nothing carried. -/
theorem double_of_ne_one (hne : e.countdown ≠ 1) (hlow : e.low < 0x80000000) :
    e.double = { e with
      range := 2 * e.range, low := 2 * e.low, countdown := e.countdown - 1 } := by
  have hmod : 2 * e.low % 0x100000000 = 2 * e.low := Nat.mod_eq_of_lt (by omega)
  simp only [double, if_neg hne, if_neg (Nat.not_le.mpr hlow), hmod]

/-- The last doubling emits the top byte. -/
theorem double_of_eq_one (hone : e.countdown = 1) :
    e.double = { e with
      range := 2 * e.range
      low := 2 * e.low % 0x100000000 % 0x1000000
      countdown := 8
      emitted := UInt8.ofNat ((2 * e.low % 0x100000000) >>> 24) ::
        if 0x80000000 ≤ e.low then carry e.emitted else e.emitted } := by
  simp only [double, if_pos hone]

/-- A pending bit that is pushed out is not lost: the emitted bytes take it. -/
theorem Represents.bytesValue_carried (h : Represents e i) (hi : i.Bounded)
    (hone : e.countdown = 1) :
    0x100000000 * bytesValue (if 0x80000000 ≤ e.low then carry e.emitted else e.emitted) +
      2 * e.low % 0x100000000 = 2 * i.low := by
  have hlow := h.low
  have htop := h.top_le
  have hroom := h.room hi
  have hpos := h.range_pos hi
  have hpow : 2 ^ (32 - e.countdown) = 0x80000000 := by rw [hone]; decide
  rw [hpow] at hlow htop hroom
  split
  case isTrue hcarry =>
    rw [bytesValue_carry _ (hroom hcarry)]
    omega
  case isFalse => omega

theorem Represents.double (h : Represents e i) (hi : i.Bounded) (hr : i.range < minRange) :
    Represents e.double i.double := by
  have hrange := h.range
  have hpos := hi.range_pos
  have hclock := h.clock
  have hr' : i.range < 128 := hr
  have htop := h.top_le
  by_cases hone : e.countdown = 1
  · have hcarried := h.bytesValue_carried hi hone
    have hlen : (if 0x80000000 ≤ e.low then carry e.emitted else e.emitted).length =
        e.emitted.length := by
      split
      · exact length_carry e.emitted
      · rfl
    rw [double_of_eq_one hone]
    refine ⟨?_, ?_, ?_, show 0 < 8 by decide, ?_, ?_⟩
    · show 2 * e.range = 2 * i.range
      rw [hrange]
    · rw [bytesValue_cons, UInt8.toNat_ofNat', Nat.shiftRight_eq_div_pow]
      show 0x1000000 * _ + 2 * e.low % 0x100000000 % 0x1000000 = 2 * i.low
      omega
    · show i.shifts + 1 + 8 = 24 + 8 * (_ :: _).length
      rw [List.length_cons, hlen]
      omega
    · intro _
      exact Nat.le_refl 8
    · show 2 * e.low % 0x100000000 % 0x1000000 + 2 * e.range ≤ 2 * 2 ^ 24
      omega
  · -- Two doublings or more are left, so the pending bits fill at most 31 of the 32.
    have hcount := h.countdown_pos
    have hlt := h.countdown_lt
    have hpow : 2 * 2 ^ (32 - e.countdown) = 2 ^ (32 - (e.countdown - 1)) := by
      rw [← Nat.pow_succ']
      congr 1
      omega
    have hle : 2 ^ (32 - (e.countdown - 1)) ≤ 2 ^ 31 :=
      Nat.pow_le_pow_right (by decide) (by omega)
    rw [double_of_ne_one hone (by omega)]
    refine ⟨?_, ?_, ?_, show 0 < e.countdown - 1 by omega, ?_, ?_⟩
    · show 2 * e.range = 2 * i.range
      rw [hrange]
    · show 2 ^ (32 - (e.countdown - 1)) * bytesValue e.emitted + 2 * e.low = 2 * i.low
      rw [← hpow, ← h.low]
      ring
    · show i.shifts + 1 + (e.countdown - 1) = 24 + 8 * e.emitted.length
      omega
    · intro hlen
      have hle := h.countdown_le hlen
      show e.countdown - 1 ≤ 8
      omega
    · show 2 * e.low + 2 * e.range ≤ 2 * 2 ^ (32 - (e.countdown - 1))
      omega

theorem Represents.renormalize (h : Represents e i) (hi : i.Bounded) (fuel : Nat) :
    Represents (e.renormalize fuel) (i.normalize fuel) := by
  induction fuel generalizing e i with
  | zero => exact h
  | succ fuel ih =>
    simp only [BoolEncoder.renormalize, Interval.normalize]
    rw [h.range]
    split
    case isTrue hr => exact ih (h.double hi hr) (hi.double hr)
    case isFalse => exact h

/-! ### Writing -/

/-- A part of the interval needs no more pending bits than the whole. -/
theorem Represents.narrow (h : Represents e i) {offset range : Nat}
    (hle : offset + range ≤ e.range) :
    Represents { e with low := e.low + offset, range := range }
      { i with low := i.low + offset, range := range } := by
  have htop := h.top_le
  refine ⟨rfl, ?_, h.clock, h.countdown_pos, h.countdown_le, ?_⟩
  · show 2 ^ (32 - e.countdown) * bytesValue e.emitted + (e.low + offset) = i.low + offset
    rw [← Nat.add_assoc, h.low]
  · show e.low + offset + range ≤ 2 * 2 ^ (32 - e.countdown)
    omega

/-- The pending bits and the range fit 32 bits, so the sum that a one forms does not wrap. -/
theorem Represents.top_le_max (h : Represents e i) : e.low + e.range ≤ 0x100000000 := by
  have htop := h.top_le
  have hpos := h.countdown_pos
  have hpow : 2 * 2 ^ (32 - e.countdown) = 2 ^ (32 - e.countdown + 1) := (Nat.pow_succ').symm
  have hle : 2 ^ (32 - e.countdown + 1) ≤ 2 ^ 32 := by
    have hlt := h.countdown_lt
    exact Nat.pow_le_pow_right (by decide) (by omega)
  omega

/-- What a decision keeps of the interval, before it is doubled. -/
def choose (e : BoolEncoder) (d : Decision) : BoolEncoder :=
  let split := splitRange e.range d.prob
  if d.bit then { e with low := (e.low + split) % 0x100000000, range := e.range - split }
  else { e with range := split }

theorem write_eq_renormalize (e : BoolEncoder) (d : Decision) :
    e.write d = (e.choose d).renormalize 7 := by
  simp only [write, choose]
  cases d.bit <;> rfl

theorem Represents.choose (h : Represents e i) (hi : i.Ready) (d : Decision) :
    Represents (e.choose d) (i.choose d) := by
  have hrange := h.range
  have hmin : 128 ≤ i.range := hi.minRange_le
  have hsplit := splitRange_lt (show 1 < i.range by omega) d.prob
  have hmax := h.top_le_max
  simp only [BoolEncoder.choose]
  rw [hrange]
  cases hb : d.bit with
  | false =>
    rw [Interval.choose_zero i hb, if_neg Bool.false_ne_true]
    exact h.narrow (show 0 + splitRange i.range d.prob ≤ e.range by omega)
  | true =>
    have hmod : (e.low + splitRange i.range d.prob) % 0x100000000 =
        e.low + splitRange i.range d.prob := Nat.mod_eq_of_lt (by omega)
    rw [Interval.choose_one i hb, if_pos rfl, hmod]
    exact h.narrow (show splitRange i.range d.prob +
      (i.range - splitRange i.range d.prob) ≤ e.range by omega)

theorem Represents.write (h : Represents e i) (hi : i.Ready) (d : Decision) :
    Represents (e.write d) (i.step d) := by
  rw [write_eq_renormalize]
  exact (h.choose hi d).renormalize (hi.choose d) 7

theorem Represents.writeAll (h : Represents e i) (hi : i.Ready) (ds : List Decision) :
    Represents (e.writeAll ds) (i.run ds) := by
  induction ds generalizing e i with
  | nil => exact h
  | cons d ds ih => exact ih (h.write hi d) (hi.step d)

/-! ### Finishing -/

theorem length_finish (e : BoolEncoder) : e.finish.length = e.emitted.length + 4 := by
  simp only [finish]
  rw [List.length_append, List.length_reverse]
  show _ + 4 = _
  congr 1
  split
  · exact length_carry e.emitted
  · rfl

/-- The bit above the pending ones is the pending carry. -/
theorem Represents.testBit_low (h : Represents e i) (hi : i.Bounded) :
    e.low.testBit (32 - e.countdown) = decide (2 ^ (32 - e.countdown) ≤ e.low) := by
  have htop := h.top_le
  have hpos := h.range_pos hi
  rw [Nat.testBit_eq_decide_div_mod_eq]
  by_cases hle : 2 ^ (32 - e.countdown) ≤ e.low
  · have hdiv : e.low / 2 ^ (32 - e.countdown) = 1 :=
      Nat.div_eq_of_lt_le (by omega) (by omega)
    rw [hdiv, decide_eq_true hle]
    rfl
  · have hdiv : e.low / 2 ^ (32 - e.countdown) = 0 := Nat.div_eq_of_lt (by omega)
    rw [hdiv, decide_eq_false hle]
    rfl

/-- The finished stream spells the lower end of the interval, moved to the end of its last byte. -/
theorem Represents.bytesValue_finish (h : Represents e i) (hi : i.Bounded) :
    bytesValue e.finish.reverse = i.low * 2 ^ e.countdown := by
  have hpow := h.pow_mul_pow
  have htop := h.top_le
  have hpos := h.range_pos hi
  have hshift : e.low <<< e.countdown % 0x100000000 < 2 ^ 32 := Nat.mod_lt _ (by decide)
  simp only [finish]
  rw [List.reverse_append, List.reverse_reverse, bytesValue_fourBytes hshift, ← h.low,
    h.testBit_low hi, Nat.shiftLeft_eq, Nat.add_mul, Nat.mul_right_comm, hpow]
  -- What the shift moves out of 32 bits is the pending carry.
  by_cases hcarry : 2 ^ (32 - e.countdown) ≤ e.low
  · obtain ⟨rest, hrest⟩ := Nat.exists_eq_add_of_le hcarry
    have hlt : rest * 2 ^ e.countdown < 2 ^ 32 := by
      rw [← hpow]
      exact Nat.mul_lt_mul_of_pos_right (by omega) (Nat.two_pow_pos _)
    rw [if_pos (decide_eq_true hcarry), bytesValue_carry _ (h.room hi hcarry), hrest, Nat.add_mul,
      hpow]
    omega
  · have hlt : e.low * 2 ^ e.countdown < 2 ^ 32 := by
      rw [← hpow]
      exact Nat.mul_lt_mul_of_pos_right (by omega) (Nat.two_pow_pos _)
    rw [if_neg (by rwa [decide_eq_true_eq])]
    omega

end

end BoolEncoder

end ResidualCodec
