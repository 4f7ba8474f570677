/-
  ResidualCodec.Proofs.BoolCoder.RoundTrip

  The decoder reads back what the encoder wrote, whatever bytes follow the
  stream, and never asks for a byte past the end of the stream itself.
-/

import ResidualCodec.Proofs.BoolCoder.Decoder

namespace ResidualCodec

namespace BoolEncoder

section

variable {e : BoolEncoder} {i : Interval}

/-- The finished stream holds every byte that a decoder has read by the end of the decisions. -/
theorem Represents.consumed_le_finish (h : Represents e i) : i.consumed ≤ e.finish.length := by
  have hclock := h.clock
  have hpos := h.countdown_pos
  rw [length_finish]
  simp only [Interval.consumed]
  omega

/-- The finished stream lies at the lower end of the interval, whatever follows it. -/
theorem Represents.contains_finish (h : Represents e i) (hi : i.Bounded) (suffix : List UInt8) :
    i.Contains (e.finish ++ suffix) := by
  have hclock := h.clock
  have hcount := h.countdown_pos
  have hle := h.consumed_le_finish
  have hpos := hi.range_pos
  have hview : view (e.finish ++ suffix) i.shifts = 256 * i.low := by
    -- Bytes that are not in view yet are pending bits moved up by the countdown.
    have hpow : 2 ^ e.countdown =
        2 ^ (8 - i.shifts % 8) * 256 ^ (e.finish.length - i.consumed) := by
      rw [show (256 : Nat) = 2 ^ 8 from rfl, ← Nat.pow_mul, ← Nat.pow_add]
      congr 1
      rw [length_finish]
      simp only [Interval.consumed]
      omega
    have hwindow : 2 ^ (i.shifts % 8) * 2 ^ (8 - i.shifts % 8) = 256 := by
      rw [← Nat.pow_add, show i.shifts % 8 + (8 - i.shifts % 8) = 8 by omega]
    simp only [view, leadingValue]
    show 2 ^ (i.shifts % 8) * bytesValue ((e.finish ++ suffix).take i.consumed).reverse = _
    rw [List.take_append_of_le_length hle, List.reverse_take, bytesValue_drop,
      h.bytesValue_finish hi, hpow, ← Nat.mul_assoc, Nat.mul_div_cancel _ (Nat.pow_pos (by decide)),
      Nat.mul_left_comm, hwindow, Nat.mul_comm]
  exact ⟨by omega, by omega⟩

end

/-- A decoder over an encoded stream replays its decisions. -/
theorem encode_replays (ds : List Decision) (suffix : List UInt8) :
    ∃ m, Replays (BoolDecoder.start (encode ds ++ suffix)) ds m ∧
      (BoolDecoder.start (encode ds ++ suffix)).overrun = false := by
  have hready := Interval.ready_start.run ds
  have hrep : Represents (writeAll {} ds) (Interval.run {} ds) :=
    represents_start.writeAll Interval.ready_start ds
  have hlen : (Interval.run {} ds).consumed ≤ (encode ds ++ suffix).length := by
    have hle : (Interval.run {} ds).consumed ≤ (encode ds).length := hrep.consumed_le_finish
    rw [List.length_append]
    omega
  have htwo : 2 ≤ (encode ds ++ suffix).length :=
    Nat.le_trans (Nat.le_add_right 2 _) hlen
  have hstart := BoolDecoder.tracks_start htwo
  obtain ⟨m, hreplays, -⟩ := hstart.replays Interval.ready_start ds
    (hrep.contains_finish hready.toBounded suffix) hlen
  refine ⟨m, hreplays, ?_⟩
  simp only [BoolDecoder.overrun]
  rw [hstart.missing]
  rfl

end BoolEncoder

/-! ## Steps of a coder -/

/-- Something that is written to an encoder and read from a decoder in one step. -/
inductive CoderStep where
  -- A decision with a probability of its own.
  | bool (bit : Bool) (prob : UInt8)
  -- An equiprobable bit.
  | bit (bit : Bool)
  -- The low bits of a 32-bit number, at most all of them.
  | literal (value : UInt32) (count : Fin 33)

/-- What a decoder returns for a step. -/
inductive CoderAnswer where
  | bit (bit : Bool)
  | number (value : Nat)
  deriving DecidableEq

namespace CoderStep

/-- Write the step. -/
def write (e : BoolEncoder) : CoderStep → BoolEncoder
  | .bool b p => e.write ⟨b, p⟩
  | .bit b => e.write (.even b)
  | .literal v n => e.writeAll (Decision.literal v.toNat n.val)

/-- The written value, as far as its bits go. -/
def answer : CoderStep → CoderAnswer
  | .bool b _ => .bit b
  | .bit b => .bit b
  | .literal v n => .number (v.toNat % 2 ^ n.val)

/-- Read the step back. Only its probability or its number of bits is known to the reader. -/
def ask {ρ : Type} [BoolReader ρ] (r : ρ) : CoderStep → CoderAnswer × ρ
  | .bool _ p => (.bit (BoolReader.read r p).1, (BoolReader.read r p).2)
  | .bit _ => (.bit (BoolReader.readBit r).1, (BoolReader.readBit r).2)
  | .literal _ n =>
    (.number (BoolReader.readLiteral r n.val 0).1, (BoolReader.readLiteral r n.val 0).2)

/-- Read steps back in order, looking after each of them whether the reader has run past its
end. -/
def askAll {ρ : Type} [BoolReader ρ] : (r : ρ) → List CoderStep → List (CoderAnswer × Bool)
  | _, [] => []
  | r, s :: ss =>
    ((s.ask r).1, BoolReader.overrun (s.ask r).2) :: askAll (s.ask r).2 ss

/-- The step as decisions. -/
def decisions : CoderStep → List Decision
  | .bool b p => [⟨b, p⟩]
  | .bit b => [.even b]
  | .literal v n => Decision.literal v.toNat n.val

theorem write_eq_writeAll (e : BoolEncoder) (s : CoderStep) : s.write e = e.writeAll s.decisions := by
  cases s <;> rfl

theorem foldl_write (e : BoolEncoder) (steps : List CoderStep) :
    steps.foldl write e = e.writeAll (steps.flatMap decisions) := by
  induction steps generalizing e with
  | nil => rfl
  | cons s ss ih =>
    rw [List.foldl_cons, ih, write_eq_writeAll, List.flatMap_cons]
    exact (List.foldl_append ..).symm

section

variable {ρ : Type} [BoolReader ρ] {r r' : ρ}

theorem ask_of_replays {s : CoderStep} (h : Replays r s.decisions r') : s.ask r = (s.answer, r') := by
  cases s with
  | bool b p =>
    have hread : BoolReader.read r p = (b, r') := h.of_singleton.1
    simp only [ask, answer, hread]
  | bit b =>
    have hread : BoolReader.readBit r = (b, r') := h.of_singleton.1
    simp only [ask, answer, hread]
  | literal v n =>
    have hpow : 2 ^ n.val ≤ 2 ^ 32 := Nat.pow_le_pow_right (by decide) (Nat.le_of_lt_succ n.isLt)
    have hlt : v.toNat % 2 ^ n.val < 0x100000000 :=
      Nat.lt_of_lt_of_le (Nat.mod_lt _ (Nat.two_pow_pos _)) hpow
    have hread : BoolReader.readLiteral r n.val 0 = (v.toNat % 2 ^ n.val, r') := by
      have hrep : Replays r (Decision.literal v.toNat n.val) r' := h
      rw [hrep.readLiteral (by decide), Nat.mul_zero, Nat.zero_add, Nat.mod_eq_of_lt hlt]
    simp only [ask, answer, hread]

theorem inside_of_replays (hin : BoolReader.overrun r = false) {ds : List Decision}
    (h : Replays r ds r') : BoolReader.overrun r' = false := by
  cases ds with
  | nil => rwa [h.eq_of_nil]
  | cons d ds => exact h.inside_of_ne_nil (List.cons_ne_nil d ds)

theorem askAll_of_replays (hin : BoolReader.overrun r = false) {steps : List CoderStep}
    (h : Replays r (steps.flatMap decisions) r') :
    askAll r steps = steps.map fun s => (s.answer, false) := by
  induction steps generalizing r with
  | nil => rfl
  | cons s ss ih =>
    rw [List.flatMap_cons] at h
    obtain ⟨m, hs, hss⟩ := h.of_append
    have hm := inside_of_replays hin hs
    simp only [askAll]
    rw [ask_of_replays hs, ih hm hss, hm, List.map_cons]

end

end CoderStep

/-- Whatever steps are written, and whatever bytes follow the finished stream, a decoder returns
every written value and never runs past the end of its data. -/
theorem askAll_finish_append (steps : List CoderStep) (suffix : List UInt8) :
    let r := BoolDecoder.start ((steps.foldl CoderStep.write {}).finish ++ suffix)
    r.overrun = false ∧
      CoderStep.askAll r steps = steps.map fun s => (s.answer, false) := by
  rw [CoderStep.foldl_write]
  obtain ⟨m, hreplays, hin⟩ :=
    BoolEncoder.encode_replays (steps.flatMap CoderStep.decisions) suffix
  exact ⟨hin, CoderStep.askAll_of_replays hin hreplays⟩

end ResidualCodec
