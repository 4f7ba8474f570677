/-
  ResidualCodec.Proofs.Reader.Replay

  A reader replays decisions when it answers each of their questions with the
  decided bit and never runs past its end. Whatever decodes by asking a reader
  is proved against this relation, and then holds of every reader that replays.
-/

import Mathlib.Tactic.Ring
import ResidualCodec.BoolCoder.Decision

namespace ResidualCodec

variable {ρ : Type} [BoolReader ρ]

/-- Asked for the decisions in turn, the reader `r` gives their bits and ends up as the last
reader, with nothing read past its end. -/
inductive Replays : ρ → List Decision → ρ → Prop where
  | nil (r : ρ) : Replays r [] r
  | cons {r m r' : ρ} {d : Decision} {ds : List Decision}
      (read : BoolReader.read r d.prob = (d.bit, m)) (inside : BoolReader.overrun m = false)
      (rest : Replays m ds r') : Replays r (d :: ds) r'

namespace Replays

variable {r r' : ρ} {d : Decision} {ds es : List Decision}

theorem eq_of_nil (h : Replays r [] r') : r' = r := by
  cases h
  rfl

/-- Take the first decision off. -/
theorem of_cons (h : Replays r (d :: ds) r') :
    ∃ m, BoolReader.read r d.prob = (d.bit, m) ∧ BoolReader.overrun m = false ∧
      Replays m ds r' := by
  cases h with
  | cons read inside rest => exact ⟨_, read, inside, rest⟩

/-- A single decision is one read. -/
theorem of_singleton (h : Replays r [d] r') :
    BoolReader.read r d.prob = (d.bit, r') ∧ BoolReader.overrun r' = false := by
  obtain ⟨m, hread, hin, hrest⟩ := h.of_cons
  rw [hrest.eq_of_nil]
  exact ⟨hread, hin⟩

/-- Split a replay where its decisions are joined. -/
theorem of_append (h : Replays r (ds ++ es) r') : ∃ m, Replays r ds m ∧ Replays m es r' := by
  induction ds generalizing r with
  | nil => exact ⟨r, .nil r, h⟩
  | cons d ds ih =>
    obtain ⟨m, hread, hin, hrest⟩ := of_cons h
    obtain ⟨k, hds, hes⟩ := ih hrest
    exact ⟨k, .cons hread hin hds, hes⟩

/-- After one decision or more, the reader is still inside its data. -/
theorem inside_of_ne_nil (h : Replays r ds r') (hne : ds ≠ []) :
    BoolReader.overrun r' = false := by
  induction h with
  | nil => exact absurd rfl hne
  | cons _ hin hrest ih =>
    cases hrest with
    | nil => exact hin
    | cons read inside rest => exact ih (List.cons_ne_nil _ _)

end Replays

/-! ## Numbers -/

/-- The top bit of a number of `n + 1` bits stands above its `n` low bits. -/
theorem mod_two_pow_succ (x n : Nat) :
    x % 2 ^ (n + 1) = 2 ^ n * (x.testBit n).toNat + x % 2 ^ n := by
  rw [Nat.mod_pow_succ, Nat.toNat_testBit, Nat.add_comm]

/-- Extra bits are read back below the number that was there before them. -/
theorem Replays.readExtra {probs : List UInt8} {value : Nat} {r r' : ρ}
    (h : Replays r (Decision.extra value probs) r') (acc : Nat) :
    BoolReader.readExtra r probs acc =
      (2 ^ probs.length * acc + value % 2 ^ probs.length, r') := by
  induction probs generalizing r acc with
  | nil =>
    rw [h.eq_of_nil]
    show (acc, r) = (1 * acc + value % 1, r)
    rw [Nat.one_mul, Nat.mod_one, Nat.add_zero]
  | cons p ps ih =>
    obtain ⟨m, hread, -, hrest⟩ := h.of_cons
    simp only [BoolReader.readExtra]
    rw [hread]
    show BoolReader.readExtra m ps (2 * acc + (value.testBit ps.length).toNat) = _
    rw [ih hrest, List.length_cons, mod_two_pow_succ]
    congr 1
    ring

/-- A literal is read back below the number that was there before it, as far as 32 bits hold. -/
theorem Replays.readLiteral {n value : Nat} {r r' : ρ}
    (h : Replays r (Decision.literal value n) r') {acc : Nat} (hacc : acc < 0x100000000) :
    BoolReader.readLiteral r n acc =
      ((2 ^ n * acc + value % 2 ^ n) % 0x100000000, r') := by
  induction n generalizing r acc with
  | zero =>
    rw [h.eq_of_nil]
    show (acc, r) = ((1 * acc + value % 1) % 0x100000000, r)
    rw [Nat.one_mul, Nat.mod_one, Nat.add_zero, Nat.mod_eq_of_lt hacc]
  | succ n ih =>
    obtain ⟨m, hread, -, hrest⟩ := h.of_cons
    have hbit : BoolReader.readBit r = (value.testBit n, m) := hread
    simp only [BoolReader.readLiteral]
    rw [hbit]
    show BoolReader.readLiteral m n ((2 * acc + (value.testBit n).toNat) % 0x100000000) = _
    rw [ih hrest (Nat.mod_lt _ (by decide)), mod_two_pow_succ]
    -- Bits above the 32nd are lost at once or in the end, with the same result.
    congr 1
    rw [Nat.add_mod, Nat.mul_mod_mod, ← Nat.add_mod]
    congr 1
    ring

/-! ## Scripts -/

/-- A script replays whatever decisions have its bits. It keeps the bits after them, and remembers
the probabilities that it was asked with. -/
theorem Script.replays (ds : List Decision) (tail : List Bool) (taken : Nat) (asked : List UInt8) :
    Replays (⟨ds.map Decision.bit ++ tail, taken, false, asked⟩ : Script) ds
      ⟨tail, taken + ds.length, false, (ds.map Decision.prob).reverse ++ asked⟩ := by
  induction ds generalizing taken asked with
  | nil => exact .nil _
  | cons d ds ih =>
    have h := ih (taken + 1) (d.prob :: asked)
    have htaken : taken + (d :: ds).length = taken + 1 + ds.length := by
      rw [List.length_cons]
      omega
    rw [List.map_cons, List.map_cons, List.reverse_cons, List.append_assoc, htaken]
    exact .cons rfl rfl h

end ResidualCodec
