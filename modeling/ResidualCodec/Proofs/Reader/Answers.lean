/-
  ResidualCodec.Proofs.Reader.Answers

  The decisions that a reader has answered. Where a replay says which bits a
  reader is going to give, these are the bits that it gave: whoever has asked a
  reader is described by the decisions that were taken, with the probabilities
  that they were asked with.
-/

import Mathlib.Tactic.Ring
import ResidualCodec.BoolCoder.Decision

namespace ResidualCodec

section

variable {ρ : Type} [BoolReader ρ]

/-- Asked for the decisions in turn, the reader `r` has given their bits and has become the last
reader, be it inside its data or past their end. -/
inductive Answers : ρ → List Decision → ρ → Prop where
  | nil (r : ρ) : Answers r [] r
  | cons {r m r' : ρ} {d : Decision} {ds : List Decision}
      (read : BoolReader.read r d.prob = (d.bit, m)) (rest : Answers m ds r') :
      Answers r (d :: ds) r'

theorem answers_read (r : ρ) (p : UInt8) :
    Answers r [⟨(BoolReader.read r p).1, p⟩] (BoolReader.read r p).2 := .cons rfl (.nil _)

theorem answers_readBit (r : ρ) :
    Answers r [.even (BoolReader.readBit r).1] (BoolReader.readBit r).2 := answers_read r _

theorem Answers.append {r m r' : ρ} {ds es : List Decision} (h : Answers r ds m)
    (h' : Answers m es r') : Answers r (ds ++ es) r' := by
  induction h with
  | nil => exact h'
  | cons read rest ih => exact .cons read (ih h')

/-! ## Numbers -/

/-- The bits are read below the number that was there before them. -/
theorem readExtra_div (r : ρ) (probs : List UInt8) (acc : Nat) :
    (BoolReader.readExtra r probs acc).1 / 2 ^ probs.length = acc := by
  induction probs generalizing r acc with
  | nil => exact Nat.div_one acc
  | cons p ps ih =>
    have hbit := Bool.toNat_le (BoolReader.read r p).1
    rw [List.length_cons, Nat.pow_succ, ← Nat.div_div_eq_div_mul]
    simp only [BoolReader.readExtra]
    rw [ih]
    omega

/-- Extra bits are those of the number that they are read as. -/
theorem answers_readExtra (r : ρ) (probs : List UInt8) (acc : Nat) :
    Answers r (Decision.extra (BoolReader.readExtra r probs acc).1 probs)
      (BoolReader.readExtra r probs acc).2 := by
  induction probs generalizing r acc with
  | nil => exact .nil r
  | cons p ps ih =>
    have hrest := ih (BoolReader.read r p).2 (2 * acc + (BoolReader.read r p).1.toNat)
    have hbit : (BoolReader.readExtra r (p :: ps) acc).1.testBit ps.length =
        (BoolReader.read r p).1 := by
      simp only [BoolReader.readExtra]
      rw [Nat.testBit_eq_decide_div_mod_eq, readExtra_div, Nat.mul_add_mod]
      cases (BoolReader.read r p).1 <;> rfl
    refine .cons ?_ hrest
    show BoolReader.read r p = (_, (BoolReader.read r p).2)
    rw [hbit]

end

/-! ## Scripts -/

/-- A script that has ended stays at its end. -/
theorem Answers.exhausted {r r' : Script} {ds : List Decision} (h : Answers r ds r')
    (hr : r.exhausted = true) : r'.exhausted = true := by
  induction h with
  | nil => exact hr
  | @cons r m r' d ds read rest ih =>
    obtain ⟨bits, taken, exhausted, asked⟩ := r
    apply ih
    rw [← show _ = m from congrArg Prod.snd read]
    cases bits with
    | nil => rfl
    | cons b bits => exact hr

/-- The answers of a script that has not ended are the bits at its front. -/
theorem Script.of_answers {bits : List Bool} {taken : Nat} {asked : List UInt8}
    {ds : List Decision} {r : Script} (h : Answers (⟨bits, taken, false, asked⟩ : Script) ds r)
    (hr : r.exhausted = false) :
    bits = ds.map Decision.bit ++ r.rest ∧
      r = ⟨r.rest, taken + ds.length, false, (ds.map Decision.prob).reverse ++ asked⟩ := by
  induction ds generalizing bits taken asked with
  | nil =>
    cases h
    exact ⟨rfl, rfl⟩
  | cons d ds ih =>
    obtain ⟨bit, p⟩ := d
    cases h with
    | cons read rest =>
      cases bits with
      | nil =>
        cases read
        rw [rest.exhausted rfl] at hr
        cases hr
      | cons b bits =>
        cases read
        obtain ⟨hbits, hscript⟩ := ih rest
        refine ⟨congrArg (List.cons _) hbits, hscript.trans ?_⟩
        rw [List.map_cons, List.reverse_cons, List.append_assoc, List.length_cons, Nat.add_right_comm]
        rfl

end ResidualCodec
