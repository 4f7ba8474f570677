/-
  ResidualCodec.Proofs.Reader.Lockstep

  Two readers in lockstep give the same answers until the first of them runs
  past its end, from where it does not come back. Computations built from reads
  keep readers in lockstep, so that whatever is looked at before the end of the
  first reader is the same for both.
-/

import ResidualCodec.BoolCoder.Decision

namespace ResidualCodec

variable {ρ : Type} [BoolReader ρ]

/-- Related readers are inside their data, and stay related with the same answer until the first
of them runs past its end. A reader past its end stays there. -/
structure Lockstep (R : ρ → ρ → Prop) : Prop where
  inside {r f : ρ} (h : R r f) : BoolReader.overrun r = false ∧ BoolReader.overrun f = false
  read {r f : ρ} (h : R r f) (p : UInt8) : BoolReader.overrun (BoolReader.read r p).2 = true ∨
    (BoolReader.read r p).1 = (BoolReader.read f p).1 ∧
      R (BoolReader.read r p).2 (BoolReader.read f p).2
  lost {r : ρ} (h : BoolReader.overrun r = true) (p : UInt8) :
    BoolReader.overrun (BoolReader.read r p).2 = true

/-- A computation that keeps readers in lockstep as a single read does. -/
structure Steady (R : ρ → ρ → Prop) {α : Type} (c : ρ → α × ρ) : Prop where
  same {r f : ρ} (h : R r f) : BoolReader.overrun (c r).2 = true ∨
    (c r).1 = (c f).1 ∧ R (c r).2 (c f).2
  lost {r : ρ} (h : BoolReader.overrun r = true) : BoolReader.overrun (c r).2 = true

variable {R : ρ → ρ → Prop} {α β : Type}

theorem Lockstep.steady_read (hR : Lockstep R) (p : UInt8) :
    Steady R fun r => BoolReader.read r p where
  same h := hR.read h p
  lost h := hR.lost h p

theorem Lockstep.steady_readBit (hR : Lockstep R) : Steady R BoolReader.readBit :=
  hR.steady_read Decision.evenOdds

namespace Steady

variable {c : ρ → α × ρ} {k : α → ρ → β × ρ}

/-- An answer without a read. -/
theorem pure (a : α) : Steady R fun r => (a, r) where
  same h := .inr ⟨rfl, h⟩
  lost h := h

theorem ite (p : Prop) [Decidable p] {c c' : ρ → α × ρ} (h : Steady R c) (h' : Steady R c') :
    Steady R fun r => if p then c r else c' r := by
  by_cases hp : p
  · simp only [if_pos hp]
    exact h
  · simp only [if_neg hp]
    exact h'

theorem elim {γ : Type} (o : Option γ) {c : ρ → α × ρ} {k : γ → ρ → α × ρ} (h : Steady R c)
    (hk : ∀ a, Steady R (k a)) : Steady R fun r => o.elim (c r) fun a => k a r := by
  cases o with
  | none => exact h
  | some a => exact hk a

/-- One computation after another, which may depend on the first answer. -/
theorem bind (hc : Steady R c) (hk : ∀ a, Steady R (k a)) :
    Steady R fun r => k (c r).1 (c r).2 where
  same {r f} h := by
    rcases hc.same h with hlost | ⟨heq, hrel⟩
    · exact .inl ((hk _).lost hlost)
    · rw [← heq]
      exact (hk _).same hrel
  lost h := (hk _).lost (hc.lost h)

end Steady

theorem Lockstep.steady_readExtra (hR : Lockstep R) (probs : List UInt8) (acc : Nat) :
    Steady R fun r => BoolReader.readExtra r probs acc := by
  induction probs generalizing acc with
  | nil => exact .pure acc
  | cons p ps ih =>
    apply (hR.steady_read p).bind (k := fun bit r => BoolReader.readExtra r ps (2 * acc + bit.toNat))
    intro bit
    exact ih _

end ResidualCodec
