/-
  ResidualCodec.Proofs.Reader.Meter

  A meter on a reader counts the decisions that it is asked for, and changes no
  answer. Computations built from reads ask for as many decisions as their parts
  together, so that the cost of a decoder is added up along its definition.
-/

import ResidualCodec.BoolCoder.Decision

namespace ResidualCodec

/-- A reader with the number of decisions that it was asked for. -/
structure Metered (ρ : Type) where
  reader : ρ
  reads : Nat := 0

section

variable {ρ : Type} [BoolReader ρ]

instance : BoolReader (Metered ρ) where
  read m p := ((BoolReader.read m.reader p).1, ⟨(BoolReader.read m.reader p).2, m.reads + 1⟩)
  overrun m := BoolReader.overrun m.reader

theorem Metered.overrun_eq (m : Metered ρ) : BoolReader.overrun m = BoolReader.overrun m.reader :=
  rfl

end

/-- A computation on a metered reader that does what another one does on the reader inside, and
asks for `n` decisions at most. -/
structure Spends {ρ : Type} (n : Nat) {α : Type} (cm : Metered ρ → α × Metered ρ)
    (c : ρ → α × ρ) : Prop where
  answer (m : Metered ρ) : (cm m).1 = (c m.reader).1
  reader (m : Metered ρ) : (cm m).2.reader = (c m.reader).2
  reads_le (m : Metered ρ) : (cm m).2.reads ≤ m.reads + n

section

variable {ρ : Type} [BoolReader ρ]

theorem spends_read (p : UInt8) :
    Spends 1 (fun m : Metered ρ => BoolReader.read m p) fun r => BoolReader.read r p where
  answer _ := rfl
  reader _ := rfl
  reads_le _ := Nat.le_refl _

theorem spends_readBit :
    Spends 1 (fun m : Metered ρ => BoolReader.readBit m) fun r => BoolReader.readBit r :=
  spends_read Decision.evenOdds

end

namespace Spends

variable {ρ α β : Type} {n k : Nat} {cm : Metered ρ → α × Metered ρ} {c : ρ → α × ρ}

/-- The meter goes on by `n` at most, and nothing else differs. -/
theorem exists_eq (h : Spends n cm c) (r : ρ) (reads : Nat) :
    ∃ k ≤ reads + n, cm ⟨r, reads⟩ = ((c r).1, ⟨(c r).2, k⟩) := by
  refine ⟨(cm ⟨r, reads⟩).2.reads, h.reads_le _, ?_⟩
  rw [← h.answer ⟨r, reads⟩, ← h.reader ⟨r, reads⟩]

/-- An answer without a read. -/
theorem pure (a : α) : Spends 0 (fun m : Metered ρ => (a, m)) fun r => (a, r) where
  answer _ := rfl
  reader _ := rfl
  reads_le _ := Nat.le_refl _

theorem mono (h : Spends n cm c) (hnk : n ≤ k) : Spends k cm c where
  answer := h.answer
  reader := h.reader
  reads_le m := Nat.le_trans (h.reads_le m) (Nat.add_le_add_left hnk _)

theorem ite (p : Prop) [Decidable p] {cm' : Metered ρ → α × Metered ρ} {c' : ρ → α × ρ}
    (h : Spends n cm c) (h' : Spends n cm' c') :
    Spends n (fun m => if p then cm m else cm' m) fun r => if p then c r else c' r := by
  by_cases hp : p
  · simp only [if_pos hp]
    exact h
  · simp only [if_neg hp]
    exact h'

/-- One computation after another, which may depend on the first answer. -/
theorem bind {km : α → Metered ρ → β × Metered ρ} {kr : α → ρ → β × ρ} (h : Spends n cm c)
    (hk : ∀ a, Spends k (km a) (kr a)) :
    Spends (n + k) (fun m => km (cm m).1 (cm m).2) fun r => kr (c r).1 (c r).2 where
  answer m := by
    rw [(hk _).answer, h.reader, h.answer]
  reader m := by
    rw [(hk _).reader, h.reader, h.answer]
  reads_le m := by
    have hfirst := h.reads_le m
    have hsecond := (hk (cm m).1).reads_le (cm m).2
    omega

/-- A look at the end of the reader between two computations costs nothing. -/
theorem check [BoolReader ρ] {km : α → Metered ρ → β × Metered ρ} {kr : α → ρ → β × ρ}
    (h : Spends n cm c) (stop : α → β) (hk : ∀ a, Spends k (km a) (kr a)) :
    Spends (n + k)
      (fun m => if BoolReader.overrun (cm m).2 then (stop (cm m).1, (cm m).2)
        else km (cm m).1 (cm m).2)
      fun r => if BoolReader.overrun (c r).2 then (stop (c r).1, (c r).2)
        else kr (c r).1 (c r).2 where
  answer m := by
    rw [Metered.overrun_eq, h.reader, h.answer]
    split
    case isTrue => rfl
    case isFalse => rw [(hk _).answer, h.reader]
  reader m := by
    rw [Metered.overrun_eq, h.reader, h.answer]
    split
    case isTrue => exact h.reader m
    case isFalse => rw [(hk _).reader, h.reader]
  reads_le m := by
    have hfirst := h.reads_le m
    have hsecond := (hk (cm m).1).reads_le (cm m).2
    split
    case isTrue => exact Nat.le_trans hfirst (by omega)
    case isFalse => omega

end Spends

theorem spends_readExtra {ρ : Type} [BoolReader ρ] (probs : List UInt8) (acc : Nat) :
    Spends probs.length (fun m : Metered ρ => BoolReader.readExtra m probs acc)
      fun r => BoolReader.readExtra r probs acc := by
  induction probs generalizing acc with
  | nil => exact .pure acc
  | cons p ps ih =>
    have hcost := (spends_read (ρ := ρ) p).bind fun bit => ih (2 * acc + bit.toNat)
    rw [Nat.add_comm] at hcost
    exact hcost

end ResidualCodec
