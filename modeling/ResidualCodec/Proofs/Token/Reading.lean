/-
  ResidualCodec.Proofs.Token.Reading

  A token is read from any reader, whatever it answers: every path through the
  magnitude tree ends after four decisions at most, at a token of magnitude two
  or more.
-/

import Mathlib.Tactic.IntervalCases
import ResidualCodec.Proofs.Reader.Meter
import ResidualCodec.Proofs.Token.Coding

namespace ResidualCodec

/-! ## Symbol trees -/

namespace SymbolTree

/-- Whether every path from a node ends within some steps, over nodes that have one of `n`
probabilities, at an allowed symbol. -/
def endsWithin (t : SymbolTree) (n : Nat) (allowed : Nat → Bool) : (steps node : Nat) → Bool
  | 0, _ => false
  | steps + 1, node =>
    decide (node / 2 < n) && [false, true].all fun bit =>
      match t[node + bit.toNat]? with
      | none => false
      | some next =>
        if next < 0 then allowed (-next).toNat else t.endsWithin n allowed steps next.toNat

variable {t : SymbolTree} {n : Nat} {allowed : Nat → Bool}

/-- Either decision at such a node selects an entry of the tree: an allowed symbol, or a node from
where all paths end one step earlier. -/
theorem of_endsWithin {steps node : Nat} (h : t.endsWithin n allowed (steps + 1) node = true) :
    node / 2 < n ∧ ∀ bit : Bool, ∃ next, t[node + bit.toNat]? = some next ∧
      (next < 0 ∧ allowed (-next).toNat = true ∨
        ¬ next < 0 ∧ t.endsWithin n allowed steps next.toNat = true) := by
  unfold endsWithin at h
  rw [Bool.and_eq_true, decide_eq_true_iff, List.all_eq_true] at h
  refine ⟨h.1, ?_⟩
  intro bit
  have hbit := h.2 bit (by cases bit <;> decide)
  split at hbit
  case h_1 => exact absurd hbit Bool.false_ne_true
  case h_2 next hnext =>
    refine ⟨next, hnext, ?_⟩
    split at hbit
    case isTrue hneg => exact .inl ⟨hneg, hbit⟩
    case isFalse hneg => exact .inr ⟨hneg, hbit⟩

section

variable {ρ : Type} [BoolReader ρ]

/-- Every reader is led to an allowed symbol. -/
theorem exists_readFrom_eq (probs : List UInt8) {steps fuel node : Nat} (hfuel : steps ≤ fuel)
    (h : t.endsWithin n allowed steps node = true) (r : ρ) :
    ∃ symbol, allowed symbol = true ∧ (t.readFrom probs r fuel node).1 = some symbol := by
  induction steps generalizing fuel node r with
  | zero => exact absurd h Bool.false_ne_true
  | succ steps ih =>
    obtain ⟨fuel, rfl⟩ : ∃ k, fuel = k + 1 := ⟨fuel - 1, by omega⟩
    obtain ⟨-, hentry⟩ := of_endsWithin h
    obtain ⟨next, hnext, hleaf | hnode⟩ :=
      hentry (BoolReader.read r (probs.getD (node / 2) 0)).1
    · obtain ⟨hneg, hallowed⟩ := hleaf
      refine ⟨_, hallowed, ?_⟩
      rw [readFrom_succ]
      dsimp only
      rw [hnext, Option.elim_some, if_pos hneg]
    · obtain ⟨hneg, hends⟩ := hnode
      obtain ⟨symbol, hallowed, hread⟩ := ih (Nat.le_of_succ_le_succ hfuel) hends
        (BoolReader.read r (probs.getD (node / 2) 0)).2
      refine ⟨symbol, hallowed, ?_⟩
      rw [readFrom_succ]
      dsimp only
      rw [hnext, Option.elim_some, if_neg hneg]
      exact hread

/-- No reader is asked for more decisions than a path has steps. -/
theorem spends_readFrom (probs : List UInt8) {steps fuel node : Nat} (hfuel : steps ≤ fuel)
    (h : t.endsWithin n allowed steps node = true) :
    Spends steps (fun m : Metered ρ => t.readFrom probs m fuel node)
      fun r => t.readFrom probs r fuel node := by
  induction steps generalizing fuel node with
  | zero => exact absurd h Bool.false_ne_true
  | succ steps ih =>
    obtain ⟨fuel, rfl⟩ : ∃ k, fuel = k + 1 := ⟨fuel - 1, by omega⟩
    obtain ⟨-, hentry⟩ := of_endsWithin h
    have hrest : ∀ bit : Bool, Spends steps
        (fun m : Metered ρ => t[node + bit.toNat]?.elim (none, m) fun next =>
          if next < 0 then (some (-next).toNat, m) else t.readFrom probs m fuel next.toNat)
        fun r => t[node + bit.toNat]?.elim (none, r) fun next =>
          if next < 0 then (some (-next).toNat, r) else t.readFrom probs r fuel next.toNat := by
      intro bit
      obtain ⟨next, hnext, ⟨hneg, -⟩ | ⟨hneg, hends⟩⟩ := hentry bit
      · simp only [hnext, Option.elim_some, if_pos hneg]
        exact (Spends.pure _).mono (Nat.zero_le _)
      · simp only [hnext, Option.elim_some, if_neg hneg]
        exact ih (by omega) hends
    have hcost := (spends_read (ρ := ρ) (probs.getD (node / 2) 0)).bind hrest
    rw [Nat.add_comm] at hcost
    simp only [readFrom_succ]
    exact hcost

end

end SymbolTree

/-! ## The magnitude tree -/

/-- Whether a number is that of a token of magnitude two or more. -/
def isLargeIndex (i : Nat) : Bool := decide (2 ≤ i ∧ i < 11)

/-- Four steps lead to a large token, over the eight nodes. -/
theorem endsWithin_magnitudeTree : magnitudeTree.endsWithin 8 isLargeIndex 4 0 = true := by
  decide

theorem exists_isLarge_of_isLargeIndex {i : Nat} (h : isLargeIndex i = true) :
    ∃ token : Token, Token.all[i]? = some token ∧ token.IsLarge := by
  obtain ⟨hlow, hhigh⟩ := of_decide_eq_true h
  interval_cases i
  all_goals exact ⟨_, rfl, by simp [Token.IsLarge]⟩

section

variable {ρ : Type} [BoolReader ρ] (probs : NodeProbs)

/-- A reader is led through the tree to a large token. -/
theorem exists_read_magnitudeTree (row : List UInt8) (r : ρ) :
    ∃ i token, (magnitudeTree.read row r).1 = some i ∧ Token.all[i]? = some token ∧
      token.IsLarge := by
  obtain ⟨i, hlarge, hread⟩ := SymbolTree.exists_readFrom_eq row
    (show 4 ≤ magnitudeTree.size + 1 by decide) endsWithin_magnitudeTree r
  obtain ⟨token, htoken, h⟩ := exists_isLarge_of_isLargeIndex hlarge
  exact ⟨i, token, hread, htoken, h⟩

/-- Whatever the reader answers, the token is different from a zero and from the end of block. -/
theorem readToken_ne (r : ρ) :
    (readToken probs r).1 ≠ .zero ∧ (readToken probs r).1 ≠ .endOfBlock := by
  simp only [readToken]
  split
  case isTrue =>
    obtain ⟨i, token, hread, htoken, hzero, -, hend⟩ :=
      exists_read_magnitudeTree (paretoProbs probs.one) (BoolReader.read r probs.one).2
    rw [hread, Option.getD_some, List.getD_eq_getElem?_getD, htoken]
    exact ⟨hzero, hend⟩
  case isFalse => exact ⟨Token.noConfusion, Token.noConfusion⟩

/-- One decision for a magnitude of one, and four more for the others. -/
theorem spends_readToken :
    Spends 5 (fun m : Metered ρ => readToken probs m) fun r => readToken probs r := by
  have htree := (SymbolTree.spends_readFrom (ρ := ρ) (paretoProbs probs.one)
    (show 4 ≤ magnitudeTree.size + 1 by decide) endsWithin_magnitudeTree).bind fun leaf =>
      .pure (Token.all.getD (leaf.getD 0) .zero)
  have hone := (Spends.pure (ρ := ρ) Token.one).mono (Nat.zero_le 4)
  have hcost := (spends_read (ρ := ρ) probs.one).bind fun larger =>
    .ite (larger = true) htree hone
  exact hcost

end

end ResidualCodec
