/-
  ResidualCodec.Proofs.Token.Canonical

  A token has one coding. Whatever a reader answers on the way to a token, its
  answers are the decisions that are written for the token: the sides of a node
  share no symbol, and the categories share no magnitude.
-/

import ResidualCodec.Proofs.Reader.Answers
import ResidualCodec.Proofs.Token.Reading

namespace ResidualCodec

/-! ## Symbol trees -/

namespace SymbolTree

/-- Whether no symbol of a list lies on both sides of a node, nor of the nodes that follow it in
some steps, each of which has one of `n` probabilities. -/
def separates (t : SymbolTree) (n : Nat) (symbols : List Nat) : (steps node : Nat) → Bool
  | 0, _ => false
  | steps + 1, node =>
    match t[node]?, t[node + 1]? with
    | some left, some right =>
      decide (node / 2 < n) &&
        (symbols.all fun s => !(t.leadsTo s (t.size + 1) left && t.leadsTo s (t.size + 1) right)) &&
        [left, right].all fun next => decide (next < 0) || t.separates n symbols steps next.toNat
    | _, _ => false

variable {t : SymbolTree} {n : Nat} {symbols : List Nat}

/-- A node that separates symbols has two sides, which separate the symbols in turn. -/
theorem of_separates {steps node : Nat} (h : t.separates n symbols (steps + 1) node = true) :
    node / 2 < n ∧ ∃ left right, t[node]? = some left ∧ t[node + 1]? = some right ∧
      (∀ s ∈ symbols, t.leadsTo s (t.size + 1) right = true →
        t.leadsTo s (t.size + 1) left = false) ∧
      ∀ next ∈ [left, right], ¬ next < 0 → t.separates n symbols steps next.toNat = true := by
  unfold separates at h
  split at h
  case h_2 => exact absurd h Bool.false_ne_true
  case h_1 left right hleft hright =>
    rw [Bool.and_eq_true, Bool.and_eq_true, decide_eq_true_iff, List.all_eq_true,
      List.all_eq_true] at h
    obtain ⟨⟨hprob, hsides⟩, hnext⟩ := h
    refine ⟨hprob, left, right, hleft, hright, ?_, ?_⟩
    · intro s hs hfound
      have hboth := hsides s hs
      rw [hfound, Bool.and_true] at hboth
      exact Bool.not_eq_true' _ ▸ hboth
    · intro next hmem hneg
      have hor := hnext next hmem
      rw [decide_eq_false hneg] at hor
      exact hor

section

variable {ρ : Type} [BoolReader ρ] {probs : List UInt8} {symbol : Nat}

/-- One decision, and the path from the entry that it selects. -/
theorem pathFrom_succ {fuel node : Nat} {p : UInt8} {left next : Int} {bit : Bool}
    (hp : probs[node / 2]? = some p) (hleft : t[node]? = some left)
    (hbit : (!t.leadsTo symbol (t.size + 1) left) = bit)
    (hnext : t[node + bit.toNat]? = some next) :
    t.pathFrom probs symbol (fuel + 1) node =
      (if next < 0 then .ok [] else t.pathFrom probs symbol fuel next.toNat).map
        (⟨bit, p⟩ :: ·) := by
  conv_lhs => unfold pathFrom
  rw [hp, hleft]
  dsimp only
  rw [hbit, hnext]
  dsimp only
  split
  case isTrue => rfl
  case isFalse => rfl

/-- A node leads where the entries on its sides lead. -/
theorem leadsTo_node {steps node : Nat} {left right next : Int} (hleft : t[node]? = some left)
    (hright : t[node + 1]? = some right) (hnext : next ∈ [left, right])
    (h : t.leadsTo symbol steps next = true) : t.leadsTo symbol (steps + 1) node = true := by
  rw [leadsTo_sides hleft hright, Bool.or_eq_true]
  simp only [List.mem_cons, List.not_mem_nil, or_false] at hnext
  rcases hnext with rfl | rfl
  · exact .inl h
  · exact .inr h

/-- Whoever is led to a symbol has followed its path. -/
theorem exists_pathFrom (hlen : n ≤ probs.length) {steps fuel node : Nat} (hsteps : steps ≤ t.size)
    (hfuel : steps ≤ fuel) (h : t.separates n symbols steps node = true) (hs : symbol ∈ symbols)
    {r : ρ} (hread : (t.readFrom probs r fuel node).1 = some symbol) :
    t.leadsTo symbol (steps + 1) node = true ∧
      ∃ ds, t.pathFrom probs symbol fuel node = .ok ds ∧
        Answers r ds (t.readFrom probs r fuel node).2 := by
  induction steps generalizing fuel node r with
  | zero => exact absurd h Bool.false_ne_true
  | succ steps ih =>
    obtain ⟨fuel, rfl⟩ : ∃ k, fuel = k + 1 := ⟨fuel - 1, by omega⟩
    obtain ⟨hprob, left, right, hleft, hright, hsides, hseparates⟩ := of_separates h
    obtain ⟨p, hp⟩ : ∃ p, probs[node / 2]? = some p :=
      ⟨_, List.getElem?_eq_getElem (show node / 2 < probs.length by omega)⟩
    rw [readFrom_succ, List.getD_eq_getElem?_getD, hp, Option.getD_some] at hread ⊢
    dsimp only at hread ⊢
    cases hbit : BoolReader.read r p with
    | mk bit m =>
      rw [hbit] at hread
      dsimp only at hread ⊢
      obtain ⟨next, hmem, hnext⟩ : ∃ next ∈ [left, right], t[node + bit.toNat]? = some next := by
        cases bit with
        | false => exact ⟨left, List.mem_cons_self, hleft⟩
        | true => exact ⟨right, by simp, hright⟩
      rw [hnext, Option.elim_some] at hread ⊢
      -- The selected entry is the leaf of the symbol, or a node from where it is found.
      obtain ⟨hfound, ds, hpath, hanswers⟩ : t.leadsTo symbol (steps + 1) next = true ∧
          ∃ ds, (if next < 0 then .ok [] else t.pathFrom probs symbol fuel next.toNat) = .ok ds ∧
            Answers m ds (if next < 0 then (some (-next).toNat, m)
              else t.readFrom probs m fuel next.toNat).2 := by
        by_cases hneg : next < 0
        · rw [if_pos hneg] at hread ⊢
          rw [if_pos hneg]
          refine ⟨?_, [], rfl, .nil m⟩
          rw [leadsTo_leaf hneg, ← Option.some.inj hread, beq_iff_eq]
          omega
        · rw [if_neg hneg] at hread
          rw [if_neg hneg, if_neg hneg]
          have hrest := ih (by omega) (by omega) (hseparates next hmem hneg) hread
          rwa [Int.toNat_of_nonneg (Int.not_lt.mp hneg)] at hrest
      have hmore := leadsTo_mono (show steps + 1 ≤ t.size + 1 by omega) hfound
      have hchosen : (!t.leadsTo symbol (t.size + 1) left) = bit := by
        cases bit with
        | false =>
          rw [Option.some.inj (hleft.symm.trans hnext), hmore]
          rfl
        | true =>
          rw [← Option.some.inj (hright.symm.trans hnext)] at hmore
          rw [hsides symbol hs hmore]
          rfl
      refine ⟨leadsTo_node hleft hright hmem hfound, ⟨bit, p⟩ :: ds, ?_, .cons hbit hanswers⟩
      rw [pathFrom_succ hp hleft hchosen hnext, hpath]
      rfl

end

end SymbolTree

/-! ## Tokens -/

/-- No large token lies on both sides of a node. -/
theorem separates_magnitudeTree :
    magnitudeTree.separates 8 [2, 3, 4, 5, 6, 7, 8, 9, 10] 4 0 = true := by
  decide +kernel

theorem index_of_getElem?_all {i : Nat} {token : Token} (h : Token.all[i]? = some token) :
    token.index = i := by
  have hall : ∀ i < Token.all.length, (Token.all.getD i .zero).index = i := by decide
  have hi := hall i (List.getElem?_eq_some_iff.mp h).1
  rwa [List.getD_eq_getElem?_getD, h, Option.getD_some] at hi

section

variable {ρ : Type} [BoolReader ρ]

/-- What a reader answers for a token is what is written for the token. -/
theorem answers_readToken (probs : NodeProbs) (r : ρ) :
    Answers r (Symbol.tokenDecisions probs (readToken probs r).1) (readToken probs r).2 := by
  simp only [readToken]
  cases hone : BoolReader.read r probs.one with
  | mk larger m =>
    cases larger with
    | false => exact .cons hone (.nil m)
    | true =>
      obtain ⟨i, hlarge, hread⟩ := SymbolTree.exists_readFrom_eq (paretoProbs probs.one)
        (show 4 ≤ magnitudeTree.size + 1 by decide) endsWithin_magnitudeTree m
      obtain ⟨token, htoken, -, hnotOne, -⟩ := exists_isLarge_of_isLargeIndex hlarge
      have hmem : i ∈ [2, 3, 4, 5, 6, 7, 8, 9, 10] := by
        have hrange := of_decide_eq_true hlarge
        simp only [List.mem_cons, List.not_mem_nil, or_false]
        omega
      obtain ⟨-, ds, hpath, hanswers⟩ := SymbolTree.exists_pathFrom
        (Nat.le_of_eq (length_paretoProbs probs.one).symm) (show 4 ≤ magnitudeTree.size by decide)
        (show 4 ≤ magnitudeTree.size + 1 by decide) separates_magnitudeTree hmem hread
      have hleaf : (magnitudeTree.read (paretoProbs probs.one) m).1 = some i := hread
      have hwritten : magnitudeTree.path (paretoProbs probs.one) token.index = .ok ds := by
        rw [index_of_getElem?_all htoken]
        exact hpath
      dsimp only
      rw [if_pos rfl]
      dsimp only
      rw [hleaf, Option.getD_some, List.getD_eq_getElem?_getD, htoken, Option.getD_some]
      simp only [Symbol.tokenDecisions]
      rw [if_neg hnotOne, hwritten]
      exact .cons hone hanswers

end

/-! ## Magnitudes -/

/-- Bases and widths of the tokens leave no magnitude to two of them. -/
theorem Token.ofMagnitude_base_add {d : BitDepth} {token : Token} {offset : Nat}
    (hend : token ≠ .endOfBlock) (hoffset : offset < 2 ^ (token.extraProbs d).length) :
    Token.ofMagnitude (token.base + offset) = token := by
  generalize hm : token.base + offset = m
  cases token with
  | endOfBlock => exact absurd rfl hend
  | category k =>
    -- The magnitude is not below the base of its category, and below that of the next one.
    cases k with
    | sixth =>
      simp only [base, Category.base] at hm
      fun_cases ofMagnitude m
      all_goals first | rfl | omega | (simp only [Category.base] at *; omega)
    | _ =>
      simp only [extraProbs, List.length_cons, List.length_nil] at hoffset
      simp only [base, Category.base] at hm
      fun_cases ofMagnitude m
      all_goals first | rfl | omega | (simp only [Category.base] at *; omega)
  | _ =>
    rw [← hm, Nat.lt_one_iff.mp hoffset]
    rfl

end ResidualCodec
