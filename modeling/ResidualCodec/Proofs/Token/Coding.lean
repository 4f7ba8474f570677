/-
  ResidualCodec.Proofs.Token.Coding

  What is written of a token is read back as the token: the path through a
  symbol tree leads a reader to its symbol, and the extra bits of a category are
  wide enough for every offset in it.
-/

import ResidualCodec.Coefficient.Decode
import ResidualCodec.Proofs.Reader.Replay

namespace ResidualCodec

/-! ## Symbol trees -/

namespace SymbolTree

variable {t : SymbolTree} {probs : List UInt8} {symbol : Int}

/-- Nothing is found in no steps. -/
theorem exists_eq_succ_of_leadsTo {n : Nat} {entry : Int} (h : t.leadsTo symbol n entry = true) :
    ∃ k, n = k + 1 := by
  cases n with
  | zero => exact absurd h Bool.false_ne_true
  | succ k => exact ⟨k, rfl⟩

/-- A leaf is searched in one step. -/
theorem leadsTo_leaf {steps : Nat} {entry : Int} (hneg : entry < 0) :
    t.leadsTo symbol (steps + 1) entry = (-entry == symbol) := by
  unfold leadsTo
  rw [if_pos hneg]

/-- A node is searched on both of its sides. -/
theorem leadsTo_sides {steps i : Nat} {left right : Int} (hleft : t[i]? = some left)
    (hright : t[i + 1]? = some right) :
    t.leadsTo symbol (steps + 1) i =
      (t.leadsTo symbol steps left || t.leadsTo symbol steps right) := by
  have hsize : i + 1 < t.size := (Array.getElem?_eq_some_iff.mp hright).1
  conv_lhs => unfold leadsTo
  rw [if_neg (by omega)]
  dsimp only
  rw [Int.toNat_natCast, if_neg (by omega), Array.getD_eq_getD_getElem?,
    Array.getD_eq_getD_getElem?, hleft, hright, Option.getD_some, Option.getD_some]

/-- A symbol that is found in a number of steps is found in more. -/
theorem leadsTo_mono {m n : Nat} (hmn : m ≤ n) {entry : Int}
    (h : t.leadsTo symbol m entry = true) : t.leadsTo symbol n entry = true := by
  induction m generalizing n entry with
  | zero => exact absurd h Bool.false_ne_true
  | succ m ih =>
    obtain ⟨n, rfl⟩ : ∃ k, n = k + 1 := ⟨n - 1, by omega⟩
    by_cases hneg : entry < 0
    · rwa [leadsTo_leaf hneg] at h ⊢
    · unfold leadsTo at h ⊢
      rw [if_neg hneg] at h ⊢
      dsimp only at h ⊢
      split at h
      case isTrue hend => exact absurd h Bool.false_ne_true
      case isFalse hend =>
        rw [if_neg hend, Bool.or_eq_true]
        rw [Bool.or_eq_true] at h
        exact h.imp (ih (by omega)) (ih (by omega))

/-- A path takes one decision at its first node, and goes on unless that leads to a leaf. -/
theorem of_pathFrom {fuel node : Nat} {ds : List Decision}
    (h : t.pathFrom probs symbol (fuel + 1) node = .ok ds) :
    ∃ p left next rest, probs[node / 2]? = some p ∧ t[node]? = some left ∧
      t[node + (!t.leadsTo symbol (t.size + 1) left).toNat]? = some next ∧
      ds = ⟨!t.leadsTo symbol (t.size + 1) left, p⟩ :: rest ∧
      (next < 0 ∧ rest = [] ∨ ¬ next < 0 ∧ t.pathFrom probs symbol fuel next.toNat = .ok rest) := by
  unfold pathFrom at h
  split at h
  case h_2 => cases h
  case h_1 p left hp hleft =>
    dsimp only at h
    split at h
    case h_1 => cases h
    case h_2 next hnext =>
      refine ⟨p, left, next, ?_⟩
      split at h
      case isTrue hneg =>
        cases h
        exact ⟨[], hp, hleft, hnext, rfl, .inl ⟨hneg, rfl⟩⟩
      case isFalse hneg =>
        cases hrest : t.pathFrom probs symbol fuel next.toNat with
        | error e =>
          rw [hrest] at h
          cases h
        | ok rest =>
          rw [hrest] at h
          cases h
          exact ⟨rest, hp, hleft, hnext, rfl, .inr ⟨hneg, rfl⟩⟩

/-- From a node that leads to a symbol, the entry that its decision selects leads there too. -/
theorem leadsTo_next {steps node : Nat} {left next : Int} (hsteps : steps ≤ t.size)
    (hlead : t.leadsTo symbol (steps + 1) node = true) (hleft : t[node]? = some left)
    (hnext : t[node + (!t.leadsTo symbol (t.size + 1) left).toNat]? = some next) :
    ∃ k ≤ t.size + 1, t.leadsTo symbol k next = true := by
  unfold leadsTo at hlead
  rw [if_neg (by omega)] at hlead
  dsimp only at hlead
  rw [Int.toNat_natCast] at hlead
  split at hlead
  case isTrue => exact absurd hlead Bool.false_ne_true
  case isFalse =>
    rw [Bool.or_eq_true, Array.getD_eq_getD_getElem?, hleft] at hlead
    cases hfound : t.leadsTo symbol (t.size + 1) left with
    | true =>
      rw [hfound] at hnext
      have heq : left = next := Option.some.inj (hleft.symm.trans hnext)
      exact ⟨t.size + 1, Nat.le_refl _, heq ▸ hfound⟩
    | false =>
      rw [hfound] at hnext
      rcases hlead with h | h
      · have hmore := leadsTo_mono (show steps ≤ t.size + 1 by omega) h
        exact absurd (hmore.symm.trans hfound) (by decide)
      · refine ⟨steps, by omega, ?_⟩
        have hright : t[node + 1]? = some next := hnext
        rw [Array.getD_eq_getD_getElem?, hright] at h
        exact h

variable {ρ : Type} [BoolReader ρ] {r r' : ρ}

theorem readFrom_succ (t : SymbolTree) (probs : List UInt8) (r : ρ) (fuel node : Nat) :
    t.readFrom probs r (fuel + 1) node =
      let x := BoolReader.read r (probs.getD (node / 2) 0)
      t[node + x.1.toNat]?.elim (none, x.2) fun next =>
        if next < 0 then (some (-next).toNat, x.2) else t.readFrom probs x.2 fuel next.toNat := by
  conv_lhs => unfold readFrom
  dsimp only
  cases t[node + (BoolReader.read r (probs.getD (node / 2) 0)).1.toNat]? with
  | none => rfl
  | some next => rfl

/-- Whoever follows the path to a symbol of the tree arrives at the symbol. -/
theorem readFrom_of_replays {symbol : Nat} {steps fuel node : Nat} {ds : List Decision}
    (hsteps : steps ≤ t.size + 1) (hlead : t.leadsTo symbol steps node = true)
    (hpath : t.pathFrom probs symbol fuel node = .ok ds) (h : Replays r ds r') :
    t.readFrom probs r fuel node = (some symbol, r') := by
  induction fuel generalizing steps node ds r with
  | zero => cases hpath
  | succ fuel ih =>
    obtain ⟨p, left, next, rest, hp, hleft, hnext, rfl, hrest⟩ := of_pathFrom hpath
    obtain ⟨m, hread, -, hreplays⟩ := h.of_cons
    obtain ⟨steps, rfl⟩ := exists_eq_succ_of_leadsTo hlead
    obtain ⟨k, hk, hleads⟩ := leadsTo_next (by omega) hlead hleft hnext
    simp only [readFrom]
    rw [List.getD_eq_getElem?_getD, hp, Option.getD_some, hread]
    dsimp only
    rw [hnext]
    dsimp only
    rcases hrest with ⟨hneg, rfl⟩ | ⟨hneg, hgo⟩
    · rw [if_pos hneg, hreplays.eq_of_nil]
      obtain ⟨k, rfl⟩ := exists_eq_succ_of_leadsTo hleads
      rw [leadsTo_leaf hneg] at hleads
      rw [eq_of_beq hleads, Int.toNat_natCast]
    · rw [if_neg hneg]
      rw [← Int.toNat_of_nonneg (Int.not_lt.mp hneg)] at hleads
      exact ih hk hleads hgo hreplays

end SymbolTree

/-! ## The magnitude tree -/

theorem length_paretoRow {i : Nat} (hi : i < 128) : (Pareto.oddRows.getD i []).length = 8 := by
  have hrow : Pareto.oddRows[i]? = some (Pareto.row (2 * i + 1)) := by
    simp only [Pareto.oddRows]
    rw [List.getElem?_toArray, List.getElem?_map, List.getElem?_range hi]
    rfl
  rw [Array.getD_eq_getD_getElem?, hrow]
  rfl

theorem getElem?_rows (pivot : UInt8) :
    Pareto.rows[pivot.toNat]? = some (Pareto.rowOf pivot.toNat) := by
  simp only [Pareto.rows]
  rw [List.getElem?_toArray, List.getElem?_map, List.getElem?_range pivot.toNat_lt]
  rfl

theorem paretoProbs_eq_rowOf (pivot : UInt8) : paretoProbs pivot = Pareto.rowOf pivot.toNat := by
  simp only [paretoProbs]
  rw [Array.getD_eq_getD_getElem?, getElem?_rows, Option.getD_some]

/-- Every pivot has a probability for each of the eight nodes. -/
theorem length_paretoProbs (pivot : UInt8) : (paretoProbs pivot).length = 8 := by
  have hp : pivot.toNat < 256 := pivot.toNat_lt
  rw [paretoProbs_eq_rowOf]
  simp only [Pareto.rowOf]
  split
  case isTrue => exact length_paretoRow (by decide)
  case isFalse hzero =>
    split
    case isTrue => exact length_paretoRow (by omega)
    case isFalse =>
      rw [List.length_zipWith, length_paretoRow (by omega), length_paretoRow (by omega)]
      rfl

/-- A token of magnitude two or more. -/
def Token.IsLarge (token : Token) : Prop :=
  token ≠ .zero ∧ token ≠ .one ∧ token ≠ .endOfBlock

/-- The tree holds every large token. -/
theorem leadsTo_magnitudeTree {token : Token} (h : token.IsLarge) :
    magnitudeTree.leadsTo token.index (magnitudeTree.size + 1) (0 : Nat) = true := by
  obtain ⟨hzero, hone, hend⟩ := h
  cases token with
  | zero => exact absurd rfl hzero
  | one => exact absurd rfl hone
  | endOfBlock => exact absurd rfl hend
  | category k => cases k <;> rfl
  | _ => rfl

/-- Eight probabilities are enough for every path, and no path takes more than four decisions. -/
theorem exists_path_magnitudeTree {probs : List UInt8} (hlen : probs.length = 8) {token : Token}
    (h : token.IsLarge) :
    ∃ ds, magnitudeTree.path probs token.index = .ok ds ∧ ds.length ≤ 4 := by
  obtain ⟨hzero, hone, hend⟩ := h
  -- A path through the tree is computed for whatever probabilities the nodes have.
  match probs, hlen with
  | [p₀, p₁, p₂, p₃, p₄, p₅, p₆, p₇], _ =>
    cases token with
    | zero => exact absurd rfl hzero
    | one => exact absurd rfl hone
    | endOfBlock => exact absurd rfl hend
    | category k => cases k <;> exact ⟨_, rfl, Nat.le_of_ble_eq_true rfl⟩
    | _ => exact ⟨_, rfl, Nat.le_of_ble_eq_true rfl⟩

theorem Token.getD_all (token : Token) : Token.all.getD token.index .zero = token := by
  cases token with
  | category k => cases k <;> rfl
  | _ => rfl

section

variable {ρ : Type} [BoolReader ρ] {r r' : ρ}

/-- A token different from zero is read back from its decisions. -/
theorem readToken_of_replays {probs : NodeProbs} {token : Token} (hzero : token ≠ .zero)
    (hend : token ≠ .endOfBlock) (h : Replays r (Symbol.tokenDecisions probs token) r') :
    readToken probs r = (token, r') := by
  simp only [Symbol.tokenDecisions] at h
  simp only [readToken]
  split at h
  case isTrue hone =>
    rw [h.of_singleton.1, hone]
    rfl
  case isFalse hone =>
    have hlarge : token.IsLarge := ⟨hzero, hone, hend⟩
    obtain ⟨ds, hpath, -⟩ := exists_path_magnitudeTree (length_paretoProbs probs.one) hlarge
    rw [hpath] at h
    obtain ⟨m, hread, -, hreplays⟩ := h.of_cons
    have htree : magnitudeTree.read (paretoProbs probs.one) m = (some token.index, r') :=
      SymbolTree.readFrom_of_replays (Nat.le_refl _) (leadsTo_magnitudeTree hlarge) hpath hreplays
    rw [hread]
    dsimp only
    rw [if_pos rfl, htree]
    dsimp only
    rw [Option.getD_some, Token.getD_all]

end

/-! ## Magnitudes -/

namespace Token

theorem length_category6Probs_drop (d : BitDepth) :
    ((Token.category .sixth).extraProbs d).length = d.category6Bits := by
  cases d <;> rfl

/-- The token of a magnitude starts at or below it, and its extra bits reach up to it. -/
theorem ofMagnitude_spec {d : BitDepth} {m : Nat} (h : m ≤ maxMagnitude d) :
    (ofMagnitude m).base ≤ m ∧
      m - (ofMagnitude m).base < 2 ^ ((ofMagnitude m).extraProbs d).length := by
  simp only [maxMagnitude] at h
  rw [Nat.one_shiftLeft] at h
  have hpow := Nat.two_pow_pos d.category6Bits
  fun_cases ofMagnitude m
  case case11 =>
    -- The highest category is as wide as the depth makes it.
    rw [length_category6Probs_drop]
    simp only [base, Category.base] at *
    omega
  all_goals
    simp only [base, Category.base, extraProbs, List.length_cons, List.length_nil] at *
    omega

theorem ofMagnitude_eq_zero_iff {m : Nat} : ofMagnitude m = .zero ↔ m = 0 := by
  fun_cases ofMagnitude m
  case case1 h => exact iff_of_true rfl h
  all_goals
    apply iff_of_false
    · intro h
      cases h
    · assumption

theorem ofMagnitude_ne_endOfBlock (m : Nat) : ofMagnitude m ≠ .endOfBlock := by
  fun_cases ofMagnitude m
  all_goals
    intro h
    cases h

end Token

end ResidualCodec
