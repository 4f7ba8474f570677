/-
  ResidualCodec.Proofs.Coefficient.Cost

  What a block costs at most: eight bits a decision, and 26 decisions a symbol,
  whatever the probabilities. An equiprobable bit costs the same either way.
-/

import Mathlib.Algebra.BigOperators.Group.List.Basic
import ResidualCodec.Proofs.Coefficient.Reading
import ResidualCodec.Proofs.Coefficient.RoundTrip

namespace ResidualCodec

/-! ## Decisions -/

theorem bitCost_le (bit : Bool) (prob : UInt8) : bitCost bit prob ≤ 2048 := by
  have hentry : ∀ i, informationCosts.getD i 0 ≤ 2048 := by
    intro i
    simp only [informationCosts]
    rw [Array.getD_eq_getD_getElem?, List.getElem?_toArray, List.getElem?_map]
    cases (List.range 256)[i]? with
    | none => exact Nat.zero_le _
    | some p => exact Nat.sub_le _ _
  simp only [bitCost]
  split
  case isTrue => exact hentry _
  case isFalse => exact hentry _

theorem totalCost_eq_sum (ds : List Decision) :
    totalCost ds = (ds.map fun d => bitCost d.bit d.prob).sum := by
  induction ds with
  | nil => rfl
  | cons d ds ih => rw [totalCost, ih, List.map_cons, List.sum_cons]

theorem totalCost_le (ds : List Decision) : totalCost ds ≤ ds.length * 2048 := by
  induction ds with
  | nil => exact Nat.le_refl 0
  | cons d ds ih =>
    have hfirst := bitCost_le d.bit d.prob
    rw [totalCost, List.length_cons]
    omega

theorem bitCost_true (prob : UInt8) :
    bitCost true prob = informationCosts.getD (256 - max 1 prob.toNat) 0 := if_pos rfl

theorem bitCost_false (prob : UInt8) : bitCost false prob = informationCosts.getD prob.toNat 0 :=
  if_neg Bool.false_ne_true

/-- A sign costs one bit, whatever it is. -/
theorem bitCost_even (bit : Bool) :
    bitCost bit Decision.evenOdds = bitCost false Decision.evenOdds := by
  -- The probability of a half is its own complement.
  have hhalf : 256 - max 1 Decision.evenOdds.toNat = Decision.evenOdds.toNat := by decide
  cases bit with
  | false => rfl
  | true => rw [bitCost_true, hhalf, bitCost_false]

theorem totalCost_append (ds es : List Decision) :
    totalCost (ds ++ es) = totalCost ds + totalCost es := by
  rw [totalCost_eq_sum, totalCost_eq_sum, totalCost_eq_sum, List.map_append, List.sum_append]

/-! ## Symbols -/

theorem Decision.length_extra (value : Nat) (ps : List UInt8) :
    (extra value ps).length = ps.length := by
  induction ps with
  | nil => rfl
  | cons p ps ih => rw [extra, List.length_cons, ih, List.length_cons]

namespace Symbol

theorem length_tokenDecisions_le (probs : NodeProbs) {token : Token} (hzero : token ≠ .zero)
    (hend : token ≠ .endOfBlock) : (tokenDecisions probs token).length ≤ 5 := by
  simp only [tokenDecisions]
  split
  case isTrue => exact Nat.le_of_ble_eq_true rfl
  case isFalse hone =>
    obtain ⟨ds, hpath, hlength⟩ :=
      exists_path_magnitudeTree (length_paretoProbs probs.one) ⟨hzero, hone, hend⟩
    rw [hpath]
    exact Nat.succ_le_succ hlength

/-- The largest symbol takes as many decisions to write as it takes to read. -/
theorem length_decisions_le (probs : NodeProbs) (d : BitDepth) (s : Symbol) :
    (s.decisions probs d).length ≤ 26 := by
  have hextra := length_extraProbs_le s.token d
  have hmore : (if s.checked then [(⟨true, probs.endOfBlock⟩ : Decision)] else []).length ≤ 1 := by
    split
    case isTrue => exact Nat.le_refl 1
    case isFalse => exact Nat.zero_le 1
  simp only [decisions]
  split
  case isTrue => exact Nat.le_of_ble_eq_true rfl
  case isFalse hend =>
    split
    case isTrue =>
      rw [List.length_append, List.length_singleton]
      omega
    case isFalse hzero =>
      have htoken := length_tokenDecisions_le probs hzero hend
      rw [List.length_append, List.length_append, List.length_append, List.length_cons,
        Decision.length_extra, List.length_singleton]
      omega

end Symbol

theorem length_symbolDecisions_le (probs : ProbTable) (p : BlockParams) (ss : List Symbol) :
    (symbolDecisions probs p ss).length ≤ ss.length * 26 := by
  induction ss with
  | nil => exact Nat.le_refl 0
  | cons s ss ih =>
    have hfirst := s.length_decisions_le (probs.get ⟨p.kind, s.band, s.ctx⟩) p.depth
    simp only [symbolDecisions, List.flatMap_cons, List.length_append, List.length_cons] at ih ⊢
    omega

end ResidualCodec
