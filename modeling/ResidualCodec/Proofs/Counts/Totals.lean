/-
  ResidualCodec.Proofs.Counts.Totals

  Totals of counters over the slots of a kind. What the symbols of a block add
  to them does not depend on the slots that the symbols are counted in, and
  nothing is added to the slots of other kinds.
-/

import Mathlib.Algebra.BigOperators.Fin
import ResidualCodec.Proofs.Counts.Balance

namespace ResidualCodec

/-! ## Symbols -/

/-- Counters of a symbol alone. -/
def Symbol.tally (x : Symbol) : Tally :=
  (if x.checked then ({} : Tally).check else {}).count x.token.bin

/-- A symbol adds one to the counter of its token, and one to the questions if it asks. -/
theorem Symbol.toNat_tally (x : Symbol) :
    x.tally.zero.toNat = (decide (x.token.bin = .zero)).toNat ∧
    x.tally.one.toNat = (decide (x.token.bin = .one)).toNat ∧
    x.tally.twoOrMore.toNat = (decide (x.token.bin = .twoOrMore)).toNat ∧
    x.tally.endOfBlock.toNat = (decide (x.token.bin = .endOfBlock)).toNat ∧
    x.tally.checks.toNat = x.checked.toNat := by
  simp only [tally]
  cases x.checked <;> cases x.token.bin <;> decide

namespace CountTable

/-! ## Sums over a kind -/

/-- Sum over the slots of a kind. -/
def kindSum (k : BlockKind) (g : Slot → Nat) : Nat := ∑ b : Band, ∑ c : Ctx, g ⟨k, b, c⟩

/-- Total of a counter in the slots of a kind. -/
def kindTotal (t : CountTable) (k : BlockKind) (f : Tally → UInt32) : Nat :=
  kindSum k fun s => (f (t.get s)).toNat

theorem kindSum_add (k : BlockKind) (g h : Slot → Nat) :
    kindSum k (fun s => g s + h s) = kindSum k g + kindSum k h := by
  simp only [kindSum, Finset.sum_add_distrib]

theorem kindSum_zero (k : BlockKind) : kindSum k (fun _ => 0) = 0 := by
  simp only [kindSum, Finset.sum_const_zero]

/-- What is in one slot only is the sum. -/
theorem kindSum_slot (k : BlockKind) (b : Band) (c : Ctx) (n : Nat) :
    kindSum k (fun s => if (⟨k, b, c⟩ : Slot) = s then n else 0) = n := by
  simp only [kindSum, Slot.mk.injEq, true_and, ite_and, Finset.sum_ite_eq, Finset.mem_univ,
    if_true, Finset.sum_ite_irrel, Finset.sum_const_zero]

section

variable {f : Tally → UInt32} (hf : f ∈ Tally.counters) (k : BlockKind)

include hf

theorem counted_events (x : Symbol) (s : Slot) : counted (each k x.events) s f =
    if (⟨k, x.band, x.ctx⟩ : Slot) = s then (f x.tally).toNat else 0 := by
  simp only [Tally.counters, List.mem_cons, List.not_mem_nil, or_false] at hf
  simp only [counted, each, Symbol.events, Symbol.checkEvents, Symbol.tally]
  cases x.checked with
  | true =>
    simp only [if_true, List.cons_append, List.nil_append, List.map_cons, List.map_nil, get_check,
      get_token]
    split <;> rcases hf with rfl | rfl | rfl | rfl | rfl <;> cases x.token.bin <;> rfl
  | false =>
    simp only [Bool.false_eq_true, if_false, List.nil_append, List.map_cons, List.map_nil,
      get_token]
    split <;> rcases hf with rfl | rfl | rfl | rfl | rfl <;> cases x.token.bin <;> rfl

/-- A counter grows, over the slots of a kind, by the number of symbols that it counts. -/
theorem kindSum_counted {P : Symbol → Bool} (hP : ∀ x, (f x.tally).toNat = (P x).toNat)
    (ss : List Symbol) :
    (kindSum k fun s => counted (each k (ss.flatMap Symbol.events)) s f) = ss.countP P := by
  induction ss with
  | nil => exact kindSum_zero k
  | cons x ss ih =>
    have hfirst : (kindSum k fun s => counted (each k x.events) s f) = (P x).toNat := by
      simp only [counted_events hf, hP]
      exact kindSum_slot k x.band x.ctx _
    simp only [List.flatMap_cons, each_append, counted_append]
    rw [kindSum_add, hfirst, ih, List.countP_cons, Nat.add_comm]
    cases P x <;> rfl

/-- A counter that does not overflow holds what it held and what is counted. -/
theorem toNat_recordAll {t : CountTable} {es : List CountEvent} {s : Slot}
    (hfits : (f (t.get s)).toNat + counted (each k es) s f < 2 ^ 32) :
    (f ((t.recordAll k es).get s)).toNat = (f (t.get s)).toNat + counted (each k es) s f := by
  have hsum : (f ((sum (each k es)).get s)).toNat = counted (each k es) s f % 2 ^ 32 :=
    toNat_counter_sum hf _ s
  rw [recordAll_eq_merge, recordAll_eq_sum, get_merge, Tally.counter_add _ _ hf, UInt32.toNat_add,
    hsum, Nat.add_mod_mod, Nat.mod_eq_of_lt hfits]

/-- As long as no counter of the kind overflows, its total grows by the number of symbols that it
counts. -/
theorem kindTotal_recordAll {P : Symbol → Bool} (hP : ∀ x, (f x.tally).toNat = (P x).toNat)
    {t : CountTable} {ss : List Symbol}
    (hfits : ∀ b c, (f (t.get ⟨k, b, c⟩)).toNat +
      counted (each k (ss.flatMap Symbol.events)) ⟨k, b, c⟩ f < 2 ^ 32) :
    (t.recordAll k (ss.flatMap Symbol.events)).kindTotal k f = t.kindTotal k f + ss.countP P := by
  rw [← kindSum_counted hf k hP, kindTotal, kindTotal, ← kindSum_add]
  simp only [kindSum, toNat_recordAll hf k (hfits _ _)]

end

/-- Slots of other kinds are left alone. -/
theorem get_recordAll_of_ne (t : CountTable) {k : BlockKind} (es : List CountEvent) {s : Slot}
    (h : s.kind ≠ k) : (t.recordAll k es).get s = t.get s := by
  induction es generalizing t with
  | nil => rfl
  | cons e es ih =>
    refine (ih (t.record k e)).trans ?_
    have hne : ∀ b c, (⟨k, b, c⟩ : Slot) ≠ s := by
      rintro b c rfl
      exact h rfl
    cases e with
    | check b c => exact (SlotTable.get_modify _ _ _ _).trans (if_neg (hne b c))
    | token b c bin => exact (SlotTable.get_modify _ _ _ _).trans (if_neg (hne b c))

/-! ## Growth -/

/-- Whether no counter of a kind overflows while events are counted. -/
def Fits (t : CountTable) (k : BlockKind) (es : List CountEvent) : Prop :=
  ∀ b c, ∀ f ∈ Tally.counters,
    (f (t.get ⟨k, b, c⟩)).toNat + counted (each k es) ⟨k, b, c⟩ f < 2 ^ 32

/-- What is added to the counters of a kind in all: levels of magnitude zero, one and more, and ends
of block; and a question for each of them but the zeros. -/
structure Grows (t t' : CountTable) (k : BlockKind) (zeros ones larger ends : Nat) : Prop where
  zero : t'.kindTotal k Tally.zero = t.kindTotal k Tally.zero + zeros
  one : t'.kindTotal k Tally.one = t.kindTotal k Tally.one + ones
  twoOrMore : t'.kindTotal k Tally.twoOrMore = t.kindTotal k Tally.twoOrMore + larger
  endOfBlock : t'.kindTotal k Tally.endOfBlock = t.kindTotal k Tally.endOfBlock + ends
  checks : t'.kindTotal k Tally.checks = t.kindTotal k Tally.checks + (ones + larger + ends)

end CountTable

end ResidualCodec
