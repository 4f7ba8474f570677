/-
  ResidualCodec.Proofs.Counts.Sum

  Tables of counts are added counter by counter, and a counter of 32 bits holds
  the sum of what was added to it, less the multiples of its range. So a sum of
  tables does not depend on their order.
-/

import Mathlib.Algebra.BigOperators.Group.List.Basic
import Mathlib.Algebra.GroupWithZero.Nat
import ResidualCodec.Proofs.Counts.Merge

namespace ResidualCodec

namespace Tally

variable (t u v : Tally)

theorem add_comm : t.add u = u.add t := by
  simp only [add]
  simp only [UInt32.add_comm]

theorem add_assoc : (t.add u).add v = t.add (u.add v) := by
  simp only [add]
  simp only [UInt32.add_assoc]

/-! ## Counters -/

/-- The five counters of a slot. -/
def counters : List (Tally → UInt32) := [zero, one, twoOrMore, endOfBlock, checks]

variable {f : Tally → UInt32} (hf : f ∈ counters)

include hf

theorem counter_empty : f {} = 0 := by
  simp only [counters, List.mem_cons, List.not_mem_nil, or_false] at hf
  rcases hf with rfl | rfl | rfl | rfl | rfl
  all_goals rfl

theorem counter_add : f (t.add u) = f t + f u := by
  simp only [counters, List.mem_cons, List.not_mem_nil, or_false] at hf
  rcases hf with rfl | rfl | rfl | rfl | rfl
  all_goals rfl

end Tally

namespace CountTable

section

variable (t u v : CountTable)

theorem get_merge (s : Slot) : (t.merge u).get s = (t.get s).add (u.get s) :=
  SlotTable.get_zipWith _ _ _ _

theorem merge_comm : t.merge u = u.merge t := by
  apply SlotTable.eq_of_get_eq
  intro s
  rw [get_merge, get_merge, Tally.add_comm]

theorem merge_assoc : (t.merge u).merge v = t.merge (u.merge v) := by
  apply SlotTable.eq_of_get_eq
  intro s
  rw [get_merge, get_merge, get_merge, get_merge, Tally.add_assoc]

theorem empty_merge : empty.merge t = t := by
  rw [merge_comm, merge_empty]

end

/-! ## Sums -/

theorem foldl_merge (t : CountTable) (ts : List CountTable) :
    ts.foldl merge t = t.merge (sum ts) := by
  induction ts generalizing t with
  | nil => exact (merge_empty t).symm
  | cons u us ih =>
    show us.foldl merge (t.merge u) = t.merge (us.foldl merge (empty.merge u))
    rw [ih, ih, empty_merge, merge_assoc]

theorem sum_cons (t : CountTable) (ts : List CountTable) : sum (t :: ts) = t.merge (sum ts) := by
  show ts.foldl merge (empty.merge t) = t.merge (sum ts)
  rw [foldl_merge, empty_merge]

/-- Tables may be added in any order. -/
theorem sum_perm {ts us : List CountTable} (h : ts.Perm us) : sum ts = sum us := by
  induction h with
  | nil => rfl
  | cons t h ih => rw [sum_cons, sum_cons, ih]
  | swap t u ts =>
    rw [sum_cons, sum_cons, sum_cons, sum_cons, ← merge_assoc, merge_comm u t, merge_assoc]
  | trans h h' ih ih' => exact ih.trans ih'

/-- Every counter of a sum is the sum of the counters, in 32 bits. -/
theorem toNat_counter_sum {f : Tally → UInt32} (hf : f ∈ Tally.counters) (ts : List CountTable)
    (s : Slot) :
    (f ((sum ts).get s)).toNat = (ts.map fun t => (f (t.get s)).toNat).sum % 2 ^ 32 := by
  induction ts with
  | nil =>
    show (f (empty.get s)).toNat = 0
    rw [empty, SlotTable.get_replicate, Tally.counter_empty hf]
    rfl
  | cons t ts ih =>
    rw [sum_cons, get_merge, Tally.counter_add _ _ hf, UInt32.toNat_add, ih, List.map_cons,
      List.sum_cons, Nat.add_mod_mod]

end CountTable

end ResidualCodec
