/-
  ResidualCodec.Proofs.Counts.Merge

  Counting events adds to a table, slot by slot, what the same events add to an
  empty one.
-/

import ResidualCodec.Counts

namespace ResidualCodec

/-! ## Tables by slots -/

namespace SlotTable

variable {α : Type}

theorem map_index_all : Slot.all.map Slot.index = List.range 288 := by
  decide +kernel

/-- Every cell belongs to a slot. -/
theorem exists_slot {i : Nat} (hi : i < 288) : ∃ s : Slot, s.index = i := by
  have hmem : i ∈ Slot.all.map Slot.index := by
    rw [map_index_all]
    exact List.mem_range.mpr hi
  obtain ⟨s, -, hs⟩ := List.mem_map.mp hmem
  exact ⟨s, hs⟩

/-- Tables that agree on every slot are equal. -/
theorem eq_of_get_eq {t u : SlotTable α} (h : ∀ s, t.get s = u.get s) : t = u := by
  obtain ⟨cells⟩ := t
  obtain ⟨others⟩ := u
  congr 1
  apply Vector.ext
  intro i hi
  obtain ⟨s, rfl⟩ := exists_slot hi
  exact h s

/-- A value of the table of a function is the function's. -/
theorem get_ofFn (f : Slot → α) (s : Slot) : (ofFn f).get s = f s := by
  have hlen : s.index < Slot.all.length := by
    rw [Slot.length_all]
    exact s.index_lt
  have hindex : Slot.all[s.index].index = s.index := by
    have hrange : (Slot.all.map Slot.index)[s.index]? = some s.index := by
      rw [map_index_all, List.getElem?_range s.index_lt]
    simpa [List.getElem?_eq_getElem hlen] using hrange
  have hslot : Slot.all[s.index] = s := Slot.index_inj hindex
  rw [get_eq_getElem _ s s.index_lt]
  simp only [ofFn, Vector.getElem_mk, List.getElem_toArray, List.getElem_map, hslot]

end SlotTable

/-! ## Sums -/

namespace Tally

variable (t u : Tally)

theorem add_zero : t.add {} = t := by
  simp only [add]
  simp only [UInt32.add_zero]

theorem count_add (bin : CountBin) : (t.add u).count bin = t.add (u.count bin) := by
  cases bin
  all_goals
    simp only [add, count]
    simp only [UInt32.add_assoc]

theorem check_add : (t.add u).check = t.add u.check := by
  simp only [add, check]
  simp only [UInt32.add_assoc]

end Tally

namespace CountTable

variable (t u : CountTable) (k : BlockKind)

theorem merge_empty : t.merge empty = t := by
  apply SlotTable.eq_of_get_eq
  intro s
  show (t.zipWith Tally.add empty).get s = t.get s
  rw [SlotTable.get_zipWith, empty, SlotTable.get_replicate, Tally.add_zero]

/-- A change of one slot that goes through sums of counters goes through sums of tables. -/
theorem modify_merge (s : Slot) {f : Tally → Tally}
    (hf : ∀ x y : Tally, f (x.add y) = x.add (f y)) :
    (t.merge u).modify s f = t.merge (u.modify s f) := by
  apply SlotTable.eq_of_get_eq
  intro v
  show ((t.zipWith Tally.add u).modify s f).get v = (t.zipWith Tally.add (u.modify s f)).get v
  rw [SlotTable.get_modify, SlotTable.get_zipWith, SlotTable.get_zipWith, SlotTable.get_modify]
  by_cases h : s = v
  · rw [if_pos h, if_pos h, hf]
  · rw [if_neg h, if_neg h]

theorem record_merge (e : CountEvent) : (t.merge u).record k e = t.merge (u.record k e) := by
  cases e with
  | check b c =>
    simp only [record]
    apply modify_merge
    intro x y
    exact x.check_add y
  | token b c bin =>
    simp only [record]
    apply modify_merge
    intro x y
    exact x.count_add y bin

theorem recordAll_merge (es : List CountEvent) :
    (t.merge u).recordAll k es = t.merge (u.recordAll k es) := by
  induction es generalizing u with
  | nil => rfl
  | cons e es ih =>
    show ((t.merge u).record k e).recordAll k es = t.merge ((u.record k e).recordAll k es)
    rw [record_merge, ih]

/-- Events add the same increments to every table. -/
theorem recordAll_eq_merge (es : List CountEvent) :
    t.recordAll k es = t.merge (empty.recordAll k es) := by
  rw [← recordAll_merge, merge_empty]

end CountTable

end ResidualCodec
