/-
  ResidualCodec.Proofs.Scan.Causal

  No context looks ahead. The neighbours of a position lie on earlier waves, so
  an order of any size visits them first, and the context of a scan index follows
  from the energies of the positions visited before it.
-/

import ResidualCodec.Proofs.Scan.Order

namespace ResidualCodec

/-! ## Neighbours -/

namespace ScanKind

variable {k : ScanKind} {n : Nat}

theorem Precedes.asymm {p q : Nat × Nat} (h : k.Precedes p q) : ¬ k.Precedes q p := by
  intro h'
  simp only [Precedes] at h h'
  omega

theorem precedes_below (k : ScanKind) (row col : Nat) : k.Precedes (row, col) (row + 1, col) := by
  left
  cases k <;> simp only [key] <;> omega

theorem precedes_right (k : ScanKind) (row col : Nat) : k.Precedes (row, col) (row, col + 1) := by
  left
  cases k <;> simp only [key] <;> omega

/-- Away from the corner, a neighbour is a step up or to the left. -/
theorem neighbors_precede {row col : Nat} (h : (row, col) ≠ (0, 0)) :
    k.Precedes (k.neighbors row col).1 (row, col) ∧
      k.Precedes (k.neighbors row col).2 (row, col) := by
  match k, row, col with
  | _, 0, 0 => exact absurd rfl h
  | k, 0, col + 1 => exact ⟨precedes_right k 0 col, precedes_right k 0 col⟩
  | k, row + 1, 0 => exact ⟨precedes_below k row 0, precedes_below k row 0⟩
  | .diagonal, row + 1, col + 1 =>
    exact ⟨precedes_below _ row (col + 1), precedes_right _ (row + 1) col⟩
  | .rowwise, row + 1, col + 1 =>
    exact ⟨precedes_right _ (row + 1) col, precedes_right _ (row + 1) col⟩
  | .columnwise, row + 1, col + 1 =>
    exact ⟨precedes_below _ row (col + 1), precedes_below _ row (col + 1)⟩

/-- Cells are listed in the order in which they precede each other. -/
theorem lt_of_precedes {i j : Nat} {p q : Nat × Nat} (hp : (k.cells n)[i]? = some p)
    (hq : (k.cells n)[j]? = some q) (h : k.Precedes p q) : i < j := by
  obtain ⟨hi, rfl⟩ := List.getElem?_eq_some_iff.mp hp
  obtain ⟨hj, rfl⟩ := List.getElem?_eq_some_iff.mp hq
  by_contra hle
  rcases Nat.lt_or_eq_of_le (Nat.not_lt.mp hle) with hlt | rfl
  · exact h.asymm (List.pairwise_iff_getElem.mp (pairwise_cells k n) j i hj hi hlt)
  · exact h.ne rfl

/-- Nothing precedes the corner, so it can only be listed first. -/
theorem ne_corner_of_getElem? {i : Nat} {p : Nat × Nat} (hp : (k.cells n)[i]? = some p)
    (hi : 1 ≤ i) : p ≠ (0, 0) := by
  rintro rfl
  obtain ⟨hlt, hcell⟩ := List.getElem?_eq_some_iff.mp hp
  have hfirst := List.pairwise_iff_getElem.mp (pairwise_cells k n) 0 i (by omega) hlt hi
  rw [hcell] at hfirst
  cases k <;> simp only [Precedes, key] at hfirst <;> omega

/-- The neighbours of a cell are listed before it. -/
theorem exists_neighbors_lt {i : Nat} {p : Nat × Nat} (hp : (k.cells n)[i]? = some p)
    (hi : 1 ≤ i) :
    (∃ x < i, (k.cells n)[x]? = some (k.neighbors p.1 p.2).1) ∧
      ∃ x < i, (k.cells n)[x]? = some (k.neighbors p.1 p.2).2 := by
  obtain ⟨hfirst, hsecond⟩ := neighbors_precede (k := k) (ne_corner_of_getElem? hp hi)
  obtain ⟨hmem₁, hmem₂⟩ := neighbors_mem_cells (List.mem_of_getElem? hp)
  obtain ⟨x, hx⟩ := List.getElem?_of_mem hmem₁
  obtain ⟨y, hy⟩ := List.getElem?_of_mem hmem₂
  exact ⟨⟨x, lt_of_precedes hx hp hfirst, hx⟩, ⟨y, lt_of_precedes hy hp hsecond, hy⟩⟩

theorem pairwise_rasters (k : ScanKind) (n : Nat) :
    (k.rasters n).Pairwise fun a b => k.Precedes (a / n, a % n) (b / n, b % n) := by
  rw [rasters, List.pairwise_map]
  apply (pairwise_cells k n).imp_of_mem
  intro p q hp hq hpq
  rwa [cell_of_raster (mem_cells.mp hp).2, cell_of_raster (mem_cells.mp hq).2]

end ScanKind

/-! ## Orders -/

namespace ScanOrder

/-- The neighbours of a scan index are visited before it. -/
def VisitsBefore (o : ScanOrder) (i : Nat) : Prop :=
  ∃ a b x y, o.neighbors[i]? = some (a, b) ∧ o.scan[x]? = some a ∧ o.scan[y]? = some b ∧
    x < i ∧ y < i

section

variable {o : ScanOrder} {i : Nat} (h : o.VisitsBefore i)

include h

theorem VisitsBefore.exists_mem_take : ∃ a b, o.neighbors[i]? = some (a, b) ∧
    a ∈ o.scan.toList.take i ∧ b ∈ o.scan.toList.take i := by
  obtain ⟨a, b, x, y, hneighbors, ha, hb, hx, hy⟩ := h
  have hmem : ∀ {j c}, j < i → o.scan[j]? = some c → c ∈ o.scan.toList.take i := by
    intro j c hj hc
    apply List.mem_of_getElem? (i := j)
    rw [List.getElem?_take_of_lt hj, Array.getElem?_toList, hc]
  exact ⟨a, b, hneighbors, hmem hx ha, hmem hy hb⟩

/-- The context is the same for energies that agree on what has been visited. -/
theorem VisitsBefore.contextAt_congr {e f : Array Nat}
    (hef : ∀ a ∈ o.scan.toList.take i, e[a]? = f[a]?) :
    contextAt o.neighbors e i = contextAt o.neighbors f i := by
  obtain ⟨a, b, hneighbors, ha, hb⟩ := h.exists_mem_take
  simp only [contextAt]
  rw [hneighbors]
  dsimp only
  rw [hef a ha, hef b hb]

theorem VisitsBefore.exists_contextAt_le {e : Array Nat}
    (he : ∀ a ∈ o.scan.toList.take i, ∃ x ≤ 2, e[a]? = some x) :
    ∃ x ≤ 2, contextAt o.neighbors e i = .ok x := by
  obtain ⟨a, b, hneighbors, ha, hb⟩ := h.exists_mem_take
  obtain ⟨x, hx, hex⟩ := he a ha
  obtain ⟨y, hy, hey⟩ := he b hb
  refine ⟨blend x y, Nat.le_of_lt_succ (blend_lt_three (by omega) (by omega)), ?_⟩
  simp only [contextAt]
  rw [hneighbors]
  dsimp only
  rw [hex, hey]

end

section

variable {n : Nat} (k : ScanKind)

/-- Raster positions of the neighbours of a cell that is listed somewhere. -/
theorem neighbors_of_cells {i : Nat} {p : Nat × Nat} (hp : (k.cells n)[i]? = some p) :
    (generate n k).neighbors[i]? =
      some (entry16 ((k.neighbors p.1 p.2).1.1 * n + (k.neighbors p.1 p.2).1.2),
        entry16 ((k.neighbors p.1 p.2).2.1 * n + (k.neighbors p.1 p.2).2.2)) := by
  simp only [generate]
  rw [List.getElem?_toArray, List.getElem?_map, hp]
  rfl

theorem scan_of_cells {i : Nat} {p : Nat × Nat} (hp : (k.cells n)[i]? = some p) :
    (generate n k).scan[i]? = some (entry16 (p.1 * n + p.2)) := by
  simp only [generate]
  rw [List.getElem?_toArray, List.getElem?_map, hp]
  rfl

theorem visitsBefore_generate {i : Nat} (hi : 1 ≤ i) (hlt : i < n * n) :
    (generate n k).VisitsBefore i := by
  have hlength : (k.cells n).length = n * n := by
    rw [← (ScanKind.enumerates_rasters k n).length, ScanKind.rasters, List.length_map]
  have hp := List.getElem?_eq_getElem (hlt.trans_eq hlength.symm)
  obtain ⟨⟨x, hx, hfirst⟩, ⟨y, hy, hsecond⟩⟩ := ScanKind.exists_neighbors_lt hp hi
  exact ⟨_, _, x, y, neighbors_of_cells k hp, scan_of_cells k hfirst, scan_of_cells k hsecond,
    hx, hy⟩

variable (hn : n * n ≤ 65536)

include hn

theorem size_iscan : (generate n k).iscan.size = n * n := by
  show (invert (generate n k).scan).size = n * n
  rw [invert_eq_assign, size_assign, Array.size_replicate, ← Array.length_toList,
    scan_generate hn, (ScanKind.enumerates_rasters k n).length]

/-- Scan and inverse table undo each other. -/
theorem scan_eq_some_iff (i a : Nat) :
    (generate n k).scan[i]? = some a ↔ (generate n k).iscan[a]? = some i := by
  have hscan : (generate n k).scan[i]? = (k.rasters n)[i]? := by
    rw [← Array.getElem?_toList, scan_generate hn]
  rw [hscan]
  constructor
  · exact iscan_of_scan hn k
  · intro h
    have ha : a < n * n := by
      rw [← size_iscan k hn]
      exact (Array.getElem?_eq_some_iff.mp h).1
    obtain ⟨j, hj⟩ := List.getElem?_of_mem ((ScanKind.enumerates_rasters k n).mem_iff.mpr ha)
    cases Option.some.inj ((iscan_of_scan hn k hj).symm.trans h)
    exact hj

end

/-- An order of the positions of a block of `n` points in which no context looks ahead. -/
structure Causal (o : ScanOrder) (k : ScanKind) (n : Nat) : Prop where
  perm : o.scan.toList.Perm (List.range (n * n))
  increasing : o.scan.toList.Pairwise fun a b => k.Precedes (a / n, a % n) (b / n, b % n)
  inverse : ∀ i a : Nat, o.scan[i]? = some a ↔ o.iscan[a]? = some i
  neighbors_lt : ∀ i : Nat, 1 ≤ i → i < n * n → ∃ a b x y, o.neighbors[i]? = some (a, b) ∧
    o.iscan[a]? = some x ∧ o.iscan[b]? = some y ∧ x < i ∧ y < i
  context_congr : ∀ i, 1 ≤ i → i < n * n → ∀ e f : Array Nat,
    (∀ a ∈ o.scan.toList.take i, e[a]? = f[a]?) →
      contextAt o.neighbors e i = contextAt o.neighbors f i
  context_le : ∀ i, 1 ≤ i → i < n * n → ∀ e : Array Nat,
    (∀ a ∈ o.scan.toList.take i, ∃ x ≤ 2, e[a]? = some x) →
      ∃ x ≤ 2, contextAt o.neighbors e i = .ok x

/-- As long as 16 bits hold its positions, a block of any size has a causal order of each kind. -/
theorem causal_generate {n : Nat} (hn : n * n ≤ 65536) (k : ScanKind) :
    (generate n k).Causal k n where
  perm := by
    rw [scan_generate hn]
    exact (ScanKind.enumerates_rasters k n).perm
  increasing := by
    rw [scan_generate hn]
    exact ScanKind.pairwise_rasters k n
  inverse := scan_eq_some_iff k hn
  neighbors_lt i hi hlt := by
    obtain ⟨a, b, x, y, hneighbors, ha, hb, hx, hy⟩ := visitsBefore_generate k hi hlt
    exact ⟨a, b, x, y, hneighbors, (scan_eq_some_iff k hn x a).mp ha,
      (scan_eq_some_iff k hn y b).mp hb, hx, hy⟩
  context_congr i hi hlt _ _ hef := (visitsBefore_generate k hi hlt).contextAt_congr hef
  context_le i hi hlt _ he := (visitsBefore_generate k hi hlt).exists_contextAt_le he

/-- A size that no transform has. Energies of the positions from scan index 4 on are not looked
at. -/
theorem causal_generate_three :
    let o := generate 3 .columnwise
    let e : Array Nat := #[2, 0, 0, 1, 2, 0, 2, 0, 0]
    let f : Array Nat := #[2, 0, 7, 1, 9, 9, 2]
    3 * 3 ≤ 65536 ∧ o.Causal .columnwise 3 ∧ o.scan = #[0, 3, 6, 1, 4, 7, 2, 5, 8] ∧ 1 ≤ 4 ∧
      4 < 3 * 3 ∧ (∀ a ∈ o.scan.toList.take 4, e[a]? = f[a]?) ∧
      contextAt o.neighbors e 4 = contextAt o.neighbors f 4 ∧
      (∀ a ∈ o.scan.toList.take 4, ∃ x ≤ 2, f[a]? = some x) ∧
      ∃ x ≤ 2, contextAt o.neighbors f 4 = .ok x := by
  intro o e f
  have hcausal : o.Causal .columnwise 3 := causal_generate (by decide) .columnwise
  have hagree : ∀ a ∈ o.scan.toList.take 4, e[a]? = f[a]? := by decide +kernel
  have hsmall : ∀ a ∈ o.scan.toList.take 4, ∃ x ≤ 2, f[a]? = some x := by decide +kernel
  exact ⟨by decide, hcausal, by decide +kernel, by decide, by decide, hagree,
    hcausal.context_congr 4 (by decide) (by decide) e f hagree, hsmall,
    hcausal.context_le 4 (by decide) (by decide) f hsmall⟩

end ScanOrder

end ResidualCodec
