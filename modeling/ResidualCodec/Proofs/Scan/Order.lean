/-
  ResidualCodec.Proofs.Scan.Order

  A scan order lists the positions of a block once each, in increasing order of
  their keys, and its inverse table gives every position its place in the list.
-/

import Mathlib.Data.List.Perm.Basic
import Mathlib.Tactic.Ring
import ResidualCodec.Scan

namespace ResidualCodec

/-! ## Cells -/

namespace ScanKind

/-- The cell of a key is the one cell of the block that has this key. -/
theorem cell?_eq_some_iff {k : ScanKind} {n wave place : Nat} {p : Nat × Nat} :
    k.cell? n wave place = some p ↔
      p.1 < n ∧ p.2 < n ∧ k.key p.1 p.2 = (wave, place) := by
  obtain ⟨row, col⟩ := p
  -- The guards of the three kinds differ, but each is linear in the key.
  cases k
  all_goals
    simp only [cell?, key]
    split
    case isTrue h =>
      simp only [Option.some.injEq, Prod.mk.injEq]
      omega
    case isFalse h =>
      simp only [reduceCtorEq, Prod.mk.injEq, false_iff]
      omega

/-- Inside a block of `n` points, waves are numbered below `3 * n` and places below `n`. -/
theorem key_lt {k : ScanKind} {n row col : Nat} (hr : row < n) (hc : col < n) :
    (k.key row col).1 < 3 * n ∧ (k.key row col).2 < n := by
  cases k <;> exact ⟨show _ < _ by simp only [key]; omega, by assumption⟩

theorem mem_cells {k : ScanKind} {n : Nat} {p : Nat × Nat} :
    p ∈ k.cells n ↔ p.1 < n ∧ p.2 < n := by
  simp only [cells]
  simp only [List.mem_flatMap, List.mem_filterMap, List.mem_range]
  constructor
  · rintro ⟨wave, -, place, -, hcell⟩
    obtain ⟨hr, hc, -⟩ := cell?_eq_some_iff.mp hcell
    exact ⟨hr, hc⟩
  · rintro ⟨hr, hc⟩
    obtain ⟨hwave, hplace⟩ := key_lt (k := k) hr hc
    exact ⟨_, hwave, _, hplace, cell?_eq_some_iff.mpr ⟨hr, hc, rfl⟩⟩

/-- Neighbours of a cell of the block are cells of the block. -/
theorem neighbors_mem_cells {k : ScanKind} {n row col : Nat} (h : (row, col) ∈ k.cells n) :
    (k.neighbors row col).1 ∈ k.cells n ∧ (k.neighbors row col).2 ∈ k.cells n := by
  simp only [mem_cells] at h ⊢
  fun_cases neighbors k row col
  all_goals
    dsimp only
    omega

/-- The order of keys: by wave, and inside a wave by place. -/
def Precedes (k : ScanKind) (p q : Nat × Nat) : Prop :=
  (k.key p.1 p.2).1 < (k.key q.1 q.2).1 ∨
    (k.key p.1 p.2).1 = (k.key q.1 q.2).1 ∧ (k.key p.1 p.2).2 < (k.key q.1 q.2).2

theorem Precedes.ne {k : ScanKind} {p q : Nat × Nat} (h : k.Precedes p q) : p ≠ q := by
  rintro rfl
  rcases h with hwave | ⟨-, hplace⟩
  · exact Nat.lt_irrefl _ hwave
  · exact Nat.lt_irrefl _ hplace

/-- The cells are listed in strictly increasing order of their keys. -/
theorem pairwise_cells (k : ScanKind) (n : Nat) : (k.cells n).Pairwise k.Precedes := by
  simp only [cells]
  rw [List.pairwise_flatMap]
  constructor
  · intro wave _
    rw [List.pairwise_filterMap]
    apply List.pairwise_lt_range.imp
    intro a b hab p hp q hq
    obtain ⟨-, -, hp⟩ := cell?_eq_some_iff.mp hp
    obtain ⟨-, -, hq⟩ := cell?_eq_some_iff.mp hq
    right
    rw [hp, hq]
    exact ⟨rfl, hab⟩
  · apply List.pairwise_lt_range.imp
    intro v w hvw p hp q hq
    obtain ⟨a, -, hp⟩ := List.mem_filterMap.mp hp
    obtain ⟨b, -, hq⟩ := List.mem_filterMap.mp hq
    obtain ⟨-, -, hp⟩ := cell?_eq_some_iff.mp hp
    obtain ⟨-, -, hq⟩ := cell?_eq_some_iff.mp hq
    left
    rw [hp, hq]
    exact hvw

end ScanKind

/-! ## Raster positions -/

/-- Every number below a size, listed once, in some order. -/
structure Enumerates (size : Nat) (js : List Nat) : Prop where
  nodup : js.Nodup
  mem_iff : ∀ {j}, j ∈ js ↔ j < size

theorem Enumerates.perm {size : Nat} {js : List Nat} (h : Enumerates size js) :
    js.Perm (List.range size) := by
  rw [List.perm_ext_iff_of_nodup h.nodup List.nodup_range]
  intro j
  rw [h.mem_iff, List.mem_range]

theorem Enumerates.length {size : Nat} {js : List Nat} (h : Enumerates size js) :
    js.length = size := by
  rw [h.perm.length_eq, List.length_range]

namespace ScanKind

/-- Raster positions of the cells, without the limit of the tables. -/
def rasters (k : ScanKind) (n : Nat) : List Nat := (k.cells n).map fun p => p.1 * n + p.2

theorem raster_lt {n : Nat} {p : Nat × Nat} (hr : p.1 < n) (hc : p.2 < n) :
    p.1 * n + p.2 < n * n := by
  have hle : (p.1 + 1) * n ≤ n * n := Nat.mul_le_mul_right n hr
  rw [Nat.succ_mul] at hle
  omega

/-- Row and column are the quotient and the remainder of the raster position. -/
theorem cell_of_raster {n : Nat} {p : Nat × Nat} (hp : p.2 < n) :
    ((p.1 * n + p.2) / n, (p.1 * n + p.2) % n) = p := by
  have hn : 0 < n := by omega
  rw [Nat.mul_comm, Nat.mul_add_div hn, Nat.mul_add_mod, Nat.div_eq_of_lt hp, Nat.mod_eq_of_lt hp,
    Nat.add_zero]

theorem raster_inj {n : Nat} {p q : Nat × Nat} (hp : p.2 < n) (hq : q.2 < n)
    (h : p.1 * n + p.2 = q.1 * n + q.2) : p = q := by
  rw [← cell_of_raster hp, ← cell_of_raster hq, h]

theorem enumerates_rasters (k : ScanKind) (n : Nat) : Enumerates (n * n) (k.rasters n) := by
  simp only [rasters]
  constructor
  · rw [List.nodup_iff_pairwise_ne, List.pairwise_map]
    apply (pairwise_cells k n).imp_of_mem
    intro p q hp hq hpq heq
    exact hpq.ne (raster_inj (mem_cells.mp hp).2 (mem_cells.mp hq).2 heq)
  · intro j
    rw [List.mem_map]
    constructor
    · rintro ⟨p, hp, rfl⟩
      exact raster_lt (mem_cells.mp hp).1 (mem_cells.mp hp).2
    · intro hj
      have hn : 0 < n := by
        apply Nat.pos_of_ne_zero
        rintro rfl
        exact absurd hj (Nat.not_lt_zero j)
      refine ⟨(j / n, j % n), mem_cells.mpr ⟨Nat.div_lt_of_lt_mul hj, Nat.mod_lt j hn⟩, ?_⟩
      show j / n * n + j % n = j
      rw [Nat.mul_comm]
      exact Nat.div_add_mod j n

end ScanKind

/-! ## Writing at places -/

/-- An array with a list of values written at their places, in order. -/
def assign {α : Type} (a : Array α) (ws : List (Nat × α)) : Array α :=
  ws.foldl (fun a w => a.setIfInBounds w.1 w.2) a

section

variable {α : Type} (a : Array α) (ws : List (Nat × α))

theorem size_assign : (assign a ws).size = a.size := by
  induction ws generalizing a with
  | nil => rfl
  | cons w ws ih =>
    show (assign (a.setIfInBounds w.1 w.2) ws).size = a.size
    rw [ih, Array.size_setIfInBounds]

variable {ws}

/-- A place that is not written keeps its value. -/
theorem getElem?_assign_of_not_mem {j : Nat} (h : j ∉ ws.map Prod.fst) :
    (assign a ws)[j]? = a[j]? := by
  induction ws generalizing a with
  | nil => rfl
  | cons w ws ih =>
    rw [List.map_cons, List.mem_cons, not_or] at h
    show (assign (a.setIfInBounds w.1 w.2) ws)[j]? = a[j]?
    rw [ih _ h.2, Array.getElem?_setIfInBounds_ne (Ne.symm h.1)]

/-- Where no place is written twice, every place holds what was written there. -/
theorem getElem?_assign_of_mem (hn : (ws.map Prod.fst).Nodup) {j : Nat} {x : α}
    (h : (j, x) ∈ ws) (hj : j < a.size) : (assign a ws)[j]? = some x := by
  induction ws generalizing a with
  | nil => exact absurd h List.not_mem_nil
  | cons w ws ih =>
    rw [List.map_cons, List.nodup_cons] at hn
    show (assign (a.setIfInBounds w.1 w.2) ws)[j]? = some x
    rcases List.mem_cons.mp h with rfl | hmem
    · rw [getElem?_assign_of_not_mem _ hn.1, Array.getElem?_setIfInBounds_self_of_lt hj]
    · exact ih _ hn.2 hmem (by rwa [Array.size_setIfInBounds])

end

/-! ## Orders -/

namespace ScanOrder

theorem entry16_of_lt {p : Nat} (h : p < 65536) : entry16 p = p := Nat.mod_eq_of_lt h

variable {n : Nat}

/-- The tables hold every position of blocks of up to 65536. -/
theorem scan_generate (hn : n * n ≤ 65536) (k : ScanKind) :
    (generate n k).scan.toList = k.rasters n := by
  show (k.cells n).map _ = (k.cells n).map _
  apply List.map_congr_left
  intro p hp
  have hlt := ScanKind.raster_lt (ScanKind.mem_cells.mp hp).1 (ScanKind.mem_cells.mp hp).2
  exact entry16_of_lt (by omega)

/-- The neighbours of every scan index lie in the block. -/
theorem neighbors_lt (hn : n * n ≤ 65536) (k : ScanKind) {c : Nat} {ns : Nat × Nat}
    (h : (generate n k).neighbors[c]? = some ns) : ns.1 < n * n ∧ ns.2 < n * n := by
  have hmem : ns ∈ (generate n k).neighbors.toList :=
    Array.mem_toList_iff.mpr (Array.mem_of_getElem? h)
  simp only [generate] at hmem
  obtain ⟨⟨row, col⟩, hcell, rfl⟩ := List.mem_map.mp hmem
  obtain ⟨ha, hb⟩ := ScanKind.neighbors_mem_cells hcell
  have hraster : ∀ p ∈ k.cells n, entry16 (p.1 * n + p.2) < n * n := by
    intro p hp
    have hlt := ScanKind.raster_lt (ScanKind.mem_cells.mp hp).1 (ScanKind.mem_cells.mp hp).2
    rw [entry16_of_lt (by omega)]
    exact hlt
  exact ⟨hraster _ ha, hraster _ hb⟩

theorem invert_eq_assign (scan : Array Nat) :
    invert scan = assign (Array.replicate scan.size 0)
      (scan.toList.zipIdx.map fun pi => (pi.1, entry16 pi.2)) := by
  simp only [invert, assign]
  rw [List.foldl_map]

/-- The inverse table gives every position its place in the scan. -/
theorem iscan_of_scan (hn : n * n ≤ 65536) (k : ScanKind) {i j : Nat}
    (h : (k.rasters n)[i]? = some j) : (generate n k).iscan[j]? = some i := by
  have hrasters := ScanKind.enumerates_rasters k n
  have hi : i < n * n := by
    rw [← hrasters.length]
    exact (List.getElem?_eq_some_iff.mp h).1
  have hj : j < n * n := hrasters.mem_iff.mp (List.mem_of_getElem? h)
  have hplaces : ((k.rasters n).zipIdx.map fun pi => (pi.1, entry16 pi.2)).map Prod.fst =
      k.rasters n := by
    rw [List.map_map]
    exact List.zipIdx_map_fst 0 _
  have hmem : (j, i) ∈ (k.rasters n).zipIdx.map fun pi => (pi.1, entry16 pi.2) := by
    rw [List.mem_map]
    refine ⟨(j, i), List.mem_zipIdx_iff_getElem?.mpr h, ?_⟩
    rw [entry16_of_lt (by omega)]
  show (invert (generate n k).scan)[j]? = some i
  rw [invert_eq_assign, scan_generate hn k]
  apply getElem?_assign_of_mem
  · rw [hplaces]
    exact hrasters.nodup
  · exact hmem
  · rw [Array.size_replicate, ← Array.length_toList, scan_generate hn k, hrasters.length]
    exact hj

end ScanOrder

end ResidualCodec
