/-
  ResidualCodec.Proofs.Scan.Walk

  The walk through a block stops once at every raster position, in the order of
  the scan indexes. Gathering along a walk and scattering back are therefore
  inverse to each other, position by position.
-/

import ResidualCodec.Proofs.Scan.Order

namespace ResidualCodec

/-! ## Positions of an order -/

section

variable {o : ScanOrder} {bands : List Band}

/-- The stops are the entries of the scan, where there is a band and a pair of neighbours for
each. -/
theorem map_raster_positions (hn : o.neighbors.size = o.scan.size)
    (hb : bands.length = o.scan.size) :
    (o.positions bands).map Position.raster = o.scan.toList := by
  have hneighbors : o.scan.toList.length ≤ o.neighbors.toList.length := by
    rw [Array.length_toList, Array.length_toList, hn]
  have hbands : (o.scan.toList.zip o.neighbors.toList).length ≤ bands.length := by
    rw [List.length_zip, Array.length_toList, hb]
    exact Nat.min_le_left _ _
  calc (o.positions bands).map Position.raster
      = ((((o.scan.toList.zip o.neighbors.toList).zip bands).zipIdx.map Prod.fst).map
          Prod.fst).map Prod.fst := by
        simp only [ScanOrder.positions]
        rw [List.map_map, List.map_map, List.map_map]
        rfl
    _ = o.scan.toList := by
        rw [List.zipIdx_map_fst, List.map_fst_zip hbands, List.map_fst_zip hneighbors]

/-- A stop holds the entries of all tables at its index. -/
theorem getElem?_positions {c : Nat} {q : Position} (h : (o.positions bands)[c]? = some q) :
    q.index = c ∧ o.scan[c]? = some q.raster ∧ bands[c]? = some q.band ∧
      o.neighbors[c]? = some q.neighbors := by
  simp only [ScanOrder.positions] at h
  rw [List.getElem?_map, List.getElem?_zipIdx, Option.map_map, Option.map_eq_some_iff] at h
  obtain ⟨⟨⟨raster, neighbors⟩, band⟩, hzip, rfl⟩ := h
  obtain ⟨hzip, hband⟩ := List.getElem?_zip_eq_some.mp hzip
  obtain ⟨hraster, hneighbors⟩ := List.getElem?_zip_eq_some.mp hzip
  rw [Array.getElem?_toList] at hraster hneighbors
  exact ⟨Nat.zero_add c, hraster, hband, hneighbors⟩

end

/-! ## The walk of a transform -/

/-- The scan order of a transform. -/
def scanOrder (s : TransformSize) (t : TransformType) : ScanOrder :=
  .generate s.points (.ofTransform s t)

/-- Scan index of a raster position. -/
def scanIndex (s : TransformSize) (t : TransformType) (j : Nat) : Nat :=
  (scanOrder s t).iscan.getD j 0

section

variable (s : TransformSize) (t : TransformType)

theorem TransformSize.coeffs_le_1024 : s.coeffs ≤ 1024 := by
  cases s <;> decide

theorem coeffs_le : s.coeffs ≤ 65536 := Nat.le_trans s.coeffs_le_1024 (by decide)

theorem length_bands : s.bands.length = s.coeffs := by
  cases s
  case s4 => rfl
  all_goals exact (List.length_map _).trans List.length_range

theorem scan_scanOrder :
    (scanOrder s t).scan.toList = (ScanKind.ofTransform s t).rasters s.points :=
  ScanOrder.scan_generate (coeffs_le s) (.ofTransform s t)

theorem map_raster_walk :
    (walk s t).map Position.raster = (ScanKind.ofTransform s t).rasters s.points := by
  have hsize : (scanOrder s t).scan.size = s.coeffs := by
    rw [← Array.length_toList, scan_scanOrder, (ScanKind.enumerates_rasters _ _).length]
    rfl
  have hneighbors : (scanOrder s t).neighbors.size = (scanOrder s t).scan.size := by
    show (((ScanKind.ofTransform s t).cells s.points).map _).toArray.size =
      (((ScanKind.ofTransform s t).cells s.points).map _).toArray.size
    rw [List.size_toArray, List.size_toArray, List.length_map, List.length_map]
  rw [walk_eq, ← scan_scanOrder]
  exact map_raster_positions hneighbors ((length_bands s).trans hsize.symm)

/-- The walk stops once at every raster position. -/
theorem enumerates_walk : Enumerates s.coeffs ((walk s t).map Position.raster) := by
  rw [map_raster_walk]
  exact ScanKind.enumerates_rasters _ _

theorem length_walk : (walk s t).length = s.coeffs := by
  rw [← List.length_map Position.raster, (enumerates_walk s t).length]

variable {s t}

theorem getElem?_walk {c : Nat} {q : Position} (h : (walk s t)[c]? = some q) :
    q.index = c ∧ (scanOrder s t).scan[c]? = some q.raster ∧ s.bands[c]? = some q.band ∧
      (scanOrder s t).neighbors[c]? = some q.neighbors := by
  rw [walk_eq] at h
  exact getElem?_positions h

theorem raster_lt_of_mem_walk {q : Position} (h : q ∈ walk s t) : q.raster < s.coeffs :=
  (enumerates_walk s t).mem_iff.mp (List.mem_map_of_mem h)

/-- The neighbours of a stop lie in the block. -/
theorem neighbors_lt_of_mem_walk {q : Position} (h : q ∈ walk s t) :
    q.neighbors.1 < s.coeffs ∧ q.neighbors.2 < s.coeffs := by
  obtain ⟨c, hc⟩ := List.getElem?_of_mem h
  obtain ⟨-, -, -, hneighbors⟩ := getElem?_walk hc
  exact ScanOrder.neighbors_lt (coeffs_le s) _ hneighbors

/-- The walk stops at a raster position after as many stops as its scan index tells. -/
theorem walk_scanIndex {j : Nat} (hj : j < s.coeffs) :
    ∃ q, (walk s t)[scanIndex s t j]? = some q ∧ q.raster = j := by
  have hmem : j ∈ (ScanKind.ofTransform s t).rasters s.points :=
    (ScanKind.enumerates_rasters _ _).mem_iff.mpr hj
  obtain ⟨i, hi⟩ := List.getElem?_of_mem hmem
  have hindex : scanIndex s t j = i := by
    simp only [scanIndex, scanOrder]
    rw [Array.getD_eq_getD_getElem?, ScanOrder.iscan_of_scan (coeffs_le s) _ hi]
    rfl
  rw [hindex]
  rw [← map_raster_walk, List.getElem?_map, Option.map_eq_some_iff] at hi
  exact hi

/-- After as many stops as a scan index tells, the walk stops at the raster position that the scan
has there. -/
theorem walk_scan {i : Nat} (hi : i < s.coeffs) :
    ∃ q, (walk s t)[i]? = some q ∧ q.raster = (scanOrder s t).scan.getD i 0 ∧
      q.raster < s.coeffs := by
  obtain ⟨q, hq⟩ : ∃ q, (walk s t)[i]? = some q :=
    ⟨_, List.getElem?_eq_getElem (by rwa [length_walk])⟩
  have hscan : (scanOrder s t).scan.toList[i]? = some q.raster := by
    rw [scan_scanOrder, ← map_raster_walk, List.getElem?_map, hq]
    rfl
  refine ⟨q, hq, ?_, raster_lt_of_mem_walk (List.mem_of_getElem? hq)⟩
  rw [Array.getD_eq_getD_getElem?, ← Array.getElem?_toList, hscan]
  rfl

theorem scanIndex_lt {j : Nat} (hj : j < s.coeffs) : scanIndex s t j < s.coeffs := by
  obtain ⟨q, hq, -⟩ := walk_scanIndex (t := t) hj
  rw [← length_walk s t]
  exact (List.getElem?_eq_some_iff.mp hq).1

/-- The scan has each raster position at its scan index. -/
theorem scan_scanIndex {j : Nat} (hj : j < s.coeffs) :
    (scanOrder s t).scan.getD (scanIndex s t j) 0 = j := by
  obtain ⟨q, hq, hraster⟩ := walk_scanIndex (t := t) hj
  rw [Array.getD_eq_getD_getElem?, (getElem?_walk hq).2.1, ← hraster]
  rfl

end

/-! ## Gathering and scattering -/

theorem scatter_eq_assign (n : Nat) (ps : List Position) (xs : List Int) :
    scatter n ps xs =
      assign (Array.replicate n 0) ((ps.zip xs).map fun px => (px.1.raster, px.2)) := by
  simp only [scatter, assign]
  rw [List.foldl_map]

theorem size_scatter (n : Nat) (ps : List Position) (xs : List Int) :
    (scatter n ps xs).size = n := by
  rw [scatter_eq_assign, size_assign, Array.size_replicate]

/-- What is scattered lands, entry by entry, on the stops in their order; the stops that are left
over hold zero. -/
theorem getElem?_scatter {n : Nat} {ps : List Position} (hn : (ps.map Position.raster).Nodup)
    (xs : List Int) {i : Nat} {q : Position} (hq : ps[i]? = some q) (hlt : q.raster < n) :
    (scatter n ps xs)[q.raster]? = some (xs.getD i 0) := by
  have hwrites : ((ps.zip xs).map fun px => (px.1.raster, px.2)).map Prod.fst =
      (ps.map Position.raster).take (min ps.length xs.length) := by
    have hlen : (ps.take (min ps.length xs.length)).length ≤
        (xs.take (min ps.length xs.length)).length := by
      rw [List.length_take, List.length_take]
      omega
    calc ((ps.zip xs).map fun px => (px.1.raster, px.2)).map Prod.fst
        = ((ps.zip xs).map Prod.fst).map Position.raster := by rw [List.map_map, List.map_map]; rfl
      _ = (ps.map Position.raster).take (min ps.length xs.length) := by
        rw [List.zip_eq_zip_take_min, List.map_fst_zip hlen, List.map_take]
  rw [scatter_eq_assign, List.getD_eq_getElem?_getD]
  cases hx : xs[i]? with
  | some x =>
    apply getElem?_assign_of_mem
    · rw [hwrites]
      exact hn.sublist (List.take_sublist _ _)
    · have hzip : (ps.zip xs)[i]? = some (q, x) := by
        rw [List.getElem?_zip_eq_some]
        exact ⟨hq, hx⟩
      exact List.mem_map.mpr ⟨(q, x), List.mem_of_getElem? hzip, rfl⟩
    · rwa [Array.size_replicate]
  | none =>
    rw [getElem?_assign_of_not_mem, Array.getElem?_replicate, if_pos hlt]
    · rfl
    · -- The stop lies past the last entry, and no earlier stop is at its place.
      rw [hwrites, List.mem_take_iff_getElem]
      rintro ⟨k, hk, heq⟩
      have hlen := List.getElem?_eq_none_iff.mp hx
      have hqi : (ps.map Position.raster)[i]? = some q.raster := by
        rw [List.getElem?_map, hq]
        rfl
      have hkq := (List.getElem?_eq_some_iff.mpr ⟨by omega, heq⟩).trans hqi.symm
      have hki := (List.getElem?_inj (by omega) hn).mp hkq
      omega

section

variable {s : TransformSize} {t : TransformType}

theorem getElem?_scatter_walk (xs : List Int) {j : Nat} (hj : j < s.coeffs) :
    (scatter s.coeffs (walk s t) xs)[j]? = some (xs.getD (scanIndex s t j) 0) := by
  obtain ⟨q, hq, rfl⟩ := walk_scanIndex (t := t) hj
  exact getElem?_scatter (enumerates_walk s t).nodup xs hq hj

/-- What is scattered lands on the raster positions in the order of the scan. -/
theorem getD_scatter_scan (xs : List Int) {i : Nat} (hi : i < s.coeffs) :
    (scatter s.coeffs (walk s t) xs).getD ((scanOrder s t).scan.getD i 0) 0 = xs.getD i 0 := by
  obtain ⟨q, hq, hraster, hlt⟩ := walk_scan (t := t) hi
  rw [← hraster, Array.getD_eq_getD_getElem?,
    getElem?_scatter (enumerates_walk s t).nodup xs hq hlt, Option.getD_some]

/-- Nothing but zeros and what is scattered is in the block. -/
theorem eq_zero_or_mem_of_mem_scatter {xs : List Int} {x : Int}
    (h : x ∈ scatter s.coeffs (walk s t) xs) : x = 0 ∨ x ∈ xs := by
  obtain ⟨j, hj, rfl⟩ := Array.getElem_of_mem h
  have hlevel := getElem?_scatter_walk (t := t) xs (show j < s.coeffs by rwa [size_scatter] at hj)
  rw [Array.getElem?_eq_getElem hj, List.getD_eq_getElem?_getD] at hlevel
  rw [Option.some.inj hlevel]
  cases hget : xs[scanIndex s t j]? with
  | none => exact .inl rfl
  | some y => exact .inr (List.mem_of_getElem? hget)

theorem getElem?_gather_scan (block : Array Int) {i : Nat} (hi : i < s.coeffs) :
    (gather (walk s t) block)[i]? = some (block.getD ((scanOrder s t).scan.getD i 0) 0) := by
  obtain ⟨q, hq, hraster, -⟩ := walk_scan (t := t) hi
  simp only [gather]
  rw [List.getElem?_map, hq, ← hraster]
  rfl

theorem length_gather_walk (block : Array Int) :
    (gather (walk s t) block).length = s.coeffs := by
  simp only [gather]
  rw [List.length_map, length_walk]

end

end ResidualCodec
