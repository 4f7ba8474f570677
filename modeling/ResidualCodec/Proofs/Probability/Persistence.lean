/-
  ResidualCodec.Proofs.Probability.Persistence

  A probability table survives being saved and loaded in any format that writes
  and reads documents faithfully. The lists of the document are nested by what a
  slot consists of, so that the position of a probability in the lists is the
  slot's index in mixed radix.
-/

import ResidualCodec.Probability.Text
import ResidualCodec.Proofs.Counts.Merge
import ResidualCodec.Proofs.Json.RoundTrip

namespace ResidualCodec

/-! ## Lists in documents -/

namespace Json

theorem byte?_ofNat (b : UInt8) : (ofNat b.toNat).byte? = some b := by
  have hle : b.toNat ≤ 255 := Nat.le_of_lt_succ b.toNat_lt
  rw [byte?, natUpTo?, nat?_ofNat, Option.filter_some, decide_eq_true hle, if_pos rfl,
    Option.map_some, UInt8.ofNat_toNat]

/-- Entries that are read one by one are read as a list of exactly their number. -/
theorem vector?_map {α β : Type} {n : Nat} {l : List β} (hlen : l.length = n) {g : β → Json}
    {f : Json → Option α} {h : β → α} (hf : ∀ b, f (g b) = some (h b)) :
    (Json.array (l.map g)).vector? n f =
      some ⟨(l.map h).toArray, by rw [List.size_toArray, List.length_map, hlen]⟩ := by
  have hread : (l.map g).mapM f = some (l.map h) := by
    rw [List.mapM_map, show f ∘ g = fun b => pure (h b) from funext hf, List.mapM_pure]
    rfl
  simp only [vector?, items?, Option.bind_eq_bind, Option.bind_some, hread]
  rw [dif_pos]

/-- A list of legible entries is legible. -/
theorem legible_map {β : Type} {l : List β} {g : β → Json} (hg : ∀ b, (g b).Legible) :
    (Json.array (l.map g)).Legible := by
  refine .array fun x hx => ?_
  obtain ⟨b, -, rfl⟩ := List.mem_map.mp hx
  exact hg b

end Json

/-- An entry of nested vectors stands at its mixed-radix index in the flat one. -/
theorem getElem_flatten_mul {α : Type} {m n : Nat} (v : Vector (Vector α m) n) {i j : Nat}
    (hi : i < n) (hj : j < m) (h : i * m + j < n * m) : v.flatten[i * m + j] = v[i][j] := by
  have hdiv : (i * m + j) / m = i := by
    rw [Nat.mul_comm, Nat.mul_add_div (Nat.zero_lt_of_lt hj), Nat.div_eq_of_lt hj, Nat.add_zero]
  have hmod : (i * m + j) % m = j := by
    rw [Nat.mul_comm, Nat.mul_add_mod, Nat.mod_eq_of_lt hj]
  rw [Vector.getElem_flatten h]
  simp only [hdiv, hmod]

namespace ProbTable

/-! ## The document of a table -/

theorem legible_toJson (t : ProbTable) : t.toJson.Legible := by
  refine .object (fun m hm => ?_) fun m hm => ?_
  · rw [List.mem_singleton.mp hm]
    rfl
  · rw [List.mem_singleton.mp hm]
    exact Json.legible_map fun s => Json.legible_map fun p => Json.legible_map fun r =>
      Json.legible_map fun b => Json.legible_map fun c => Json.legible_map fun n => .nat n

theorem nodeOfJson?_nodeJson (p : NodeProbs) : nodeOfJson? (nodeJson p) = some p := by
  have hitems : nodeJson p =
      .array [.ofNat p.endOfBlock.toNat, .ofNat p.zero.toNat, .ofNat p.one.toNat] := rfl
  simp only [nodeOfJson?, hitems, Json.triple?, Json.byte?_ofNat, Option.bind_eq_bind,
    Option.bind_some, Option.pure_def]

theorem getElem_all (s : TransformSize) (h : s.index < TransformSize.all.length) :
    TransformSize.all[s.index] = s := by
  cases s <;> rfl

/-- A table is read back from its document: the lists hold its slots in the order of the cells. -/
theorem ofJson?_toJson (t : ProbTable) : ofJson? t.toJson = some t := by
  have hread := Json.vector?_map (n := 4) (l := TransformSize.all) rfl fun s =>
    Json.vector?_map (n := 2) (l := [PlaneType.luma, .chroma]) rfl fun p =>
      Json.vector?_map (n := 2) (l := [RefType.intra, .inter]) rfl fun r =>
        Json.vector?_map (n := 6) (l := List.finRange 6) rfl fun b =>
          Json.vector?_map (n := 3) (l := List.finRange 3) rfl fun c =>
            nodeOfJson?_nodeJson (t.get ⟨⟨s, p, r⟩, b, c⟩)
  have hrecord := show t.toJson.record? ["coef"] = some [some _] from rfl
  simp only [ofJson?, hrecord, Option.bind_eq_bind, Option.bind_some, hread, Option.pure_def]
  refine congrArg some (SlotTable.eq_of_get_eq fun slot => ?_)
  obtain ⟨⟨s, p, r⟩, b, c⟩ := slot
  have hs := s.index_lt
  have hp := p.index_lt
  have hr := r.index_lt
  rw [SlotTable.get_eq_getElem _ _ (Slot.index_lt _)]
  simp only [Slot.index, BlockKind.index]
  rw [getElem_flatten_mul _ (by omega) c.isLt, getElem_flatten_mul _ (by omega) b.isLt,
    getElem_flatten_mul _ (by omega) hr, getElem_flatten_mul _ hs hp]
  simp only [Vector.getElem_mk, List.getElem_toArray, List.getElem_map, List.getElem_finRange,
    getElem_all]
  cases p <;> cases r <;> rfl

/-! ## Zeros -/

/-- No slot has a probability of zero. -/
def Nonzero (t : ProbTable) : Prop := ∀ s : Slot, ∀ p ∈ (t.get s).toList, p ≠ 0

/-- The check looks at every slot. -/
theorem valid_iff_nonzero (t : ProbTable) : t.Valid ↔ t.Nonzero := by
  simp only [Valid, toBytes, List.mem_flatMap]
  constructor
  · intro h s p hp
    have hcell : t.get s ∈ t.toList := by
      rw [SlotTable.get_eq_getElem t s s.index_lt, SlotTable.toList, Vector.mem_toList_iff]
      exact Vector.getElem_mem s.index_lt
    exact h p ⟨t.get s, hcell, hp⟩
  · rintro h p ⟨cell, hcell, hp⟩
    rw [SlotTable.toList, Vector.mem_toList_iff] at hcell
    obtain ⟨i, hi, rfl⟩ := Vector.getElem_of_mem hcell
    obtain ⟨s, rfl⟩ := SlotTable.exists_slot hi
    exact h s p hp

theorem validate_of_nonzero {t : ProbTable} (h : t.Nonzero) : t.validate = .ok () :=
  if_pos (t.valid_iff_nonzero.mpr h)

theorem validate_of_not_nonzero {t : ProbTable} (h : ¬ t.Nonzero) :
    t.validate = .error (.invalidInput "coefficient probabilities must be 1..=255") :=
  if_neg (mt t.valid_iff_nonzero.mp h)

/-! ## The defaults -/

theorem clampProb_ne_zero (x : Int) : clampProb x ≠ 0 := by
  intro h
  have hlt : (max 16 (min 240 x)).toNat < UInt8.size := by
    rw [UInt8.size]
    omega
  have hnat := congrArg UInt8.toNat h
  rw [clampProb, UInt8.toNat_ofNat_of_lt' hlt, UInt8.toNat_zero] at hnat
  omega

/-- The default table holds no zero: each of its probabilities is moved away from it. -/
theorem nonzero_standard : standard.Nonzero := by
  intro s p hp
  rw [standard, SlotTable.get_ofFn] at hp
  simp only [standardProbs, NodeProbs.toList, List.mem_cons, List.not_mem_nil, or_false] at hp
  obtain rfl | rfl | rfl := hp <;> exact clampProb_ne_zero _

end ProbTable

/-! ## Saving and loading -/

namespace TableFormat

/-- What is asked of a format, given the documents that texts stand for: tables are printed as their
documents, and texts are parsed as their documents are read, list by list and number by number. -/
structure Faithful (f : TableFormat) (document? : String → Option Json) : Prop where
  prints : ∀ t : ProbTable, ∃ s, f.print t = .ok s ∧ document? s = some t.toJson
  parses : ∀ s t, (document? s).bind ProbTable.ofJson? = some t → f.parse s = .ok t
  -- Other texts, other lists, lists of another length and numbers out of range.
  refuses : ∀ s, (document? s).bind ProbTable.ofJson? = none → ∃ reason, f.parse s = .error reason

/-- Tables survive in a format: a saved table is loaded as it was if it holds no zero, and refused
otherwise. Whatever text is loaded, the table is that of its document, it holds no zero, and its own
saved text loads to the same table. -/
structure Persists (f : TableFormat) (document? : String → Option Json) : Prop where
  kept : ∀ t : ProbTable, t.Nonzero → ∃ s, f.save t = .ok s ∧ f.load s = .ok t
  refused : ∀ t : ProbTable, ¬ t.Nonzero → ∃ s, f.save t = .ok s ∧
    f.load s = .error (.invalidInput "coefficient probabilities must be 1..=255")
  loaded : ∀ s t, f.load s = .ok t →
    (document? s).bind ProbTable.ofJson? = some t ∧ t.Nonzero ∧
      ∃ saved, f.save t = .ok saved ∧ f.load saved = .ok t

variable {f : TableFormat} {document? : String → Option Json} {s : String} {t : ProbTable}

theorem load_of_parse (h : f.parse s = .ok t) : f.load s = t.validate.map fun _ => t := by
  simp only [load, h]
  show (t.validate.bind fun _ => .ok t) = _
  cases t.validate <;> rfl

/-- What is loaded was parsed, and then passed the check. -/
theorem parse_of_load (h : f.load s = .ok t) : f.parse s = .ok t ∧ t.Nonzero := by
  cases hparse : f.parse s with
  | error reason =>
    simp only [load, hparse] at h
    cases h
  | ok u =>
    rw [load_of_parse hparse] at h
    by_cases hzero : u.Nonzero
    · rw [ProbTable.validate_of_nonzero hzero] at h
      cases h
      exact ⟨rfl, hzero⟩
    · rw [ProbTable.validate_of_not_nonzero hzero] at h
      cases h

theorem Faithful.persists (h : f.Faithful document?) : f.Persists document? := by
  -- The document that a table is printed as is read as that table, so its text is parsed so.
  have hsaved : ∀ t, ∃ s, f.save t = .ok s ∧ f.load s = t.validate.map fun _ => t := by
    intro t
    obtain ⟨s, hprint, hdocument⟩ := h.prints t
    have hread : (document? s).bind ProbTable.ofJson? = some t := by
      rw [hdocument, Option.bind_some, ProbTable.ofJson?_toJson]
    refine ⟨s, ?_, load_of_parse (h.parses s t hread)⟩
    rw [save, hprint]
    rfl
  have hkept : ∀ t : ProbTable, t.Nonzero → ∃ s, f.save t = .ok s ∧ f.load s = .ok t := by
    intro t hzero
    obtain ⟨s, hsave, hload⟩ := hsaved t
    rw [ProbTable.validate_of_nonzero hzero] at hload
    exact ⟨s, hsave, hload⟩
  refine ⟨hkept, ?_, ?_⟩
  · intro t hzero
    obtain ⟨s, hsave, hload⟩ := hsaved t
    rw [ProbTable.validate_of_not_nonzero hzero] at hload
    exact ⟨s, hsave, hload⟩
  · intro s t hload
    obtain ⟨hparse, hzero⟩ := parse_of_load hload
    refine ⟨?_, hzero, hkept t hzero⟩
    cases hread : (document? s).bind ProbTable.ofJson? with
    | none =>
      obtain ⟨reason, hrefused⟩ := h.refuses s hread
      cases hparse.symm.trans hrefused
    | some u =>
      cases hparse.symm.trans (h.parses s u hread)
      rfl

/-- Documents are read back from what is printed of them, and nothing else is parsed. -/
theorem faithful_json : json.Faithful Json.parse? where
  prints t := ⟨t.save, rfl, Json.parse?_pretty t.legible_toJson 0⟩
  parses s t h := by
    simp only [json]
    rw [h]
  refuses s h := by
    simp only [json]
    rw [h]
    exact ⟨none, rfl⟩

end TableFormat

namespace ProbTable

/-- Tables survive in every faithful format, and so they do in that of documents: a saved table is
loaded as it was if it holds no zero, and refused otherwise. Whatever text is loaded, the table
holds no zero and its own saved text loads to the same table. -/
theorem load_save :
    (∀ (f : TableFormat) (document? : String → Option Json), f.Faithful document? →
        f.Persists document?) ∧
      (∀ t : ProbTable, t.Nonzero → load t.save = .ok t) ∧
      (∀ t : ProbTable, ¬ t.Nonzero →
        load t.save = .error (.invalidInput "coefficient probabilities must be 1..=255")) ∧
      ∀ (s : String) (t : ProbTable), load s = .ok t → t.Nonzero ∧ load t.save = .ok t := by
  have hjson := TableFormat.faithful_json.persists
  have hkept : ∀ t : ProbTable, t.Nonzero → load t.save = .ok t := by
    intro t hzero
    obtain ⟨s, hsave, hload⟩ := hjson.kept t hzero
    cases hsave
    exact hload
  refine ⟨fun _ _ h => h.persists, hkept, ?_, ?_⟩
  · intro t hzero
    obtain ⟨s, hsave, hload⟩ := hjson.refused t hzero
    cases hsave
    exact hload
  · intro s t hload
    have hzero := (hjson.loaded s t hload).2.1
    exact ⟨hzero, hkept t hzero⟩

/-- The last slot of all, in the innermost lists. -/
def lastSlot : Slot := ⟨⟨.s32, .chroma, .inter⟩, Band.last, Energy.more⟩

/-- Documents are a faithful format. The default table survives in it, and a single zero in its last
slot is refused. -/
theorem load_save_standard :
    let spoilt := standard.set lastSlot ⟨1, 255, 0⟩
    (TableFormat.json.Faithful Json.parse? ∧ TableFormat.json.Persists Json.parse?) ∧
      (standard.Nonzero ∧ load standard.save = .ok standard) ∧
      (¬ Nonzero spoilt ∧
        load (save spoilt) =
          .error (.invalidInput "coefficient probabilities must be 1..=255")) ∧
      (load standard.save = .ok standard ∧ standard.Nonzero ∧
        load standard.save = .ok standard) := by
  intro spoilt
  have hspoilt : ¬ Nonzero spoilt := by
    intro h
    refine h lastSlot 0 ?_ rfl
    rw [SlotTable.get_set, if_pos rfl]
    decide
  obtain ⟨hpersists, hkept, hrefused, hloaded⟩ := load_save
  have hload := hkept standard nonzero_standard
  exact ⟨⟨TableFormat.faithful_json, hpersists _ _ TableFormat.faithful_json⟩,
    ⟨nonzero_standard, hload⟩, ⟨hspoilt, hrefused spoilt hspoilt⟩, hload,
    hloaded standard.save standard hload⟩

end ProbTable

end ResidualCodec
