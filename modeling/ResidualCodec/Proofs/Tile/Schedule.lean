/-
  ResidualCodec.Proofs.Tile.Schedule

  Workers share the tiles of a frame among them and carry their contexts from
  tile to tile. None of it can be seen: whoever handles a tile, and after whatever
  other tiles, makes of it what it is alone, and the counts of the frame are those
  of one coder that handles all tiles.
-/

import Mathlib.Data.List.Nodup
import Mathlib.Data.List.Perm.Basic
import ResidualCodec.Proofs.Scan.Order
import ResidualCodec.Proofs.Tile.Counting
import ResidualCodec.Proofs.Tile.Truncation

namespace ResidualCodec

/-! ## Contexts of a worker -/

/-- Contexts that fit are cleared, and then are those that would have been created. -/
theorem PlaneContexts.map_reset_of_fits {cs : PlaneContexts} {p : TilePlan}
    (h : cs.fits p = true) : cs.map EntropyContext.reset = create p := by
  apply Vector.ext
  intro i hi
  have hfit := Vector.all_eq_true.mp h i hi
  rw [Vector.getElem_zip, Bool.and_eq_true] at hfit
  obtain ⟨hcols, hrows⟩ := hfit
  simp only [create]
  rw [Vector.getElem_map, Vector.getElem_map]
  simp only [EntropyContext.reset]
  rw [eq_of_beq hcols, eq_of_beq hrows]

/-- A worker starts every tile with clear contexts, whatever it carries. -/
theorem WorkerContexts.start_eq_create (w : WorkerContexts) (p : TilePlan) :
    w.start p = .create p := by
  cases w with
  | none => rfl
  | some cs =>
    simp only [start]
    split
    case isTrue hfits => exact PlaneContexts.map_reset_of_fits hfits
    case isFalse => rfl

/-- A tile is decoded alike after all others. -/
theorem decodeTileWith_eq (w : WorkerContexts) (p : TilePlan) (data : List UInt8)
    (probs : ProbTable) (q : Dequantizer) (parallel : Bool) :
    decodeTileWith w p data probs q parallel = decodeTileWith none p data probs q parallel := by
  simp only [decodeTileWith]
  rw [WorkerContexts.start_eq_create, WorkerContexts.start_eq_create]

/-- A tile is encoded alike after all others. -/
theorem encodeTileWith_eq (w : WorkerContexts) (p : TilePlan) (residuals : List (Array Int))
    (probs : ProbTable) (q : Dequantizer) (parallel : Bool) :
    encodeTileWith w p residuals probs q parallel =
      encodeTileWith none p residuals probs q parallel := by
  simp only [encodeTileWith]
  rw [WorkerContexts.start_eq_create, WorkerContexts.start_eq_create]

/-! ## Schedules -/

/-- The work on a number of tiles as it happens: which worker handles which tile, each tile once.
Workers are numbered, and each of them starts afresh. -/
structure Schedule (n : Nat) where
  events : List (Nat × Fin n)
  once : (events.map Prod.snd).Perm (List.finRange n)

section

variable {α β : Type}

/-- What the workers carry, and the results of the tiles that are done. -/
structure Workshop (β : Type) where
  contexts : Nat → WorkerContexts
  results : Array (Option β)

/-- A worker handles a tile, with the contexts of the tile that it has handled before. -/
def Workshop.step (job : WorkerContexts → α → Except Fault (β × WorkerContexts)) (tiles : List α)
    (s : Workshop β) (e : Nat × Fin tiles.length) : Except Fault (Workshop β) := do
  let (b, w) ← job (s.contexts e.1) (tiles.get e.2)
  return ⟨fun v => if v = e.1 then w else s.contexts v, s.results.setIfInBounds e.2 (some b)⟩

/-- Results of all tiles, in the order of the tiles. -/
def Schedule.run (job : WorkerContexts → α → Except Fault (β × WorkerContexts)) (tiles : List α)
    (schedule : Schedule tiles.length) : Except Fault (List β) := do
  let s ← schedule.events.foldlM (Workshop.step job tiles)
    ⟨fun _ => none, Array.replicate tiles.length none⟩
  return s.results.toList.filterMap id

theorem exists_forall₂ {R : α → β → Prop} {as : List α} (h : ∀ a ∈ as, ∃ b, R a b) :
    ∃ bs, List.Forall₂ R as bs := by
  induction as with
  | nil => exact ⟨[], .nil⟩
  | cons a as ih =>
    obtain ⟨⟨b, hb⟩, hrest⟩ := List.forall_mem_cons.mp h
    obtain ⟨bs, hbs⟩ := ih hrest
    exact ⟨b :: bs, .cons hb hbs⟩

/-- Every tile has the result that it has alone. -/
def Apart (job : WorkerContexts → α → Except Fault (β × WorkerContexts)) : List α → List β → Prop :=
  List.Forall₂ fun a b => (job none a).map Prod.fst = .ok b

variable {job : WorkerContexts → α → Except Fault (β × WorkerContexts)} {tiles : List α}
  {bs : List β}

theorem exists_job_eq_ok {a : α} {b : β} (h : (job none a).map Prod.fst = .ok b) :
    ∃ w, job none a = .ok (b, w) := by
  cases hout : job none a with
  | error =>
    rw [hout] at h
    cases h
  | ok out =>
    rw [hout] at h
    cases h
    exact ⟨out.2, rfl⟩

section

variable (hjob : ∀ w a, job w a = job none a)

include hjob

/-- A step that a worker takes with a tile of a known result. -/
theorem Workshop.step_eq {e : Nat × Fin tiles.length} {b : β}
    (h : (job none (tiles.get e.2)).map Prod.fst = .ok b) (s : Workshop β) :
    ∃ contexts, s.step job tiles e = .ok ⟨contexts, s.results.setIfInBounds e.2 (some b)⟩ := by
  obtain ⟨w, hw⟩ := exists_job_eq_ok h
  refine ⟨fun v => if v = e.1 then w else s.contexts v, ?_⟩
  simp only [step]
  rw [hjob, hw]
  rfl

/-- Steps put the results of their tiles in place, whoever takes them. -/
theorem foldlM_step_eq (h : Apart job tiles bs) (es : List (Nat × Fin tiles.length))
    (s : Workshop β) :
    ∃ contexts, es.foldlM (Workshop.step job tiles) s =
      .ok ⟨contexts, assign s.results (es.map fun e => (e.2.val, bs[e.2.val]?))⟩ := by
  induction es generalizing s with
  | nil => exact ⟨s.contexts, rfl⟩
  | cons e es ih =>
    have hlt : e.2.val < bs.length := by rw [← h.length_eq]; exact e.2.isLt
    have hb : (job none (tiles.get e.2)).map Prod.fst = .ok bs[e.2.val] :=
      (List.forall₂_iff_get.mp h).2 e.2.val e.2.isLt hlt
    obtain ⟨contexts, hstep⟩ := Workshop.step_eq hjob hb s
    obtain ⟨contexts', hrest⟩ := ih ⟨contexts, s.results.setIfInBounds e.2 (some bs[e.2.val])⟩
    refine ⟨contexts', ?_⟩
    rw [List.foldlM_cons, hstep]
    dsimp only [bind, Except.bind]
    rw [hrest, List.map_cons, List.getElem?_eq_getElem hlt]
    rfl

/-- Of a run that comes to its end, every step had a result. -/
theorem exists_of_foldlM_step {es : List (Nat × Fin tiles.length)} {s s' : Workshop β}
    (h : es.foldlM (Workshop.step job tiles) s = .ok s') :
    ∀ e ∈ es, ∃ b, (job none (tiles.get e.2)).map Prod.fst = .ok b := by
  induction es generalizing s with
  | nil => exact List.forall_mem_nil _
  | cons e es ih =>
    rw [List.foldlM_cons] at h
    obtain ⟨m, hstep, hrest⟩ := exists_of_bind_eq_ok h
    obtain ⟨⟨b, w⟩, hb, -⟩ := exists_of_bind_eq_ok hstep
    rw [List.forall_mem_cons]
    refine ⟨⟨b, ?_⟩, ih hrest⟩
    rw [← hjob, hb]
    rfl

omit hjob

theorem Schedule.exists_event {n : Nat} (schedule : Schedule n) (i : Fin n) :
    ∃ e ∈ schedule.events, e.2 = i :=
  List.mem_map.mp (schedule.once.mem_iff.mpr (List.mem_finRange i))

/-- When all tiles are done, all results are in place. -/
theorem Schedule.assign_results (schedule : Schedule tiles.length)
    (hlength : bs.length = tiles.length) :
    (assign (Array.replicate tiles.length none)
      (schedule.events.map fun e => (e.2.val, bs[e.2.val]?))).toList = bs.map some := by
  have hplaces : (schedule.events.map fun e => (e.2.val, bs[e.2.val]?)).map Prod.fst =
      (schedule.events.map Prod.snd).map Fin.val := by
    rw [List.map_map, List.map_map]
    rfl
  have hnodup : ((schedule.events.map Prod.snd).map Fin.val).Nodup :=
    (schedule.once.nodup_iff.mpr (List.nodup_finRange _)).map fun _ _ h => Fin.ext h
  apply List.ext_getElem?
  intro i
  rw [Array.getElem?_toList, List.getElem?_map]
  rcases Nat.lt_or_ge i tiles.length with hi | hi
  · obtain ⟨e, he, heq⟩ := schedule.exists_event ⟨i, hi⟩
    rw [getElem?_assign_of_mem _ (by rwa [hplaces]) (x := bs[i]?)]
    · rw [List.getElem?_eq_getElem (by rwa [hlength])]
      rfl
    · refine List.mem_map.mpr ⟨e, he, ?_⟩
      rw [heq]
    · rwa [Array.size_replicate]
  · rw [Array.getElem?_eq_none (by rwa [size_assign, Array.size_replicate]),
      List.getElem?_eq_none (by rwa [hlength])]
    rfl

include hjob

/-- A run gives the results that the tiles have alone, if they have. -/
theorem Schedule.run_eq_ok_iff (schedule : Schedule tiles.length) :
    schedule.run job tiles = .ok bs ↔ Apart job tiles bs := by
  have hrun : ∀ cs, Apart job tiles cs → schedule.run job tiles = .ok cs := by
    intro cs h
    obtain ⟨contexts, hsteps⟩ := foldlM_step_eq hjob h schedule.events
      ⟨fun _ => none, Array.replicate tiles.length none⟩
    simp only [run]
    rw [hsteps]
    dsimp only [bind, Except.bind]
    rw [schedule.assign_results h.length_eq.symm, List.filterMap_map]
    exact congrArg Except.ok List.filterMap_some
  constructor
  · intro h
    obtain ⟨s, hs, -⟩ := exists_of_bind_eq_ok h
    have hall := exists_of_foldlM_step hjob hs
    obtain ⟨cs, hcs⟩ : ∃ cs, Apart job tiles cs := by
      apply exists_forall₂
      intro a ha
      obtain ⟨i, hi, rfl⟩ := List.getElem_of_mem ha
      obtain ⟨e, he, heq⟩ := schedule.exists_event ⟨i, hi⟩
      have hb := hall e he
      rw [heq] at hb
      exact hb
    cases h.symm.trans (hrun cs hcs)
    exact hcs
  · exact hrun bs

/-- One worker that handles all tiles in turn gives the same. -/
theorem runWorker_eq_ok_iff (w : WorkerContexts) :
    runWorker job w tiles = .ok bs ↔ Apart job tiles bs := by
  induction tiles generalizing w bs with
  | nil =>
    constructor
    · intro h
      cases h
      exact .nil
    · rintro ⟨⟩
      rfl
  | cons a rest ih =>
    constructor
    · intro h
      obtain ⟨⟨b, w'⟩, hb, h⟩ := exists_of_bind_eq_ok h
      obtain ⟨cs, hcs, h⟩ := exists_of_bind_eq_ok h
      cases h
      refine .cons ?_ ((ih w').mp hcs)
      rw [← hjob w, hb]
      rfl
    · rintro (_ | ⟨hb, hrest⟩)
      obtain ⟨w', hw'⟩ := exists_job_eq_ok hb
      simp only [runWorker]
      rw [hjob, hw']
      dsimp only [bind, Except.bind]
      rw [(ih w').mpr hrest]
      rfl

end

end

/-! ## Frames -/

namespace TileCoder

/-- A tile to decode, handled by a worker. -/
def decodeJob (t : TileCoder) (probs : ProbTable) (q : Dequantizer) (w : WorkerContexts)
    (s : TileStream) : Except Fault (DecodedTile × WorkerContexts) :=
  decodeTileWith w s.plan s.data probs q t.config.frameParallel

/-- A tile to encode, handled by a worker. -/
def encodeJob (t : TileCoder) (probs : ProbTable) (q : Dequantizer) (w : WorkerContexts)
    (s : TileSource) : Except Fault (EncodedTile × WorkerContexts) :=
  encodeTileWith w s.plan s.residuals probs q t.config.frameParallel

/-- Decode the tiles of a frame on workers, once all their plans are checked. -/
def decodeBy (t : TileCoder) (tiles : List TileStream) (schedule : Schedule tiles.length)
    (probs : ProbTable) (q : Dequantizer) : Except Failure DecodedFrame := do
  orError (tiles.forM fun s => s.plan.validate q)
  let decoded ← orFault (schedule.run (t.decodeJob probs q) tiles)
  return ⟨decoded, .sum (decoded.map (·.counts))⟩

/-- Encode the tiles of a frame on workers, once all of them are checked. -/
def encodeBy (t : TileCoder) (tiles : List TileSource) (schedule : Schedule tiles.length)
    (probs : ProbTable) (q : Dequantizer) : Except Failure EncodedFrame := do
  orError (tiles.forM (checkSource q))
  let encoded ← orFault (schedule.run (t.encodeJob probs q) tiles)
  return ⟨encoded, .sum (encoded.map (·.counts))⟩

end TileCoder

/-- Whether every counter of a table is the sum of those of other tables, in 32 bits. -/
def CountTable.IsSumOf (t : CountTable) (ts : List CountTable) : Prop :=
  ∀ s, ∀ f ∈ Tally.counters,
    (f (t.get s)).toNat = (ts.map fun u => (f (u.get s)).toNat).sum % 2 ^ 32

section

variable (probs : ProbTable) (q : Dequantizer) (parallel : Bool)

/-- A decoded frame whose tiles know nothing of each other. -/
structure DecodedApart (tiles : List TileStream) (frame : DecodedFrame) : Prop where
  alone : List.Forall₂
    (fun s tile => decodeTile s.plan s.data probs q parallel = .ok tile) tiles frame.tiles
  sums : frame.counts.IsSumOf (frame.tiles.map (·.counts))
  -- One decoder that decodes all tiles, in any order, counts the same.
  carried : ∀ order : List TileStream, order.Perm tiles →
    order.foldlM (CoefDecoder.decodeTile q) ⟨probs, parallel, .empty⟩ =
      .ok ⟨probs, parallel, frame.counts⟩

/-- An encoded frame whose tiles know nothing of each other. -/
structure EncodedApart (tiles : List TileSource) (frame : EncodedFrame) : Prop where
  alone : List.Forall₂
    (fun s tile => encodeTile s.plan s.residuals probs q parallel = .ok tile) tiles frame.tiles
  sums : frame.counts.IsSumOf (frame.tiles.map (·.counts))
  -- One encoder that encodes all tiles, in any order, counts the same.
  carried : ∀ order : List TileSource, order.Perm tiles →
    order.foldlM (CoefEncoder.encodeTile q) ⟨probs, parallel, .empty⟩ =
      .ok ⟨probs, parallel, frame.counts⟩

end

theorem CountTable.isSumOf_sum (ts : List CountTable) : (sum ts).IsSumOf ts := by
  intro s f hf
  exact toNat_counter_sum hf ts s

/-- A run over tiles in another order adds the same. -/
theorem foldlM_merge_of_perm {α β σ : Type} {step : σ → α → Except Fault σ}
    (state : CountTable → σ) {counts : β → CountTable} {alone : α → β → Prop}
    {as order : List α} {bs : List β} (h : List.Forall₂ alone as bs) (horder : order.Perm as)
    (hstep : ∀ a b t, alone a b → step (state t) a = .ok (state (t.merge (counts b)))) :
    order.foldlM step (state .empty) = .ok (state (.sum (bs.map counts))) := by
  obtain ⟨cs, hcs, hperm⟩ := List.perm_comp_forall₂ horder h
  rw [foldlM_merge hstep hcs, CountTable.empty_merge, CountTable.sum_perm (hperm.map counts)]

/-- A frame comes out when the check lets it pass and the run comes to its end. -/
theorem bind_orError_orFault_eq_ok_iff {β γ : Type} {check : Except Error Unit}
    {run : Except Fault (List β)} {frame : List β → γ} {c : γ} :
    (do orError check; let bs ← orFault run; return frame bs : Except Failure γ) = .ok c ↔
      check = .ok () ∧ ∃ bs, run = .ok bs ∧ frame bs = c := by
  constructor
  · intro h
    cases check with
    | error => cases h
    | ok =>
      cases run with
      | error => cases h
      | ok bs =>
        cases h
        exact ⟨rfl, bs, rfl, rfl⟩
  · rintro ⟨rfl, bs, rfl, rfl⟩
    rfl

theorem forM_eq_ok_iff {ε α : Type} {f : α → Except ε Unit} {as : List α} :
    as.forM f = .ok () ↔ ∀ a ∈ as, f a = .ok () := by
  induction as with
  | nil => exact iff_of_true rfl (List.forall_mem_nil _)
  | cons a as ih =>
    have hcons : (a :: as).forM f = (f a >>= fun _ => as.forM f) := rfl
    rw [hcons, List.forall_mem_cons, ← ih]
    cases f a with
    | error =>
      apply iff_of_false
      · intro h
        cases h
      · rintro ⟨h, -⟩
        cases h
    | ok => exact ⟨fun h => ⟨rfl, h⟩, And.right⟩

namespace TileCoder

variable {t : TileCoder} {probs : ProbTable} {q : Dequantizer}

theorem decodeJob_eq (w : WorkerContexts) (s : TileStream) :
    t.decodeJob probs q w s = t.decodeJob probs q none s :=
  decodeTileWith_eq ..

theorem encodeJob_eq (w : WorkerContexts) (s : TileSource) :
    t.encodeJob probs q w s = t.encodeJob probs q none s :=
  encodeTileWith_eq ..

section

variable {tiles : List TileStream} (schedule : Schedule tiles.length) {frame : DecodedFrame}

theorem decodeBy_eq_ok_iff :
    t.decodeBy tiles schedule probs q = .ok frame ↔
      (∀ s ∈ tiles, s.plan.validate q = .ok ()) ∧
        ∃ ts, Apart (t.decodeJob probs q) tiles ts ∧ ⟨ts, .sum (ts.map (·.counts))⟩ = frame := by
  refine bind_orError_orFault_eq_ok_iff.trans (and_congr forM_eq_ok_iff (exists_congr ?_))
  intro ts
  exact and_congr_left' (schedule.run_eq_ok_iff decodeJob_eq)

/-- Workers decode what one of them decodes. -/
theorem decode_eq_ok_iff :
    t.decode tiles probs q = .ok frame ↔ t.decodeBy tiles schedule probs q = .ok frame := by
  rw [decodeBy_eq_ok_iff]
  refine bind_orError_orFault_eq_ok_iff.trans (and_congr forM_eq_ok_iff (exists_congr ?_))
  intro ts
  exact and_congr_left' (runWorker_eq_ok_iff (decodeJob_eq (t := t)) none)

theorem decodedApart_of_decodeBy (h : t.decodeBy tiles schedule probs q = .ok frame) :
    DecodedApart probs q t.config.frameParallel tiles frame := by
  obtain ⟨-, ts, halone, rfl⟩ := (decodeBy_eq_ok_iff schedule).mp h
  change List.Forall₂ (fun s tile => decodeTile s.plan s.data probs q t.config.frameParallel =
    .ok tile) tiles ts at halone
  refine ⟨halone, CountTable.isSumOf_sum _, ?_⟩
  intro order horder
  exact foldlM_merge_of_perm (CoefDecoder.mk probs t.config.frameParallel) halone horder
    fun s tile t h => CoefDecoder.decodeTile_eq h t

/-- Under valid plans every tile is decoded. -/
theorem exists_decodeBy (hvalid : ∀ s ∈ tiles, s.plan.validate q = .ok ()) :
    ∃ frame, t.decodeBy tiles schedule probs q = .ok frame := by
  obtain ⟨ts, hts⟩ : ∃ ts, Apart (t.decodeJob probs q) tiles ts := by
    apply exists_forall₂
    intro s hs
    obtain ⟨out, hout⟩ := exists_decodeBlocks (fun b hb => sound_of_validate (hvalid s hs) hb)
      (.create s.plan) ⟨probs, t.config.frameParallel, .empty⟩ (BoolDecoder.start s.data)
    have htile := decodeTile_eq_map s.plan probs q t.config.frameParallel s.data
    rw [hout] at htile
    exact ⟨_, htile⟩
  exact ⟨_, (decodeBy_eq_ok_iff schedule).mpr ⟨hvalid, ts, hts, rfl⟩⟩

end

section

variable {tiles : List TileSource} (schedule : Schedule tiles.length) {frame : EncodedFrame}

theorem encodeBy_eq_ok_iff :
    t.encodeBy tiles schedule probs q = .ok frame ↔
      (∀ s ∈ tiles, checkSource q s = .ok ()) ∧
        ∃ ts, Apart (t.encodeJob probs q) tiles ts ∧ ⟨ts, .sum (ts.map (·.counts))⟩ = frame := by
  refine bind_orError_orFault_eq_ok_iff.trans (and_congr forM_eq_ok_iff (exists_congr ?_))
  intro ts
  exact and_congr_left' (schedule.run_eq_ok_iff encodeJob_eq)

/-- Workers encode what one of them encodes. -/
theorem encode_eq_ok_iff :
    t.encode tiles probs q = .ok frame ↔ t.encodeBy tiles schedule probs q = .ok frame := by
  rw [encodeBy_eq_ok_iff]
  refine bind_orError_orFault_eq_ok_iff.trans (and_congr forM_eq_ok_iff (exists_congr ?_))
  intro ts
  exact and_congr_left' (runWorker_eq_ok_iff (encodeJob_eq (t := t)) none)

theorem encodedApart_of_encodeBy (h : t.encodeBy tiles schedule probs q = .ok frame) :
    EncodedApart probs q t.config.frameParallel tiles frame := by
  obtain ⟨-, ts, halone, rfl⟩ := (encodeBy_eq_ok_iff schedule).mp h
  change List.Forall₂ (fun s tile => encodeTile s.plan s.residuals probs q t.config.frameParallel =
    .ok tile) tiles ts at halone
  refine ⟨halone, CountTable.isSumOf_sum _, ?_⟩
  intro order horder
  exact foldlM_merge_of_perm (CoefEncoder.mk probs t.config.frameParallel) halone horder
    fun s tile t h => CoefEncoder.encodeTile_eq h t

/-- A tile that is encoded has a residual for each block. -/
theorem checkSource_of_encodeTile {s : TileSource} {parallel : Bool} {tile : EncodedTile}
    (hvalid : s.plan.validate q = .ok ())
    (h : encodeTile s.plan s.residuals probs q parallel = .ok tile) : checkSource q s = .ok () := by
  simp only [checkSource]
  rw [hvalid]
  exact if_neg (not_not_intro (length_eq_of_encodeTile h))

/-- Under valid plans the tiles are encoded, unless one of them cannot be encoded alone. -/
theorem exists_encodeBy_iff (hvalid : ∀ s ∈ tiles, s.plan.validate q = .ok ()) :
    (∃ frame, t.encodeBy tiles schedule probs q = .ok frame) ↔
      ∀ s ∈ tiles, ∃ tile,
        encodeTile s.plan s.residuals probs q t.config.frameParallel = .ok tile := by
  constructor
  · rintro ⟨frame, h⟩ s hs
    obtain ⟨i, hi, rfl⟩ := List.getElem_of_mem hs
    have halone := (encodedApart_of_encodeBy schedule h).alone
    obtain ⟨hlength, hget⟩ := List.forall₂_iff_get.mp halone
    exact ⟨_, hget i hi (by omega)⟩
  · intro h
    obtain ⟨ts, hts⟩ := exists_forall₂ h
    refine ⟨_, (encodeBy_eq_ok_iff schedule).mpr ⟨?_, ts, hts, rfl⟩⟩
    intro s hs
    obtain ⟨tile, htile⟩ := h s hs
    exact checkSource_of_encodeTile (hvalid s hs) htile

end

end TileCoder

/-- A frame does not show who handled its tiles, and after which others: its tiles are decoded, and
encoded if they can be, as they are alone and by one worker, and counted as by one coder. -/
structure Unobservable (t : TileCoder) (probs : ProbTable) (q : Dequantizer)
    (streams : List TileStream) (decoding : Schedule streams.length) (sources : List TileSource)
    (encoding : Schedule sources.length) : Prop where
  decoded : ∃ frame, t.decodeBy streams decoding probs q = .ok frame ∧
    t.decode streams probs q = .ok frame ∧
    DecodedApart probs q t.config.frameParallel streams frame
  encodable : (∃ frame, t.encodeBy sources encoding probs q = .ok frame) ↔
    ∀ s ∈ sources, ∃ tile, encodeTile s.plan s.residuals probs q t.config.frameParallel = .ok tile
  encoded : ∀ frame, t.encodeBy sources encoding probs q = .ok frame →
    t.encode sources probs q = .ok frame ∧
      EncodedApart probs q t.config.frameParallel sources frame

/-- Under valid plans no schedule can be observed. -/
theorem unobservable_schedule (t : TileCoder) (probs : ProbTable) (q : Dequantizer)
    {streams : List TileStream} (hstreams : ∀ s ∈ streams, s.plan.validate q = .ok ())
    (decoding : Schedule streams.length) {sources : List TileSource}
    (hsources : ∀ s ∈ sources, s.plan.validate q = .ok ()) (encoding : Schedule sources.length) :
    Unobservable t probs q streams decoding sources encoding where
  decoded := by
    obtain ⟨frame, hframe⟩ := TileCoder.exists_decodeBy decoding hstreams
    exact ⟨frame, hframe, (TileCoder.decode_eq_ok_iff decoding).mpr hframe,
      TileCoder.decodedApart_of_decodeBy decoding hframe⟩
  encodable := TileCoder.exists_encodeBy_iff encoding hsources
  encoded := by
    intro frame hframe
    exact ⟨(TileCoder.encode_eq_ok_iff encoding).mpr hframe,
      TileCoder.encodedApart_of_encodeBy encoding hframe⟩

/-- Two workers, one of which handles tiles of two sizes, the last tile first. -/
theorem unobservable_schedule_two_workers :
    let q : Dequantizer := .ofFrame { base := 60 } .eight
    let small : TilePlan := .yuv420 ⟨2, 2⟩ [{ size := .s8 }]
    let large : TilePlan := .yuv420 ⟨4, 3⟩ [{ col := 3, size := .s4 }, { plane := 1, size := .s16 }]
    let streams : List TileStream := [⟨small, [7, 200]⟩, ⟨large, []⟩, ⟨small, [0x91, 0x04, 0xee]⟩]
    let sources : List TileSource :=
      [⟨large, [Array.replicate 16 9, Array.replicate 256 (-4)]⟩, ⟨small, [Array.replicate 64 31]⟩]
    (∀ s ∈ streams, s.plan.validate q = .ok ()) ∧ (∀ s ∈ sources, s.plan.validate q = .ok ()) ∧
      ∃ (decoding : Schedule streams.length) (encoding : Schedule sources.length),
        Unobservable ⟨{ tileThreads := 2 }⟩ .standard q streams decoding sources encoding := by
  intro q small large streams sources
  have hstreams : ∀ s ∈ streams, s.plan.validate q = .ok () := by
    simp only [streams, List.forall_mem_cons]
    exact ⟨rfl, rfl, rfl, List.forall_mem_nil _⟩
  have hsources : ∀ s ∈ sources, s.plan.validate q = .ok () := by
    simp only [sources, List.forall_mem_cons]
    exact ⟨rfl, rfl, List.forall_mem_nil _⟩
  let decoding : Schedule streams.length := ⟨[(1, 2), (0, 0), (1, 1)], by decide⟩
  let encoding : Schedule sources.length := ⟨[(0, 1), (0, 0)], by decide⟩
  exact ⟨hstreams, hsources, decoding, encoding, unobservable_schedule _ _ _ hstreams _ hsources _⟩

end ResidualCodec
