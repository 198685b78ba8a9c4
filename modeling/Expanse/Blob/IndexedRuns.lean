import Expanse.Blob.IndexedImage

/-!
# Runs over an `ExpanseMap`

A run whose calls meet no stale hit is a run of the map over the list of its entries: what
holds there of layout, images, scans and compactions holds of it. One call across a stale
hit is enough to break it. The ledger of such a run is that of the list, so what the
reclaim rule copies is paid by growth and by dropped bytes, and a compaction fits the
chunks there are if the live bytes leave 14 bytes of each chunk.
-/

namespace Expanse.Blob

open Arrays Bytes SortedAssoc ValueSlot Runs Store

namespace ExpanseBlobMap

variable {m m' : ExpanseBlobMap} {heap : Heap} {data : List Byte}

/-- The actions that meet a stale hit. Loading meets none. -/
def StaleAct (m : ExpanseBlobMap) : Action → Prop
  | .call op => StaleOp m op
  | .reload _ _ => False

instance (m : ExpanseBlobMap) : ∀ action, Decidable (StaleAct m action)
  | .call op => inferInstanceAs (Decidable (StaleOp m op))
  | .reload _ _ => .isFalse id

/-- No action of a run meets a stale hit. -/
def Unstale (m : ExpanseBlobMap) (acts : List Action) : Prop := Along act (fun m a => ¬ StaleAct m a) m acts

instance (m : ExpanseBlobMap) (acts : List Action) : Decidable (Unstale m acts) :=
  inferInstanceAs (Decidable (Along _ _ _ _))

theorem reload_follows {heap : ℕ → Bool} {maxCapacity : ℕ} (h : IndexInv m.index) (hs : m.flat.Sound) :
    Follows (m.reload heap maxCapacity) (Expanse.Blob.reload heap maxCapacity m.flat) := by
  have hsave : m.saveToWriter = .ok (m.flat.image, m.flat.saveToWriter.2) := saveToWriter_eq h
  rw [reload, hsave, Expanse.Blob.reload]
  dsimp only
  split_ifs with hlen
  · rcases load_saved hs hlen heap maxCapacity with ⟨e, he, he'⟩ | ⟨m', hm, hb, h'⟩
    · rw [he', he]
      rintro _ _ ⟨⟩
      exact ⟨h, rfl⟩
    · rw [hb, hm]
      rintro _ _ ⟨⟩
      exact ⟨h', rfl⟩
  · rintro _ _ ⟨⟩
    exact ⟨h, rfl⟩

theorem act_follows (h : IndexInv m.index) (hs : m.flat.Sound) (action : Action) (hst : ¬ StaleAct m action) :
    Follows (m.act action) (Expanse.Blob.act m.flat action) := by
  cases action with
  | call op =>
    intro out m' hm'
    cases hx : m.step op with
    | error f =>
      rw [act, hx] at hm'
      cases hm'
    | ok r =>
      rw [act, hx] at hm'
      cases hm'
      obtain ⟨hinv, href⟩ := step_follows h op hst r.1 r.2 hx
      exact ⟨hinv, by rw [Expanse.Blob.act, href]⟩
  | reload heap maxCapacity => exact reload_follows h hs

theorem start_flat (st : BlobMap.Start) : (start st).flat = st.map ∧ IndexInv (start st).index := by
  cases st with
  | withChunkSize n => exact ⟨rfl, inv_new⟩
  | withChunkSizeAndMaxCapacity n cap => exact ⟨rfl, inv_new⟩

/-- A run that meets no stale hit is the run of the map over the list of its entries. -/
theorem run_flat (st : BlobMap.Start) {acts : List Action} {ends : List Ending} (hst : Unstale (start st) acts)
    (hr : run act (start st) acts = .ok (ends, m)) :
    IndexInv m.index ∧ m.flat = lived st acts ∧ (refRun Expanse.Blob.act st.map acts).1 = ends := by
  have hsim : (refRun Expanse.Blob.act st.map acts).1 = ends ∧ IndexInv m.index ∧ m.flat = lived st acts ∧
      (lived st acts).Sound ∧ (lived st acts).Accounted := by
    refine run_simulates
      (R := fun (m : ExpanseBlobMap) (b : BlobMap) => IndexInv m.index ∧ m.flat = b ∧ b.Sound ∧ b.Accounted)
      (fun m b action out m' hI hst hs => ?_)
      ⟨(start_flat st).2, (start_flat st).1, BlobMap.start_sound st, BlobMap.start_accounted st⟩ hst hr
    obtain ⟨hinv, rfl, hsound, hacc⟩ := hI
    obtain ⟨hinv', href⟩ := act_follows hinv hsound action hst out m' hs
    have hlives := act_lives hsound hacc action
    rw [href] at hlives ⊢
    exact ⟨rfl, hinv', rfl, hlives.2⟩
  exact ⟨hsim.2.1, hsim.2.2.1, hsim.1⟩

/-- Every map of a run that meets no stale hit, over calls, failed calls, compactions and reloads, has
the layout for the contents the run has stored. -/
theorem run_layout (st : BlobMap.Start) (acts : List Action) (hst : Unstale (start st) acts)
    {ends : List Ending} (hr : run act (start st) acts = .ok (ends, m)) :
    ∃ f, Traces Lives (fun _ => none) acts ends f ∧ Layout m.flat f := by
  obtain ⟨-, hflat, hends⟩ := run_flat st hst hr
  obtain ⟨htr, hs, ha⟩ := lived_traces st acts
  rw [hends] at htr
  refine ⟨_, htr, ?_⟩
  rw [hflat]
  exact layout_of_sound hs ha

/-- A record, an overwrite with a shorter one, a compaction and a reload. -/
def recorded : List Action :=
  [.call (.insert (fun _ => true) 1 (List.replicate 40 3) 7), .call (.insert (fun _ => true) 2 [1, 2] 0),
    .call (.insert (fun _ => true) 1 (List.replicate 9 4) 5), .call (.compact fun _ => true),
    .reload (fun _ => true) 8192, .call (.remove 2)]

/-- The run of `recorded` meets no stale hit and returns a map with an image and room to compact. -/
theorem recorded_run : Unstale (start (.withChunkSize 4096)) recorded ∧
    ∃ ends m image size, run act (start (.withChunkSize 4096)) recorded = .ok (ends, m) ∧
      m.saveToWriter = .ok (image, size) ∧ image.length < 2 ^ 63 ∧
      m.arena.totalAllocated ≤ clamp 4096 m.arena.chunkSize ARENA_META_CEILING ∧
      2 * m.arena.liveBytes + 14 * m.arena.chunks.length < m.arena.totalAllocated + 16 := by
  have hrun : Unstale (start (.withChunkSize 4096)) recorded ∧
      (run act (start (.withChunkSize 4096)) recorded).toOption.map (fun r =>
        (r.2.saveToWriter.toOption.map fun s => decide (s.1.length < 2 ^ 63),
          decide (r.2.arena.totalAllocated ≤ clamp 4096 r.2.arena.chunkSize ARENA_META_CEILING),
          decide (2 * r.2.arena.liveBytes + 14 * r.2.arena.chunks.length < r.2.arena.totalAllocated + 16))) =
        some (some true, true, true) := by
    decide +kernel
  obtain ⟨hst, hrun⟩ := hrun
  refine ⟨hst, ?_⟩
  cases hr : run act (start (.withChunkSize 4096)) recorded with
  | error f => simp [hr, Except.toOption] at hrun
  | ok r =>
    obtain ⟨ends, m⟩ := r
    cases hs : m.saveToWriter with
    | error f => simp [hr, hs, Except.toOption] at hrun
    | ok s =>
      simp only [hr, hs, Except.toOption, Option.map_some, Option.some.injEq, Prod.mk.injEq,
        decide_eq_true_eq] at hrun
      exact ⟨ends, m, s.1, s.2, rfl, hs, hrun⟩

theorem run_layout_recorded : ∃ ends m, run act (start (.withChunkSize 4096)) recorded = .ok (ends, m) ∧
    ∃ f, Traces Lives (fun _ => none) recorded ends f ∧ Layout m.flat f := by
  obtain ⟨hst, ends, m, -, -, hr, -⟩ := recorded_run
  exact ⟨ends, m, hr, run_layout (.withChunkSize 4096) recorded hst hr⟩

/-- The keys that leave a path of the index truncated: its bits are those of the keys below `0x200`. -/
def cascadeKeys : List Key :=
  (List.range 16).map (fun i => Fin.ofNat _ (0xAA00000000000000 + i)) ++
    (List.range 17).map fun i => Fin.ofNat _ (0xAA00000000000100 + i)

/-- Records under `0x105`, `0x106` and `0x1000`, the truncated path, and a compaction. -/
def sharing : List Action :=
  (([(1, 56), (0x105, 9), (0x106, 9), (0x1000, 40)] : List (Key × ℕ)).map fun e =>
    .call (.insert (fun _ => true) e.1 (List.replicate e.2 0) 1)) ++
    [.call (.remove 1)] ++
    (cascadeKeys.map fun key => .call (.insert (fun _ => true) key [1] 0)) ++ [.call (.compact fun _ => true)]

/-- The compaction leaves `0x105` with the locator of the record of `0x1000`: 82 live bytes, and words that
name 130. -/
theorem records_shared_after_cascade :
    ¬ ∀ st acts ends m, run act (start st) acts = .ok (ends, m) →
      ∃ f, Traces Lives (fun _ => none) acts ends f ∧ Layout m.flat f := by
  intro h
  have hrun : (run act (start (.withChunkSizeAndMaxCapacity 4096 16384)) sharing).toOption.map (fun r =>
      (r.2.arena.liveBytes, ((arenaEntries r.2.flat.index).map fun e => charge r.2.arena e.2).sum)) =
        some (82, 130) := by
    decide +kernel
  cases hr : run act (start (.withChunkSizeAndMaxCapacity 4096 16384)) sharing with
  | error f => simp [hr, Except.toOption] at hrun
  | ok r =>
    obtain ⟨f, -, hl⟩ := h _ sharing r.1 r.2 hr
    have hlive : r.2.arena.liveBytes = ((arenaEntries r.2.flat.index).map
        fun e => charge r.2.arena e.2).sum := hl.live
    simp only [hr, Except.toOption, Option.map_some, Option.some.injEq, Prod.mk.injEq] at hrun
    rw [hrun.1, hrun.2] at hlive
    cases hlive

/-- Saving and loading are inverse on a map. -/
structure RoundTrip (heap : ℕ → Bool) (maxCapacity : ℕ) (m : ExpanseBlobMap) (image : List Byte) : Prop where
  size : m.saveToWriter = .ok (image, image.length)
  loads : ∃ m', fromBytesSliceWithMaxCapacity heap image maxCapacity = .ok m' ∧
    m'.index.items.map Prod.fst = m.index.items.map Prod.fst ∧ m'.get = m.get ∧
    m'.arena.generation = m.arena.generation ∧ m'.arena.liveBytes = m.arena.liveBytes ∧
    m'.saveToWriter = m.saveToWriter

theorem keys_flat (m : ExpanseBlobMap) : m.flat.index.map Prod.fst = m.index.items.map Prod.fst := by
  rw [flat, slots, List.map_map]
  rfl

theorem generation_iff (ha : m.flat.Accounted) :
    (m.arena.chunks.getLast?.map ArenaChunk.generation).getD 1 = m.arena.generation ↔
      m.arena.chunks ≠ [] ∨ m.arena.generation = 1 := last_generation ha

/-- The image of a map of any run that meets no stale hit, where it fits the loader's cap: the round
trip holds exactly if the allocator grants the chunks and, where there is none, the generation is 1. -/
theorem saved_image_loads_iff (st : BlobMap.Start) (acts : List Action) (hst : Unstale (start st) acts)
    {ends : List Ending} (hr : run act (start st) acts = .ok (ends, m)) {image : List Byte} {size : ℕ}
    (hsave : m.saveToWriter = .ok (image, size)) (hlen : image.length < 2 ^ 63) (heap : ℕ → Bool)
    (maxCapacity : ℕ)
    (hcap : m.arena.totalAllocated ≤ clamp maxCapacity m.arena.chunkSize ARENA_META_CEILING) :
    RoundTrip heap maxCapacity m image ↔
      (∀ i < m.arena.chunks.length, heap i = true) ∧ (m.arena.chunks ≠ [] ∨ m.arena.generation = 1) := by
  obtain ⟨hinv, hflat, -⟩ := run_flat st hst hr
  obtain ⟨-, hs, ha⟩ := lived_traces st acts
  rw [← hflat] at hs ha
  have himage : m.flat.saveToWriter = (image, size) := by
    rw [saveToWriter_eq hinv] at hsave
    exact Except.ok.inj hsave
  have hsaved : m.flat.image = image := congrArg Prod.fst himage
  have hsize : size = image.length := by
    have htotal := BlobMap.length_image m.flat
    have hmod : size = m.flat.header.totalSize % 2 ^ 64 := (congrArg Prod.snd himage).symm
    rw [hmod, ← htotal, hsaved, Nat.mod_eq_of_lt (hlen.trans (by decide))]
  rw [hsize] at hsave
  rw [← generation_iff ha]
  subst hsaved
  have hload := load_saved hs hlen heap maxCapacity
  constructor
  · rintro ⟨-, m', hm', -, -, hgen, -, -⟩
    rcases hload with ⟨e, he, -⟩ | ⟨m₁, hm₁, hb, -⟩
    · rw [hm'] at he
      cases he
    · rw [hm'] at hm₁
      cases hm₁
      have hre := reloaded_of_load hs ha hlen hb
      have hgranted := (BlobMap.load_ok hb).granted
      rw [(BlobMap.imageOf hs hlen).chunks] at hgranted
      exact ⟨hgranted, by rw [← hgen]; exact hre.generation.symm⟩
  · rintro ⟨hgranted, hgen⟩
    obtain ⟨b, hb⟩ := BlobMap.load_succeeds hs hlen hcap hgranted
    rcases hload with ⟨e, -, he⟩ | ⟨m', hm', hb', hinv'⟩
    · rw [hb] at he
      cases he
    · have hre := reloaded_of_load hs ha hlen hb'
      refine ⟨hsave, m', hm', ?_, ?_, hre.generation.trans hgen, hre.live, ?_⟩
      · rw [← keys_flat, ← keys_flat, hre.index]
      · rw [get_eq hinv', get_eq hinv, hre.get_eq]
      · rw [saveToWriter_eq hinv', saveToWriter_eq hinv, saveToWriter_congr hre.index hre.chunks hre.size]

/-- The map after `recorded`, with room for its chunk. -/
theorem saved_image_loads_iff_recorded : ∃ ends m image size,
    run act (start (.withChunkSize 4096)) recorded = .ok (ends, m) ∧ m.saveToWriter = .ok (image, size) ∧
    image.length < 2 ^ 63 ∧ m.arena.totalAllocated ≤ clamp 4096 m.arena.chunkSize ARENA_META_CEILING ∧
    (RoundTrip (fun _ => true) 4096 m image ↔
      (∀ i < m.arena.chunks.length, true = true) ∧ (m.arena.chunks ≠ [] ∨ m.arena.generation = 1)) := by
  obtain ⟨hst, ends, m, image, size, hr, hs, hlen, hcap, -⟩ := recorded_run
  exact ⟨ends, m, image, size, hr, hs, hlen, hcap,
    saved_image_loads_iff (.withChunkSize 4096) recorded hst hr hs hlen (fun _ => true) 4096 hcap⟩

/-- A map that was compacted while it was empty has generation 2, and is loaded with generation 1. -/
theorem compacted_empty_loads_generation_one :
    ¬ ∀ st acts ends m image size, run act (start st) acts = .ok (ends, m) →
      m.saveToWriter = .ok (image, size) → image.length < 2 ^ 63 → ∀ maxCapacity,
      m.arena.totalAllocated ≤ clamp maxCapacity m.arena.chunkSize ARENA_META_CEILING →
      RoundTrip (fun _ => true) maxCapacity m image := by
  intro h
  have hrun : (run act (start (.withChunkSize 4096)) [.call (.compact fun _ => true)]).toOption.bind (fun r =>
      r.2.saveToWriter.toOption.map fun s => (decide (s.1.length < 2 ^ 63),
        decide (r.2.arena.totalAllocated ≤ clamp 4096 r.2.arena.chunkSize ARENA_META_CEILING),
        r.2.arena.generation,
        (fromBytesSliceWithMaxCapacity (fun _ => true) s.1 4096).toOption.map fun m => m.arena.generation)) =
        some (true, true, 2, some 1) := by
    decide +kernel
  cases hr : run act (start (.withChunkSize 4096)) [.call (.compact fun _ => true)] with
  | error f => simp [hr, Except.toOption] at hrun
  | ok r =>
    obtain ⟨ends, m⟩ := r
    cases hs : m.saveToWriter with
    | error f => simp [hr, hs, Except.toOption] at hrun
    | ok s =>
      obtain ⟨image, size⟩ := s
      simp only [hr, hs, Except.toOption, Option.map_some, Option.bind_some, Option.some.injEq, Prod.mk.injEq,
        decide_eq_true_eq] at hrun
      obtain ⟨hlen, hcap, hbefore, hafter⟩ := hrun
      obtain ⟨-, m', hload, -, -, hgen, -, -⟩ := h _ _ ends m image size hr hs hlen 4096 hcap
      rw [hload] at hafter
      have hone : m'.arena.generation = 1 := Option.some.inj hafter
      rw [hgen, hbefore] at hone
      cases hone

theorem scanFiltered_eq {σ : Type} (h : IndexInv m.index) (lo hi : Key) (predicate : Key → ℕ → σ → Bool × σ)
    (callback : Key → BlobView → ℕ → σ → Bool × σ) (s : σ) :
    m.scanFiltered lo hi predicate callback s = .ok (m.flat.scanFiltered lo hi predicate callback s) := by
  rw [scanFiltered, ranging_eq h]
  rfl

/-- A scan of a map of a run that meets no stale hit visits the entries `get` shows in the range. -/
theorem run_scans (st : BlobMap.Start) (acts : List Action) (hst : Unstale (start st) acts)
    {ends : List Ending} (hr : run act (start st) acts = .ok (ends, m)) (lo hi : Key) :
    ∃ found : List Found, (found.map Prod.fst).Pairwise (· < ·) ∧
      (∀ key v n, (key, v, n) ∈ found ↔ lo ≤ key ∧ key ≤ hi ∧ m.getView key = some (v, n)) ∧
      ∀ (σ : Type) (predicate : Key → ℕ → σ → Bool × σ) (callback : Key → BlobView → ℕ → σ → Bool × σ) (s : σ),
        m.scanFiltered lo hi predicate callback s = .ok (visit predicate callback found s) := by
  obtain ⟨hinv, hflat, -⟩ := run_flat st hst hr
  obtain ⟨-, hs, -⟩ := lived_traces st acts
  rw [← hflat] at hs
  have hfound := BlobMap.foundIn_ranges hs lo hi
  refine ⟨_, hfound.ascending, fun key v n => ?_, fun σ predicate callback s => ?_⟩
  · rw [getView_eq hinv]
    exact hfound.mem_iff key v n
  · rw [scanFiltered_eq hinv, BlobMap.scanFiltered_eq hs]

end ExpanseBlobMap

section Reclaim

open BlobMap

namespace ExpanseBlobMap

variable {m m' m₀ : ExpanseBlobMap} {ops : List Op} {outs : List Out}

/-- The ledger of a run, up to the call that faults. What a compaction copies it reads through the iterator
of the index, so it is what the list of the entries names. -/
def ledger (m : ExpanseBlobMap) : List Op → Ledger
  | [] => 0
  | op :: ops => m.flat.entry op +
    match m.step op with
    | .ok (_, m') => ledger m' ops
    | .error _ => 0

/-- The reclaim rule stays off until a chunk is opened or a live byte dropped. -/
def Quiet (m : ExpanseBlobMap) : Prop :=
  ∀ ops outs m', UnstaleCalls m ops → run step m ops = .ok (outs, m') →
    (m.ledger ops).opened = 0 → (m.ledger ops).dropped = 0 → m'.arena.reclaimAllowed = false

theorem ledger_flat (h : IndexInv m₀.index) (hst : UnstaleCalls m₀ ops) (hr : run step m₀ ops = .ok (outs, m)) :
    m₀.ledger ops = m₀.flat.ledger ops := by
  induction ops generalizing m₀ outs with
  | nil => rfl
  | cons op ops ih =>
    obtain ⟨hop, hrest⟩ := hst
    obtain ⟨out, m₁, outs', hx, hr', -⟩ := run_cons_ok.mp hr
    obtain ⟨hinv, href⟩ := step_follows h op hop out m₁ hx
    rw [hx] at hrest
    rw [ledger, hx, BlobMap.ledger, href]
    dsimp only
    rw [ih hinv hrest hr']

theorem quiet_of_flat (h : IndexInv m.index) (hq : BlobMap.Quiet m.flat) : m.Quiet := by
  intro ops outs m' hst hr ho hd
  obtain ⟨-, hflat, -⟩ := steps_flat h hst hr
  have hledger := ledger_flat h hst hr
  rw [hledger] at ho hd
  have hoff := hq ops ho hd
  rw [← hflat] at hoff
  exact hoff

/-- Over every run of calls that meets no stale hit, the live bytes copied at the cap are paid by growth
and by dropped bytes; each such compaction copies the live bytes, less than half of the chunk bytes;
and after a compaction, a `clear`, or a triggered compaction that failed with live bytes in the arena,
the rule stays off until a chunk is opened or a live byte dropped. A failed `compact` call changes
nothing. -/
theorem run_copies_amortised (st : Start) (ops : List Op) (hst : UnstaleCalls (start st) ops)
    (hr : run step (start st) ops = .ok (outs, m)) :
    ((start st).ledger ops).copied ≤
      RECLAIM_COPY_PER_GROWTH * (((start st).ledger ops).opened + ((start st).ledger ops).dropped) ∧
    (∀ heap key data hotMeta, (m.flat.entry (.insert heap key data hotMeta)).copied = 0 ∨
      (m.flat.entry (.insert heap key data hotMeta)).copied = m.arena.liveBytes ∧
        2 * m.arena.liveBytes < m.arena.totalAllocated) ∧
    (∀ heap stats m', ¬ StaleRecord m → m.compact heap = .ok (.ok stats, m') →
      stats.liveBytesAfter = m.arena.liveBytes ∧ m'.Quiet) ∧
    m.clear.Quiet ∧
    (∀ heap e m', ¬ StaleRecord m → m.reclaimForInsert heap = .ok (.error e, m') →
      0 < m.arena.liveBytes → m'.Quiet) ∧
    ∀ heap e m', m.compact heap = .ok (.error e, m') → m' = m := by
  have hstart := start_flat st
  have hs₀ : (start st).flat.Sound := hstart.1 ▸ start_sound st
  have ha₀ : (start st).flat.Accounted := hstart.1 ▸ start_accounted st
  obtain ⟨hinv, hflat, -⟩ := steps_flat hstart.2 hst hr
  have hledger := ledger_flat hstart.2 hst hr
  obtain ⟨-, hs, hacc⟩ := run_traces hs₀ ops
  have ha := hacc ha₀
  rw [← hflat] at hs ha
  refine ⟨?_, fun heap key data hotMeta => insert_copied heap _ key data hotMeta,
    fun heap stats m' hrec h => ?_, ?_, fun heap e m' hrec h hpos => ?_, fun heap e m' h => ?_⟩
  · have hp := pays_run hs₀ ha₀ ops
    have hzero : (start st).flat.credit = 0 := by cases st <;> rfl
    rw [Pays, hzero] at hp
    rw [RECLAIM_COPY_PER_GROWTH, hledger]
    omega
  · obtain ⟨hinv', href, -⟩ := compact_follows heap hinv hrec _ _ h
    have hok : (m.flat.compact heap).1 = .ok stats := by rw [href]
    have hk := compact_kept heap hs
    have hrest := compact_rested hs hok
    rw [href] at hk hrest
    exact ⟨compact_copies hs ha hok, quiet_of_flat hinv' (hrest.quiet hk.sound (hk.accounted ha))⟩
  · have hflat : m.clear.flat = m.flat.clear := rfl
    refine quiet_of_flat inv_clear.1 ?_
    rw [hflat]
    exact (clear_rested _).quiet (clear_sound hs) clear_accounted
  · obtain ⟨hinv', href, -⟩ := reclaimForInsert_follows heap hinv (fun _ _ => hrec) _ _ h
    have herr : (m.flat.reclaimForInsert heap).1 = .error e := by rw [href]
    have hk := reclaimForInsert_kept heap hs
    have hrest := reclaim_error_rested herr hpos
    rw [href] at hk hrest
    exact quiet_of_flat hinv' (hrest.quiet hk.sound (hk.accounted ha))
  · rw [compact, prepareCompaction_eq heap hinv] at h
    cases hp : m.flat.arena.prepareCompaction heap m.flat.index with
    | error e' =>
      rw [hp] at h
      cases h
      rfl
    | ok p =>
      rw [hp] at h
      cases h

def oneRecord : List Op :=
  [.insert (fun _ => true) 1 [200] 7, .insert (fun _ => true) 2 [200, 201] 7, .remove 2]

/-- A heap that grants chunks and refuses relocation lists. -/
def noRelocations : Heap
  | .relocations => false
  | _ => true

/-- The run of `oneRecord` meets no stale hit; after it a `compact` call may fail, and the rule allows
another. -/
theorem oneRecord_run : UnstaleCalls (start (.withChunkSize 4096)) oneRecord ∧
    ∃ outs m, run step (start (.withChunkSize 4096)) oneRecord = .ok (outs, m) ∧
      ∃ e m', m.compact noRelocations = .ok (.error e, m') ∧ m'.arena.reclaimAllowed = true := by
  have hrun : UnstaleCalls (start (.withChunkSize 4096)) oneRecord ∧
      (run step (start (.withChunkSize 4096)) oneRecord).toOption.bind (fun r =>
        (r.2.compact noRelocations).toOption.map fun c => (c.1.toOption.isNone, c.2.arena.reclaimAllowed)) =
        some (true, true) := by
    decide +kernel
  obtain ⟨hst, hrun⟩ := hrun
  refine ⟨hst, ?_⟩
  cases hr : run step (start (.withChunkSize 4096)) oneRecord with
  | error f => simp [hr, Except.toOption] at hrun
  | ok r =>
    cases hc : r.2.compact noRelocations with
    | error f => simp [hr, hc, Except.toOption] at hrun
    | ok c =>
      obtain ⟨out, m'⟩ := c
      simp only [hr, hc, Except.toOption, Option.bind_some, Option.map_some, Option.some.injEq,
        Prod.mk.injEq] at hrun
      cases out with
      | ok stats => cases hrun.1
      | error e => exact ⟨r.1, r.2, rfl, e, m', hc, hrun.2⟩

theorem run_copies_amortised_one_record : ∃ outs m, run step (start (.withChunkSize 4096)) oneRecord =
    .ok (outs, m) ∧ ((start (.withChunkSize 4096)).ledger oneRecord).copied ≤
      RECLAIM_COPY_PER_GROWTH * (((start (.withChunkSize 4096)).ledger oneRecord).opened +
        ((start (.withChunkSize 4096)).ledger oneRecord).dropped) ∧ m.clear.Quiet := by
  obtain ⟨hst, outs, m, hr, -⟩ := oneRecord_run
  have h := run_copies_amortised (.withChunkSize 4096) oneRecord hst hr
  exact ⟨outs, m, hr, h.1, h.2.2.2.1⟩

/-- After a `compact` call that fails, the rule may allow a compaction at once. -/
theorem allowed_after_failed_compact :
    ¬ ∀ st ops outs m, run step (start st) ops = .ok (outs, m) →
      ∀ heap e m', m.compact heap = .ok (.error e, m') → m'.arena.reclaimAllowed = false := by
  intro h
  obtain ⟨-, outs, m, hr, e, m', hc, hall⟩ := oneRecord_run
  rw [h _ oneRecord outs m hr noRelocations e m' hc] at hall
  cases hall

/-- A map of a run that meets no stale hit: a compaction that ends with `n` chunks needs
`(n - 1) * (chunk_size - 14) + 16` bytes of twice the live bytes; so where twice the live bytes, with 14
bytes for each chunk, lie below the allocated bytes, a compaction does not run into the limits, and the
allocated bytes do not grow. -/
theorem run_compaction_fits (st : Start) (acts : List Action) (hst : Unstale (start st) acts)
    {ends : List Ending} (hr : run act (start st) acts = .ok (ends, m))
    (hroom : 2 * m.arena.liveBytes + 14 * m.arena.chunks.length < m.arena.totalAllocated + 16) (heap : Heap) :
    ∃ r, m.prepareCompaction heap = .ok r ∧ r ≠ .error .offsetOverflow ∧ ∀ p, r = .ok p →
      p.newArena.totalAllocated ≤ m.arena.totalAllocated ∧
      p.newArena.totalAllocated ≤ m.arena.maxCapacity ∧
      (p.newArena.chunks ≠ [] →
        (p.newArena.chunks.length - 1) * (m.arena.chunkSize - 14) + 16 ≤ 2 * m.arena.liveBytes) := by
  obtain ⟨hinv, hflat, -⟩ := run_flat st hst hr
  obtain ⟨-, hs, ha⟩ := lived_traces st acts
  rw [← hflat] at hs ha
  obtain ⟨hneeds, hfits⟩ := compaction_room hs ha heap
  obtain ⟨hnever, hgrow⟩ := hfits hroom
  refine ⟨_, prepareCompaction_eq heap hinv, hnever, fun p hp => ?_⟩
  exact ⟨(hgrow p hp).1, (hgrow p hp).2, hneeds p hp⟩

theorem run_compaction_fits_recorded : ∃ ends m,
    run act (start (.withChunkSize 4096)) recorded = .ok (ends, m) ∧
    ∃ r, m.prepareCompaction (fun _ => true) = .ok r ∧ r ≠ .error .offsetOverflow ∧ ∀ p, r = .ok p →
      p.newArena.totalAllocated ≤ m.arena.totalAllocated ∧
      p.newArena.totalAllocated ≤ m.arena.maxCapacity ∧
      (p.newArena.chunks ≠ [] →
        (p.newArena.chunks.length - 1) * (m.arena.chunkSize - 14) + 16 ≤ 2 * m.arena.liveBytes) := by
  obtain ⟨hst, ends, m, -, -, hr, -, -, -, hroom⟩ := recorded_run
  exact ⟨ends, m, hr, run_compaction_fits (.withChunkSize 4096) recorded hst hr hroom fun _ => true⟩

/-- An insertion that the cap refuses its chunk answers as the compaction that fails. -/
theorem insert_refused {key : Key} {hotMeta : ℕ} {e : ArenaError} (hword : slotWordValue data hotMeta = none)
    (hmeta : hotMeta ≤ ARENA_META_MAX) (hcap : m.arena.allocBlob (heap .chunk) data = .error .offsetOverflow)
    (hon : m.reclaimAtCap = true) (hall : m.arena.reclaimAllowed = true)
    (hp : m.prepareCompaction heap = .ok (.error e)) :
    m.insert heap key data hotMeta = .ok (.error e, { m with arena := m.arena.resetReclaimBaseline }) := by
  have hrule : ¬ (m.reclaimAtCap = false ∨ m.arena.reclaimAllowed = false) := by simp [hon, hall]
  have hcompact : m.compact heap = .ok (.error e, m) := by rw [compact, hp]
  rw [insert, hword]
  dsimp only
  rw [if_neg (not_lt.mpr hmeta), allocPayload, hcap]
  dsimp only
  rw [allocAfterReclaim, reclaimForInsert, if_neg hrule, hcompact]

/-- A payload whose record leaves 15 bytes of a chunk. -/
def filling : List Byte := List.replicate 4073 0

/-- Two records that fill a chunk but for the smallest one, three smallest ones, and a removed record. -/
def alternating : List Op :=
  [.insert (fun _ => true) 1 filling 0, .insert (fun _ => true) 3 filling 0,
    .insert (fun _ => true) 0 [] 1, .insert (fun _ => true) 2 [] 1, .insert (fun _ => true) 4 [] 1,
    .insert (fun _ => true) 5 filling 0, .remove 5]

/-- In key order each of the five records left needs its own chunk, and the cap admits four: the rule
allows a compaction that overflows, and an insertion that needs a chunk answers so. -/
theorem compaction_overflows_under_half : ∃ ends m,
    run act (start (.withChunkSizeAndMaxCapacity 4096 16384)) (alternating.map .call) = .ok (ends, m) ∧
    m.reclaimAtCap = true ∧ m.arena.reclaimAllowed = true ∧
    m.prepareCompaction (fun _ => true) = .ok (.error .offsetOverflow) ∧
    ∃ m', m.insert (fun _ => true) 6 filling 0 = .ok (.error .offsetOverflow, m') := by
  have hrun : (run act (start (.withChunkSizeAndMaxCapacity 4096 16384))
      (alternating.map .call)).toOption.bind (fun r =>
      (r.2.prepareCompaction fun _ => true).toOption.map fun p =>
        (r.2.reclaimAtCap, r.2.arena.reclaimAllowed, p.map fun _ => (),
          (r.2.arena.allocBlob true filling).map fun _ => ())) =
      some (true, true, .error .offsetOverflow, .error .offsetOverflow) := by
    decide +kernel
  cases hr : run act (start (.withChunkSizeAndMaxCapacity 4096 16384)) (alternating.map .call) with
  | error f => simp [hr, Except.toOption] at hrun
  | ok r =>
    obtain ⟨ends, m⟩ := r
    cases hp : m.prepareCompaction fun _ => true with
    | error f => simp [hr, hp, Except.toOption] at hrun
    | ok p =>
      simp only [hr, hp, Except.toOption, Option.bind_some, Option.map_some, Option.some.injEq,
        Prod.mk.injEq] at hrun
      obtain ⟨hon, hall, hover, hcap⟩ := hrun
      have hfails : p = .error .offsetOverflow := by
        cases p with
        | ok p => cases hover
        | error e => rw [Except.error.inj hover]
      have hrefused : m.arena.allocBlob true filling = .error .offsetOverflow := by
        cases ha : m.arena.allocBlob true filling with
        | ok a => simp [ha, Except.map] at hcap
        | error e => simpa [ha, Except.map] using hcap
      have hword : slotWordValue filling 0 = none := by
        decide +kernel
      rw [hfails] at hp
      exact ⟨ends, m, rfl, hon, hall, hp, _, insert_refused hword (by decide) hrefused hon hall hp⟩

end ExpanseBlobMap

end Reclaim

end Expanse.Blob
