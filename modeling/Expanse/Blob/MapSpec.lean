import Mathlib
import Expanse.Blob.CompactSpec
import Expanse.Library.Runs

/-!
# A blob map is a partial map to payloads with metadata

`Answers` is the partial map: what each call may answer on given contents, and what it
leaves. Calls that store may be refused, and then leave the contents as they were. One
lemma for each operation says that it answers so and keeps the layout of the arena and its
accounts; the theorems are about whole runs.
-/

namespace Expanse.Blob

open SortedAssoc Intervals ValueSlot Runs

namespace BlobMap

variable {m m' : BlobMap} {key : Key} {heap : Heap} {data : List Byte} {slot raw hotMeta g : ℕ}
  {v : Value}

/-- The layout of a map. -/
structure Sound (m : BlobMap) : Prop where
  arena : m.arena.Sound
  backed : Backed m.arena m.index

/-- The arena slots name records that lie apart, and the live bytes are their total. -/
def Accounted (m : BlobMap) : Prop := Exact m.arena m.index []

/-- The layout, and the contents, are kept. -/
structure Kept (m m' : BlobMap) : Prop where
  sound : m'.Sound
  get_eq : m'.get = m.get
  accounted : m.Accounted → m'.Accounted

theorem Kept.refl (hs : m.Sound) : Kept m m := ⟨hs, rfl, id⟩

theorem Kept.trans {m'' : BlobMap} (h : Kept m m') (h' : Kept m' m'') : Kept m m'' :=
  ⟨h'.sound, h'.get_eq.trans h.get_eq, fun hm => h'.accounted (h.accounted hm)⟩

theorem kept_baseline (hs : m.Sound) : Kept m { m with arena := m.arena.resetReclaimBaseline } := by
  have h := hs.arena
  have hb := hs.backed
  exact ⟨⟨⟨h.size_ge, h.size_le, h.size_mod, h.chunk, h.count, h.total, h.total_le, h.cap_le, h.gen_pos,
    h.gen_lt⟩, ⟨hb.sorted, hb.key_lt, hb.raw_lt, hb.shown⟩⟩, rfl, fun hm => ⟨hm.apart, hm.live, hm.uniform⟩⟩

theorem get_of_lookup (h : m.index.lookup key.val = some raw) : m.get key = value m.arena raw := by
  rw [Blob.get_eq, h, Option.bind_some]

theorem get_of_lookup_none (h : m.index.lookup key.val = none) : m.get key = none := by
  rw [Blob.get_eq, h, Option.bind_none]

theorem Sound.shown (hs : m.Sound) (h : m.index.lookup key.val = some raw) :
    ∃ d, m.get key = some (d, slotMeta raw) := by
  have hsome := hs.backed.shown _ ((lookup_eq_some_iff hs.backed.sorted).mp h)
  rw [get_of_lookup h]
  by_cases ht : tag raw = .arenaMeta
  · rw [value_arena ht, Option.isSome_map] at hsome
    obtain ⟨d, hd⟩ := Option.isSome_iff_exists.mp hsome
    exact ⟨d, by rw [value_arena ht, hd, slotMeta, if_pos ht, Option.map_some]⟩
  · rw [value_word ht, Option.isSome_map] at hsome
    obtain ⟨d, hd⟩ := Option.isSome_iff_exists.mp hsome
    exact ⟨d, by rw [value_word ht, hd, slotMeta, if_neg ht, Option.map_some]⟩

theorem Sound.raw_lt (hs : m.Sound) (h : m.index.lookup key.val = some raw) : raw < 2 ^ 64 :=
  hs.backed.raw_lt _ ((lookup_eq_some_iff hs.backed.sorted).mp h)

theorem Sound.isSome_get (hs : m.Sound) (key : Key) :
    (m.get key).isSome = (m.index.lookup key.val).isSome := by
  cases h : m.index.lookup key.val with
  | none => rw [get_of_lookup_none h]; rfl
  | some raw =>
    obtain ⟨d, hd⟩ := hs.shown h
    rw [hd]
    rfl

theorem Sound.meta_eq (hs : m.Sound) (key : Key) :
    (m.index.lookup key.val).map slotMeta = (m.get key).map Prod.snd := by
  cases h : m.index.lookup key.val with
  | none => rw [get_of_lookup_none h]; rfl
  | some raw =>
    obtain ⟨d, hd⟩ := hs.shown h
    rw [hd]
    rfl

theorem store_arena (m : BlobMap) (key : Key) (slot : ℕ) :
    (m.store key slot).arena = dischargeKey m.arena m.index key.val := rfl

theorem get_put (hs : KeySorted m.index) (hv : value m.arena slot = some v)
    (hi : m'.index = put key.val slot m.index) (hval : value m'.arena = value m.arena) :
    m'.get = Function.update m.get key (some v) := by
  funext k
  rw [Blob.get_eq, hi, hval, lookup_put hs]
  by_cases hk : k = key
  · subst hk
    rw [if_pos rfl, Option.bind_some, hv, Function.update_self]
  · rw [if_neg (by rwa [← Fin.ext_iff]), Function.update_of_ne hk, Blob.get_eq]

theorem get_del (hs : KeySorted m.index) (hi : m'.index = del key.val m.index)
    (hval : value m'.arena = value m.arena) : m'.get = Function.update m.get key none := by
  funext k
  rw [Blob.get_eq, hi, hval, lookup_del hs]
  by_cases hk : k = key
  · subst hk
    rw [if_pos rfl, Function.update_self, Option.bind_none]
  · rw [if_neg (by rwa [← Fin.ext_iff]), Function.update_of_ne hk, Blob.get_eq]

/-- The contents become `f`, and the layout is kept. -/
structure Becomes (m m' : BlobMap) (f : Key → Option Value) : Prop where
  sound : m'.Sound
  get_eq : m'.get = f

theorem store_becomes (key : Key) (hs : m.Sound) (hslot : slot < 2 ^ 64) (hv : value m.arena slot = some v) :
    Becomes m (m.store key slot) (Function.update m.get key (some v)) := by
  have hval : value (m.store key slot).arena = value m.arena := by
    rw [store_arena, dischargeKey_eq]
    rfl
  refine ⟨⟨?_, ?_⟩, get_put hs.backed.sorted hv rfl hval⟩
  · rw [store_arena, dischargeKey_eq]
    exact hs.arena.withLive _
  · have hput := hs.backed.put key.isLt hslot (by rw [hv]; rfl)
    refine ⟨hput.sorted, hput.key_lt, hput.raw_lt, fun e he => ?_⟩
    rw [hval]
    exact hput.shown e he

theorem store_accounted (hs : m.Sound) (h : Exact m.arena m.index (spanOf m.arena slot)) :
    (m.store key slot).Accounted :=
  h.exchange (spans_put hs.backed.sorted key.val slot)

theorem remove_eq (m : BlobMap) (key : Key) :
    m.remove key = ((m.index.lookup key.val).isSome, { m with
      index := (m.remove key).2.index, arena := dischargeKey m.arena m.index key.val }) := by
  rw [remove, dischargeKey]
  cases m.index.lookup key.val with
  | none => rfl
  | some raw => rfl

theorem remove_index (hs : KeySorted m.index) (key : Key) :
    (m.remove key).2.index = del key.val m.index := by
  rw [remove]
  cases h : m.index.lookup key.val with
  | none =>
    rw [del_of_not_mem]
    intro v hv
    rw [lookup_of_mem hs hv] at h
    cases h
  | some raw => rfl

theorem remove_becomes (key : Key) (hs : m.Sound) :
    (m.remove key).1 = (m.get key).isSome ∧
      Becomes m (m.remove key).2 (Function.update m.get key none) := by
  have hidx := remove_index hs.backed.sorted key
  have harena : (m.remove key).2.arena = dischargeKey m.arena m.index key.val := by rw [remove_eq]
  have hval : value (m.remove key).2.arena = value m.arena := by
    rw [harena, dischargeKey_eq]
    rfl
  refine ⟨by rw [remove_eq, hs.isSome_get], ⟨?_, ?_⟩, get_del hs.backed.sorted hidx hval⟩
  · rw [harena, dischargeKey_eq]
    exact hs.arena.withLive _
  · have hdel := hs.backed.del key.val
    rw [hidx]
    refine ⟨hdel.sorted, hdel.key_lt, hdel.raw_lt, fun e he => ?_⟩
    rw [hval]
    exact hdel.shown e he

theorem remove_accounted (hs : m.Sound) (h : m.Accounted) : (m.remove key).2.Accounted := by
  have hidx := remove_index hs.backed.sorted key
  have harena : (m.remove key).2.arena = dischargeKey m.arena m.index key.val := by rw [remove_eq]
  rw [Accounted, hidx, harena]
  exact Exact.exchange h (spans_del hs.backed.sorted key.val)

theorem compact_kept (heap : Heap) (hs : m.Sound) : Kept m (m.compact heap).2 := by
  rw [compact]
  cases hp : m.arena.prepareCompaction heap m.index with
  | error e => exact Kept.refl hs
  | ok p =>
    have hc := prepareCompaction_spec hs.arena hs.backed hp
    have hr := hc.rewritten hs.backed.sorted
    have hb := hc.backed hs.backed hr
    refine ⟨⟨install_sound hc.sound hc.size hc.cap, hb.keeps hc.install_keeps⟩, ?_, fun _ => ?_⟩
    · funext key
      rw [Blob.get_eq, Blob.get_eq, ← hc.lookup_value hs.backed.sorted hr]
      show ((BlobArena.rewriteIndex m.index p.rewrites).lookup key.val).bind
        (value (m.arena.install p.newArena)) = _
      cases hl : (BlobArena.rewriteIndex m.index p.rewrites).lookup key.val with
      | none => rfl
      | some raw =>
        rw [Option.bind_some, Option.bind_some]
        exact hc.install_keeps.value_eq (hb.shown _ ((lookup_eq_some_iff hr.sorted).mp hl))
    · exact hc.install_exact (fun e he ht => hb.resolves he ht) (hc.exact_index hr)

theorem reclaimForInsert_kept (heap : Heap) (hs : m.Sound) : Kept m (m.reclaimForInsert heap).2 := by
  rw [reclaimForInsert]
  split_ifs
  · exact Kept.refl hs
  · have hk := compact_kept heap hs
    cases hc : m.compact heap with
    | mk r m' =>
      rw [hc] at hk
      cases r with
      | ok stats => exact hk
      | error e => exact hk.trans (kept_baseline hk.sound)

/-- A record of `data` has been written at `g`, and no slot names it yet. -/
structure Ready (m m' : BlobMap) (data : List Byte) (g : ℕ) : Prop where
  sound : m'.Sound
  get_eq : m'.get = m.get
  aligned : g % ARENA_ALIGN = 0
  below : g < ARENA_META_CEILING
  reads : m'.arena.getBlobSlice g = some data
  accounted : m.Accounted → Exact m'.arena m'.index [(g, 8 + data.length)]

theorem allocBlob_ready (hs : m.Sound) {granted : Bool} {arena : BlobArena}
    (h : m.arena.allocBlob granted data = .ok (g, arena)) : Ready m { m with arena := arena } data g := by
  have hal := BlobArena.allocBlob_spec hs.arena h
  have hkeeps : Keeps m.arena arena := fun x d hx => hal.keeps hx
  refine ⟨⟨hal.sound, hs.backed.keeps hkeeps⟩, ?_, hal.aligned, hal.below, hal.reads, fun hm => ?_⟩
  · funext key
    rw [Blob.get_eq, Blob.get_eq]
    cases hl : m.index.lookup key.val with
    | none => rfl
    | some raw =>
      exact hkeeps.value_eq (hs.backed.shown _ ((lookup_eq_some_iff hs.backed.sorted).mp hl))
  · exact Exact.allocated hm (fun e he ht => hs.backed.resolves he ht) hal

theorem Ready.of_kept {m'' : BlobMap} (h : Kept m m') (h' : Ready m' m'' data g) :
    Ready m m'' data g :=
  ⟨h'.sound, h'.get_eq.trans h.get_eq, h'.aligned, h'.below, h'.reads, fun hm => h'.accounted (h.accounted hm)⟩

theorem compact_error_noChunk (hs : m.Sound) {e : ArenaError} (h : (m.compact heap).1 = .error e) :
    NoChunk e := by
  rw [compact] at h
  cases hp : m.arena.prepareCompaction heap m.index with
  | error e' =>
    rw [hp] at h
    cases h
    exact prepareCompaction_error hs.arena hp
  | ok p =>
    rw [hp] at h
    cases h

theorem reclaimForInsert_error (hs : m.Sound) {e : ArenaError} (h : (m.reclaimForInsert heap).1 = .error e) :
    NoChunk e := by
  have hc : ∀ e, (m.compact heap).1 = .error e → NoChunk e := fun e => compact_error_noChunk hs
  rw [reclaimForInsert] at h
  split_ifs at h
  generalize m.compact heap = r at h hc
  obtain ⟨r, m'⟩ := r
  cases r with
  | ok stats => cases h
  | error e' =>
    cases h
    exact hc e rfl

/-- The errors of an arena that has no room for a record: `ArenaFull` comes after a compaction. -/
def NoRoom (e : ArenaError) : Prop := NoChunk e ∨ e = .arenaFull

theorem refusedAfterCompaction_noRoom {e : ArenaError} (h : NoChunk e) : NoRoom (refusedAfterCompaction e) := by
  rcases h with rfl | rfl
  · exact .inl (.inl rfl)
  · exact .inr rfl

/-- A payload allocation writes a record, or is refused. -/
def Outcome (m : BlobMap) (data : List Byte) (r : Except ArenaError ℕ × BlobMap) : Prop :=
  (∃ g, r.1 = .ok g ∧ Ready m r.2 data g) ∨ ∃ e, r.1 = .error e ∧ NoRoom e ∧ Kept m r.2

theorem allocAfterReclaim_outcome (heap : Heap) (data : List Byte) (hs : m.Sound) :
    Outcome m data (m.allocAfterReclaim heap data) := by
  rw [allocAfterReclaim]
  have hk := reclaimForInsert_kept heap hs
  have herr : ∀ e, (m.reclaimForInsert heap).1 = .error e → NoChunk e := fun e => reclaimForInsert_error hs
  cases hc : m.reclaimForInsert heap with
  | mk r m' =>
    rw [hc] at hk herr
    cases r with
    | error e => exact .inr ⟨e, rfl, .inl (herr e rfl), hk⟩
    | ok ran =>
      cases ran with
      | false => exact .inr ⟨_, rfl, .inl (.inr rfl), hk⟩
      | true =>
        dsimp only
        cases hal : m'.arena.allocBlob (heap .retried) data with
        | error e => exact .inr ⟨_, rfl, refusedAfterCompaction_noRoom (allocBlob_error hal), hk⟩
        | ok p => exact .inl ⟨p.1, rfl, (allocBlob_ready hk.sound hal).of_kept hk⟩

theorem allocPayload_outcome (heap : Heap) (data : List Byte) (hs : m.Sound) :
    Outcome m data (m.allocPayload heap data) := by
  rw [allocPayload]
  cases hal : m.arena.allocBlob (heap .chunk) data with
  | ok p => exact .inl ⟨p.1, rfl, allocBlob_ready hs hal⟩
  | error e =>
    rcases allocBlob_error hal with rfl | rfl
    · exact .inr ⟨_, rfl, .inl (.inl rfl), Kept.refl hs⟩
    · exact allocAfterReclaim_outcome heap data hs

/-- The contents become `f`, and layout and accounts are kept. -/
structure Stored (m m' : BlobMap) (f : Key → Option Value) : Prop where
  becomes : Becomes m m' f
  accounted : m.Accounted → m'.Accounted

/-- Why an insertion is refused: the value needs a record, and its metadata do not fit, or there is no
room. -/
structure Refused (data : List Byte) (hotMeta : ℕ) (e : ArenaError) : Prop where
  word : slotWordValue data hotMeta = none
  error : ARENA_META_MAX < hotMeta ∧ e = .metaOverflow ∨ hotMeta ≤ ARENA_META_MAX ∧ NoRoom e

theorem insert_outcome (heap : Heap) (key : Key) (data : List Byte) (hotMeta : ℕ) (hs : m.Sound) :
    ((m.insert heap key data hotMeta).1 = .ok () ∧ hotMeta ≤ ARENA_META_MAX ∧
      Stored m (m.insert heap key data hotMeta).2 (Function.update m.get key (some (data, hotMeta)))) ∨
    ∃ e, (m.insert heap key data hotMeta).1 = .error e ∧ Refused data hotMeta e ∧
      Kept m (m.insert heap key data hotMeta).2 := by
  rw [insert]
  cases hw : slotWordValue data hotMeta with
  | some slot =>
    obtain ⟨rfl, hh⟩ := slotWordValue_holds hw
    refine .inl ⟨rfl, Nat.zero_le _, store_becomes key hs hh.lt (hh.value_eq m.arena), fun hm => ?_⟩
    apply store_accounted hs
    rw [spanOf, if_neg hh.tag_ne]
    exact hm
  | none =>
    dsimp only
    split_ifs with hmax
    · exact .inr ⟨_, rfl, ⟨hw, .inl ⟨hmax, rfl⟩⟩, Kept.refl hs⟩
    · have hmeta : hotMeta ≤ ARENA_META_MAX := by omega
      have hout := allocPayload_outcome heap data hs
      cases hal : m.allocPayload heap data with
      | mk r m' =>
        rw [hal] at hout
        rcases hout with ⟨g, hr, hready⟩ | ⟨e, hr, hno, hk⟩
        · obtain rfl : r = .ok g := hr
          dsimp only
          rw [slotFromGlobal_eq hready.aligned hready.below hmeta]
          refine .inl ⟨rfl, hmeta, ?_, fun hm => ?_⟩
          · have hb := store_becomes key hready.sound
              (arenaWord_lt hmeta (locator_lt hready.below))
              (value_record hready.aligned hready.below hmeta hready.reads)
            refine ⟨hb.sound, ?_⟩
            rw [hb.get_eq]
            exact congrArg (fun f => Function.update f key _) hready.get_eq
          · apply store_accounted hready.sound
            rw [spanOf_record hready.aligned hready.below hready.reads]
            exact hready.accounted hm
        · obtain rfl : r = .error e := hr
          exact .inr ⟨e, rfl, ⟨hw, .inr ⟨hmeta, hno⟩⟩, hk⟩

theorem blobValueMatches_iff (x y : Option Value) : blobValueMatches x y = true ↔ x = y := by
  cases x with
  | none =>
    cases y with
    | none => simp [blobValueMatches]
    | some w => simp [blobValueMatches]
  | some v =>
    cases y with
    | none => simp [blobValueMatches]
    | some w => simp [blobValueMatches, Prod.ext_iff]

theorem rewriteMeta_stored (hs : m.Sound) (hl : m.index.lookup key.val = some raw)
    (ht : tag raw = .arenaMeta) {n : ℕ} (hn : n ≤ ARENA_META_MAX) {d : List Byte}
    (hd : m.get key = some (d, slotMeta raw)) :
    Stored m { m with index := put key.val (arenaWord n (arenaMetaLocator raw)) m.index }
      (Function.update m.get key (some (d, n))) := by
  have hloc : arenaMetaLocator (arenaWord n (arenaMetaLocator raw)) = arenaMetaLocator raw :=
    arenaMetaLocator_arenaWord arenaMetaLocator_lt
  have hres : m.arena.resolveMeta (arenaMetaLocator raw) = some d := by
    rw [get_of_lookup hl, value_arena ht] at hd
    obtain ⟨d', hd', heq⟩ := Option.map_eq_some_iff.mp hd
    rw [hd', (Prod.mk.inj heq).1]
  have hv : value m.arena (arenaWord n (arenaMetaLocator raw)) = some (d, n) := by
    rw [value_arena tag_arenaWord, hloc, hres, arenaMetaMeta_arenaWord hn arenaMetaLocator_lt, Option.map_some]
  refine ⟨⟨⟨hs.arena, ?_⟩, get_put hs.backed.sorted hv rfl rfl⟩, fun hm => Exact.perm hm ?_⟩
  · exact hs.backed.put key.isLt (arenaWord_lt hn arenaMetaLocator_lt) (by rw [hv]; rfl)
  · have hspan : spanOf m.arena (arenaWord n (arenaMetaLocator raw)) = spanOf m.arena raw := by
      rw [spanOf, spanOf, if_pos tag_arenaWord, if_pos ht, charge, charge, hloc]
    have hperm := spans_put (a := m.arena) hs.backed.sorted key.val (arenaWord n (arenaMetaLocator raw))
    rw [oldSpan, hl, hspan] at hperm
    exact (List.perm_append_left_iff _).mp hperm

theorem discharge_becomes (hs : m.Sound) (hl : m.index.lookup key.val = some raw) :
    Stored m { m with index := del key.val m.index, arena := m.arena.recordDeletedSlot raw }
      (Function.update m.get key none) := by
  have hrem : (m.remove key).2 =
      { m with index := del key.val m.index, arena := m.arena.recordDeletedSlot raw } := by
    rw [remove, hl]
  rw [← hrem]
  exact ⟨(remove_becomes key hs).2, remove_accounted hs⟩

abbrev Contents : Type := Key → Option Value

/-- Why metadata are not exchanged: they do not fit, or the key has no record to keep them in. -/
def MetaRefused (v : Option Value) (n : ℕ) (e : ArenaError) : Prop :=
  ARENA_META_MAX < n ∧ e = .metaOverflow ∨
    n ≤ ARENA_META_MAX ∧ e = .noMetaField ∧ ∀ x ∈ v, x.2 = 0 ∧ n ≠ 0

/-- The partial map: the answers each call may give on the contents `f`, and the contents it
leaves. A call that stores may be refused with an error, and then leaves the contents alone. -/
inductive Answers (f : Contents) : Op → Out → Contents → Prop
  | got (key : Key) : Answers f (.get key) (.got (f key)) f
  | inserted (heap : Heap) (key : Key) (data : List Byte) (hotMeta : ℕ) (h : hotMeta ≤ ARENA_META_MAX) :
    Answers f (.insert heap key data hotMeta) (.inserted (.ok ()))
      (Function.update f key (some (data, hotMeta)))
  | insertRefused (heap : Heap) (key : Key) (data : List Byte) (hotMeta : ℕ) (e : ArenaError)
    (h : Refused data hotMeta e) : Answers f (.insert heap key data hotMeta) (.inserted (.error e)) f
  | removed (key : Key) :
    Answers f (.remove key) (.removed (f key).isSome) (Function.update f key none)
  | exchanged (heap : Heap) (key : Key) (new : Option Value) (h : ∀ v ∈ new, v.2 ≤ ARENA_META_MAX) :
    Answers f (.compareExchange heap key (f key) new) (.exchanged (.ok (f key))) (Function.update f key new)
  | exchangeMismatch (heap : Heap) (key : Key) (expected new : Option Value) (h : f key ≠ expected) :
    Answers f (.compareExchange heap key expected new) (.exchanged (.error (.mismatch (f key)))) f
  | exchangeRefused (heap : Heap) (key : Key) (new : Value) (e : ArenaError) (h : Refused new.1 new.2 e) :
    Answers f (.compareExchange heap key (f key) (some new)) (.exchanged (.error (.unstorable e))) f
  | metaExchanged (key : Key) (d : List Byte) (hotMeta n : ℕ) (h : f key = some (d, hotMeta))
    (hn : n ≤ ARENA_META_MAX) :
    Answers f (.compareExchangeMeta key (some hotMeta) (some n)) (.exchangedMeta (.ok (some hotMeta)))
      (Function.update f key (some (d, n)))
  | metaRemoved (key : Key) :
    Answers f (.compareExchangeMeta key ((f key).map Prod.snd) none)
      (.exchangedMeta (.ok ((f key).map Prod.snd))) (Function.update f key none)
  | metaMismatch (key : Key) (expected new : Option ℕ) (h : (f key).map Prod.snd ≠ expected) :
    Answers f (.compareExchangeMeta key expected new)
      (.exchangedMeta (.error (.mismatch ((f key).map Prod.snd)))) f
  | metaRefused (key : Key) (n : ℕ) (e : ArenaError) (h : MetaRefused (f key) n e) :
    Answers f (.compareExchangeMeta key ((f key).map Prod.snd) (some n))
      (.exchangedMeta (.error (.unstorable e))) f
  | compacted (heap : Heap) (r : Except ArenaError CompactionStats) (h : ∀ e, r = .error e → NoChunk e) :
    Answers f (.compact heap) (.compacted r) f
  | cleared : Answers f .clear .done fun _ => none
  | reclaimSet (on : Bool) : Answers f (.setReclaimAtCap on) .done f

/-- A call answers as the partial map may, and keeps layout and accounts. -/
structure Proceeds (m : BlobMap) (op : Op) (out : Out) (m' : BlobMap) : Prop where
  answers : Answers m.get op out m'.get
  sound : m'.Sound
  accounted : m.Accounted → m'.Accounted

theorem Proceeds.of_kept {op : Op} {out : Out} (h : Kept m m') (ha : Answers m.get op out m.get) :
    Proceeds m op out m' :=
  ⟨by rw [h.get_eq]; exact ha, h.sound, h.accounted⟩

theorem Proceeds.of_stored {op : Op} {out : Out} {f : Contents} (h : Stored m m' f)
    (ha : Answers m.get op out f) : Proceeds m op out m' :=
  ⟨by rw [h.becomes.get_eq]; exact ha, h.becomes.sound, h.accounted⟩

theorem insert_proceeds (hs : m.Sound) : Proceeds m (.insert heap key data hotMeta)
    (.inserted (m.insert heap key data hotMeta).1) (m.insert heap key data hotMeta).2 := by
  rcases insert_outcome heap key data hotMeta hs with
    ⟨hr, hmax, hst⟩ | ⟨e, hr, href, hk⟩
  · rw [hr]
    exact .of_stored hst (.inserted heap key data hotMeta hmax)
  · rw [hr]
    exact .of_kept hk (.insertRefused heap key data hotMeta e href)

theorem remove_proceeds (hs : m.Sound) :
    Proceeds m (.remove key) (.removed (m.remove key).1) (m.remove key).2 := by
  obtain ⟨hr, hb⟩ := remove_becomes key hs
  rw [hr]
  exact .of_stored ⟨hb, remove_accounted hs⟩ (.removed key)

theorem compareExchange_proceeds {expected new : Option Value} (hs : m.Sound) :
    Proceeds m (.compareExchange heap key expected new)
      (.exchanged (m.compareExchange heap key expected new).1) (m.compareExchange heap key expected new).2 := by
  unfold compareExchange
  dsimp only
  split_ifs with hm
  · refine .of_kept (Kept.refl hs) (.exchangeMismatch heap key expected new fun heq => ?_)
    rw [(blobValueMatches_iff _ _).mpr heq] at hm
    cases hm
  · obtain rfl : m.get key = expected := (blobValueMatches_iff _ _).mp (by simpa using hm)
    cases new with
    | none =>
      obtain ⟨-, hb⟩ := remove_becomes key hs
      exact .of_stored ⟨hb, remove_accounted hs⟩ (.exchanged heap key none (by simp))
    | some v =>
      obtain ⟨data, hotMeta⟩ := v
      dsimp only
      have hout := insert_outcome heap key data hotMeta hs
      cases hi : m.insert heap key data hotMeta with
      | mk r m' =>
        rw [hi] at hout
        rcases hout with ⟨hr, hmax, hst⟩ | ⟨e, hr, href, hk⟩
        · obtain rfl : r = .ok () := hr
          refine .of_stored hst (.exchanged heap key (some (data, hotMeta)) fun v hv => ?_)
          obtain rfl := Option.some.inj hv
          exact hmax
        · obtain rfl : r = .error e := hr
          exact .of_kept hk (.exchangeRefused heap key _ e href)

theorem compareExchangeMeta_proceeds {expected new : Option ℕ} (hs : m.Sound) :
    Proceeds m (.compareExchangeMeta key expected new)
      (.exchangedMeta (m.compareExchangeMeta key expected new).1)
        (m.compareExchangeMeta key expected new).2 := by
  have hmeta := hs.meta_eq key
  unfold compareExchangeMeta
  dsimp only
  rw [hmeta]
  split_ifs with hne hmax
  · exact .of_kept (Kept.refl hs) (.metaMismatch key expected new hne)
  all_goals obtain rfl := not_not.mp hne
  · cases new with
    | none => cases hmax
    | some n => exact .of_kept (Kept.refl hs) (.metaRefused key n _ (.inl ⟨by simpa using hmax, rfl⟩))
  · cases hl : m.index.lookup key.val with
    | none =>
      have hg := get_of_lookup_none hl
      cases new with
      | none =>
        have h := Answers.metaRemoved (f := m.get) key
        rw [← hg, Function.update_eq_self, hg] at h
        refine .of_kept (Kept.refl hs) ?_
        rw [hg]
        exact h
      | some n =>
        have hn : n ≤ ARENA_META_MAX := by simpa using hmax
        refine .of_kept (Kept.refl hs) (.metaRefused key n _ (.inr ⟨hn, rfl, ?_⟩))
        rw [hg]
        exact nofun
    | some raw =>
      obtain ⟨d, hd⟩ := hs.shown hl
      cases new with
      | none => exact .of_stored (discharge_becomes hs hl) (.metaRemoved key)
      | some n =>
        have hn : n ≤ ARENA_META_MAX := by simpa using hmax
        dsimp only
        rw [hd, Option.map_some]
        split_ifs with ht hzero
        · rw [withArenaMetaMeta_eq ht (hs.raw_lt hl) hn]
          exact .of_stored (rewriteMeta_stored hs hl ht hn hd) (.metaExchanged key d _ n hd hn)
        · -- a slot word has metadata 0 and keeps it
          subst hzero
          have hzero : slotMeta raw = 0 := if_neg ht
          have h := Answers.metaExchanged (f := m.get) key d _ 0 hd hn
          rw [hzero] at hd h ⊢
          rw [← hd, Function.update_eq_self] at h
          exact .of_kept (Kept.refl hs) h
        · have hnone : MetaRefused (m.get key) n .noMetaField := by
            refine .inr ⟨hn, rfl, fun x hx => ⟨?_, hzero⟩⟩
            rw [hd] at hx
            obtain rfl := Option.some.inj hx
            exact if_neg ht
          have h := Answers.metaRefused (f := m.get) key n .noMetaField hnone
          rw [hd, Option.map_some] at h
          exact .of_kept (Kept.refl hs) h

theorem clear_sound (hs : m.Sound) : m.clear.Sound := by
  have h := hs.arena
  refine ⟨⟨h.size_ge, h.size_le, h.size_mod, ?_, Nat.zero_le _, (Nat.zero_mul _).symm, Nat.zero_le _, h.cap_le,
    h.gen_pos, h.gen_lt⟩, .nil, ?_, ?_, ?_⟩
  all_goals
    intro x hx
    cases hx

theorem clear_accounted : m.clear.Accounted := by
  refine ⟨.nil, rfl, fun c hc => ?_⟩
  cases hc

theorem step_proceeds (hs : m.Sound) (op : Op) : Proceeds m op (m.step op).1 (m.step op).2 := by
  cases op with
  | get key => exact .of_kept (Kept.refl hs) (.got key)
  | insert heap key data hotMeta => exact insert_proceeds hs
  | remove key => exact remove_proceeds hs
  | compareExchange heap key expected new => exact compareExchange_proceeds hs
  | compareExchangeMeta key expected new => exact compareExchangeMeta_proceeds hs
  | compact heap =>
    exact .of_kept (compact_kept heap hs) (.compacted heap _ fun e he => compact_error_noChunk hs he)
  | clear => exact ⟨.cleared, clear_sound hs, fun _ => clear_accounted⟩
  | setReclaimAtCap on =>
    exact ⟨.reclaimSet on, ⟨hs.arena, hs.backed⟩, id⟩

/-- How a map is made: `with_chunk_size` (and `new`, with the default size) or
`with_chunk_size_and_max_capacity`. -/
inductive Start where
  | withChunkSize (chunkSize : ℕ)
  | withChunkSizeAndMaxCapacity (chunkSize maxCapacity : ℕ)

def Start.map : Start → BlobMap
  | .withChunkSize chunkSize => .withChunkSize chunkSize
  | .withChunkSizeAndMaxCapacity chunkSize maxCapacity => .withChunkSizeAndMaxCapacity chunkSize maxCapacity

theorem clamp_bounds {x lo hi : ℕ} (h : lo ≤ hi) : lo ≤ clamp x lo hi ∧ clamp x lo hi ≤ hi := by
  rw [clamp]
  split_ifs <;> omega

theorem sound_empty {a : BlobArena} {on : Bool}
    (hsize : ∃ n, a.chunkSize = alignUp (clamp n 4096 MAX_CHUNK_CAPACITY))
    (hchunks : a.chunks = []) (htotal : a.totalAllocated = 0) (hcap : a.maxCapacity ≤ ARENA_META_CEILING)
    (hgen : a.generation = 1) : Sound ⟨[], a, on⟩ := by
  obtain ⟨n, hn⟩ := hsize
  have hb : 4096 ≤ clamp n 4096 MAX_CHUNK_CAPACITY ∧ clamp n 4096 MAX_CHUNK_CAPACITY ≤ MAX_CHUNK_CAPACITY :=
    clamp_bounds (by decide)
  have hmax : MAX_CHUNK_CAPACITY % 16 = 0 := by decide
  refine ⟨⟨?_, ?_, ?_, ?_, ?_, ?_, ?_, hcap, ?_, ?_⟩, .nil, ?_, ?_, ?_⟩
  · rw [hn]
    exact hb.1.trans (alignUp_ge _)
  · rw [hn]
    exact alignUp_le hb.2 hmax
  · rw [hn]
    exact alignUp_mod _
  · intro c hc
    rw [hchunks] at hc
    cases hc
  · rw [hchunks]
    exact Nat.zero_le _
  · rw [htotal, hchunks]
    exact (Nat.zero_mul _).symm
  · rw [htotal]
    exact Nat.zero_le _
  · rw [hgen]
    decide
  · rw [hgen]
    decide
  all_goals
    intro x hx
    cases hx

theorem start_sound (start : Start) : start.map.Sound := by
  cases start with
  | withChunkSize n => exact sound_empty ⟨n, rfl⟩ rfl rfl (show 2 ^ 30 ≤ ARENA_META_CEILING by decide) rfl
  | withChunkSizeAndMaxCapacity n cap =>
    refine sound_empty ⟨n, rfl⟩ rfl rfl (clamp_bounds ?_).2 rfl
    refine (alignUp_le (clamp_bounds (by decide)).2 (by decide)).trans ?_
    decide

theorem start_accounted (start : Start) : start.map.Accounted := by
  cases start with
  | withChunkSize n => exact ⟨.nil, rfl, fun c hc => by cases hc⟩
  | withChunkSizeAndMaxCapacity n cap => exact ⟨.nil, rfl, fun c hc => by cases hc⟩

theorem start_get (start : Start) : start.map.get = fun _ => none := by
  cases start with
  | withChunkSize n => rfl
  | withChunkSizeAndMaxCapacity n cap => rfl

theorem run_traces (hs : m.Sound) (ops : List Op) :
    Traces Answers m.get ops (refRun step m ops).1 (refRun step m ops).2.get ∧
      (refRun step m ops).2.Sound ∧ (m.Accounted → (refRun step m ops).2.Accounted) := by
  obtain ⟨f, htr, hf, hs', hacc⟩ := refRun_traces
    (I := fun (s : BlobMap) (f : Contents) => f = s.get ∧ s.Sound ∧ (m.Accounted → s.Accounted))
    (R := Answers)
    (fun s f op hI => by
      obtain ⟨rfl, hsound, hacc⟩ := hI
      have hp := step_proceeds hsound op
      exact ⟨_, hp.answers, rfl, hp.sound, fun hm => hp.accounted (hacc hm)⟩)
    (s := m) ops ⟨rfl, hs, id⟩
  rw [hf] at htr
  exact ⟨htr, hs', hacc⟩

/-- Every run answers as a partial map from keys to payloads with metadata: a value reads back as
it was last stored, whichever form it took, and a call that reports an error changes nothing. -/
theorem run_answers_as_blob_map (start : Start) (ops : List Op) :
    Traces Answers (fun _ => none) ops (refRun step start.map ops).1 (refRun step start.map ops).2.get := by
  rw [← start_get start]
  exact (run_traces (start_sound start) ops).1

end BlobMap

end Expanse.Blob
