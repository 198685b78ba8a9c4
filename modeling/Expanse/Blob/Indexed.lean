import Mathlib
import Expanse.Blob.Refit
import Expanse.Blob.Scan
import Expanse.Store.Build

/-!
# `ExpanseBlobMap`: the blob map over `ExpanseMap`

The index of the map is an `ExpanseMap`, which caches the path of the last insert. A
compaction reads the entries through `iter` and rewrites each slot through
`get_value_slot`; an image is loaded by inserting its entries in order. Where an index call
faults, the call of the blob map does. `flat` puts the entries of the index in a list: the
blob map over a correct index.
-/

namespace Expanse.Blob

open Arrays Bytes SortedAssoc ValueSlot Runs

def Key.word (key : Key) : UInt64 := UInt64.ofNat key.val

/-- The slot words of entries as numbers. -/
def slots (items : List (ℕ × UInt64)) : List (ℕ × ℕ) := items.map fun e => (e.1, e.2.toNat)

/-- What `index.iter()` hands out. -/
def iterated (index : ExpanseMap) : Except Fault (List (ℕ × ℕ)) :=
  (Store.collectIter (Iter.next .map) index (index.iterFwdRaw .map)).map slots

/-- `MapRange::next`: nothing beyond the end of the range. -/
def MapRange.next (stop : ℕ) (it : Iter UInt64) : Except Fault (Option (ℕ × UInt64) × Iter UInt64) :=
  (it.next .map).map fun r => (r.1.filter (·.1 ≤ stop), r.2)

/-- What `index.range(lo..=hi)` hands out. -/
def ranging (index : ExpanseMap) (lo hi : Key) : Except Fault (List (ℕ × ℕ)) :=
  (Store.collectIter (MapRange.next hi.val) index
    (if hi < lo then .ok .new else index.rangeFwdRaw .map lo.val)).map slots

/-- `alloc_would_refuse_at_cap`: the active chunk cannot fit the payload, and opening another one
would cross a limit. -/
def BlobArena.allocWouldRefuseAtCap (a : BlobArena) (len : ℕ) : Bool :=
  if 8 + len > a.chunkSize then false
  else if (a.roomFor len).isSome then false
  else decide (a.chunks.length ≥ MAX_ARENA_CHUNKS ∨ a.totalAllocated + a.chunkSize > a.maxCapacity)

structure ExpanseBlobMap where
  index : ExpanseMap
  arena : BlobArena
  reclaimAtCap : Bool

/-- The answer of a call that may fault, and the map it leaves. -/
abbrev Called (α : Type) : Type := Except Fault (α × ExpanseBlobMap)

namespace ExpanseBlobMap

def withChunkSize (chunkSize : ℕ) : ExpanseBlobMap := ⟨Store.new, .new chunkSize, true⟩

def withChunkSizeAndMaxCapacity (chunkSize maxCapacity : ℕ) : ExpanseBlobMap :=
  ⟨Store.new, .withChunkSizeAndMaxCapacity chunkSize maxCapacity, true⟩

def start : BlobMap.Start → ExpanseBlobMap
  | .withChunkSize chunkSize => withChunkSize chunkSize
  | .withChunkSizeAndMaxCapacity chunkSize maxCapacity => withChunkSizeAndMaxCapacity chunkSize maxCapacity

def flat (m : ExpanseBlobMap) : BlobMap := ⟨slots m.index.items, m.arena, m.reclaimAtCap⟩

/-- `get`, with the view of the slot word; the word is read through `get_slot_ptr`. -/
def getView (m : ExpanseBlobMap) (key : Key) : Option (BlobView × ℕ) :=
  (m.index.getSlotPtr key.val).bind fun ptr =>
    (m.index.entryAt ptr).bind fun e => view m.arena e.2.toNat

def get (m : ExpanseBlobMap) (key : Key) : Option Value :=
  (m.getView key).map fun v => (v.1.asBytes, v.2)

def setReclaimAtCap (m : ExpanseBlobMap) (on : Bool) : ExpanseBlobMap := { m with reclaimAtCap := on }

/-- `prepare_compaction`. -/
def prepareCompaction (heap : Heap) (m : ExpanseBlobMap) :
    Except Fault (Except ArenaError PreparedCompaction) :=
  -- reserving room for no entry cannot fail
  if m.index.len ≠ 0 ∧ heap .relocations = false then .ok (.error .allocationFailed)
  else
    (iterated m.index).map fun entries =>
      BlobArena.relocate heap m.arena (arenaEntries entries)
        { BlobArena.new m.arena.chunkSize with
          maxCapacity := m.arena.maxCapacity
          generation := BlobArena.nextGeneration m.arena.generation } []

/-- Store each new word through the slot `get_value_slot` hands out for its key. -/
def rewriteIndex : ExpanseMap → List (ℕ × ℕ) → ExpanseMap
  | index, [] => index
  | index, (key, raw) :: rest =>
    match index.getValueSlot key with
    | some ptr => rewriteIndex (index.writeAt ptr (.ofNat raw)) rest
    | none => rewriteIndex index rest

/-- `apply_compaction`. Its assertion compares the arena with the one that was prepared, the same. -/
def applyCompaction (m : ExpanseBlobMap) (prepared : PreparedCompaction) :
    CompactionStats × ExpanseBlobMap :=
  (⟨m.arena.liveBytes, prepared.newArena.liveBytes, m.arena.totalAllocated,
      prepared.newArena.totalAllocated, m.arena.chunks.length, prepared.newArena.chunks.length,
      prepared.rewrites.length⟩,
    { m with
      index := rewriteIndex m.index prepared.rewrites
      arena := m.arena.install prepared.newArena })

def compact (heap : Heap) (m : ExpanseBlobMap) : Called (Except ArenaError CompactionStats) :=
  match m.prepareCompaction heap with
  | .error f => .error f
  | .ok (.error e) => .ok (.error e, m)
  | .ok (.ok prepared) => .ok (.ok (m.applyCompaction prepared).1, (m.applyCompaction prepared).2)

/-- Compact once if the reclaim rule allows, and say whether it did. -/
def reclaimForInsert (heap : Heap) (m : ExpanseBlobMap) : Called (Except ArenaError Bool) :=
  if m.reclaimAtCap = false ∨ m.arena.reclaimAllowed = false then .ok (.ok false, m)
  else
    match m.compact heap with
    | .error f => .error f
    | .ok (.ok _, m) => .ok (.ok true, m)
    | .ok (.error e, m) => .ok (.error e, { m with arena := m.arena.resetReclaimBaseline })

def allocAfterReclaim (heap : Heap) (m : ExpanseBlobMap) (data : List Byte) : Called (Except ArenaError ℕ) :=
  match m.reclaimForInsert heap with
  | .error f => .error f
  | .ok (.error e, m) => .ok (.error e, m)
  | .ok (.ok false, m) => .ok (.error .offsetOverflow, m)
  | .ok (.ok true, m) =>
    match m.arena.allocBlob (heap .retried) data with
    | .ok (global, arena) => .ok (.ok global, { m with arena := arena })
    | .error e => .ok (.error (BlobMap.refusedAfterCompaction e), m)

def allocPayload (heap : Heap) (m : ExpanseBlobMap) (data : List Byte) : Called (Except ArenaError ℕ) :=
  match m.arena.allocBlob (heap .chunk) data with
  | .ok (global, arena) => .ok (.ok global, { m with arena := arena })
  | .error .offsetOverflow => m.allocAfterReclaim heap data
  | .error e => .ok (.error e, m)

/-- `insert_needs_reclaim`: the cap refuses the payload its chunk, and the rule admits a copy. -/
def insertNeedsReclaim (m : ExpanseBlobMap) (data : List Byte) (hotMeta : ℕ) : Bool :=
  m.reclaimAtCap && decide (hotMeta ≤ ARENA_META_MAX) && (slotWordValue data hotMeta).isNone &&
    m.arena.allocWouldRefuseAtCap data.length && m.arena.reclaimAllowed

/-- Insert a slot word, and discharge the record of the word it replaces. -/
def store (m : ExpanseBlobMap) (key : Key) (slot : ℕ) : Except Fault ExpanseBlobMap :=
  match m.index.insert key.word (.ofNat slot) with
  | .error f => .error f
  | .ok (old, index) =>
    .ok { m with
      index := index
      arena :=
        match old with
        | some raw => m.arena.recordDeletedSlot raw.toNat
        | none => m.arena }

def insert (heap : Heap) (m : ExpanseBlobMap) (key : Key) (data : List Byte) (hotMeta : ℕ) :
    Called (Except ArenaError Unit) :=
  match slotWordValue data hotMeta with
  | some slot => (m.store key slot).map fun m => (.ok (), m)
  | none =>
    if hotMeta > ARENA_META_MAX then .ok (.error .metaOverflow, m)
    else
      match m.allocPayload heap data with
      | .error f => .error f
      | .ok (.error e, m) => .ok (.error e, m)
      | .ok (.ok global, m) =>
        match slotFromGlobal global hotMeta with
        | .error e => .ok (.error e, m)
        | .ok slot => (m.store key slot).map fun m => (.ok (), m)

def remove (m : ExpanseBlobMap) (key : Key) : Called Bool :=
  match m.index.remove key.word with
  | .error f => .error f
  | .ok (some raw, index) =>
    .ok (true, { m with index := index, arena := m.arena.recordDeletedSlot raw.toNat })
  | .ok (none, index) => .ok (false, { m with index := index })

def compareExchangeMeta (m : ExpanseBlobMap) (key : Key) (expected new : Option ℕ) :
    Called (Except (CompareExchangeError (Option ℕ)) (Option ℕ)) :=
  let curSlotRaw := (m.index.get key.word).map UInt64.toNat
  let curMeta := curSlotRaw.map slotMeta
  if curMeta ≠ expected then .ok (.error (.mismatch curMeta), m)
  else if new.any fun n => decide (n > ARENA_META_MAX) then
    .ok (.error (.unstorable .metaOverflow), m)
  else
    match curSlotRaw, new with
    | none, none => .ok (.ok none, m)
    | none, some _ => .ok (.error (.unstorable .noMetaField), m)
    | some raw, none =>
      (m.index.remove key.word).map fun r =>
        (.ok curMeta, { m with index := r.2, arena := m.arena.recordDeletedSlot raw })
    | some raw, some n =>
      if tag raw = .arenaMeta then
        match withArenaMetaMeta raw n with
        | some slot =>
          (m.index.insert key.word (.ofNat slot)).map fun r => (.ok curMeta, { m with index := r.2 })
        | none => .ok (.error (.unstorable .metaOverflow), m)
      else if n = 0 then .ok (.ok curMeta, m)
      else .ok (.error (.unstorable .noMetaField), m)

def compareExchange (heap : Heap) (m : ExpanseBlobMap) (key : Key) (expected new : Option Value) :
    Called (Except (CompareExchangeError (Option Value)) (Option Value)) :=
  let cur := m.get key
  if BlobMap.blobValueMatches cur expected = false then .ok (.error (.mismatch cur), m)
  else
    match new with
    | some (data, hotMeta) =>
      match m.insert heap key data hotMeta with
      | .error f => .error f
      | .ok (.ok (), m) => .ok (.ok cur, m)
      | .ok (.error cause, m) => .ok (.error (.unstorable cause), m)
    | none => (m.remove key).map fun r => (.ok cur, r.2)

def clear (m : ExpanseBlobMap) : ExpanseBlobMap :=
  { m with index := m.index.clear, arena := m.arena.clear }

/-- `scan_filtered`. Predicate and callback cannot reach the index, so its entries are drawn first. -/
def scanFiltered {σ : Type} (m : ExpanseBlobMap) (lo hi : Key) (predicate : Key → ℕ → σ → Bool × σ)
    (callback : Key → BlobView → ℕ → σ → Bool × σ) (s : σ) : Except Fault σ :=
  (ranging m.index lo hi).map fun entries => BlobMap.scanLoop m.arena predicate callback entries s

def step (m : ExpanseBlobMap) : BlobMap.Op → Called BlobMap.Out
  | .get key => .ok (.got (m.get key), m)
  | .insert heap key data hotMeta =>
    (m.insert heap key data hotMeta).map fun r => (.inserted r.1, r.2)
  | .remove key => (m.remove key).map fun r => (.removed r.1, r.2)
  | .compareExchange heap key expected new =>
    (m.compareExchange heap key expected new).map fun r => (.exchanged r.1, r.2)
  | .compareExchangeMeta key expected new =>
    (m.compareExchangeMeta key expected new).map fun r => (.exchangedMeta r.1, r.2)
  | .compact heap => (m.compact heap).map fun r => (.compacted r.1, r.2)
  | .clear => .ok (.done, m.clear)
  | .setReclaimAtCap on => .ok (.done, m.setReclaimAtCap on)

def header (m : ExpanseBlobMap) : BlobMapFileHeader :=
  let arenaOffset := 64 + m.index.len * 16
  { magic := EXPANSE_MAGIC
    version := EXPANSE_FORMAT_VERSION
    flags := 0
    entryCount := m.index.len
    indexOffset := 64
    arenaOffset := arenaOffset
    totalSize := arenaOffset + (m.arena.chunks.map fun c => 24 + alignUp c.cursor).sum
    chunkSize := m.arena.chunkSize
    chunkCount := m.arena.chunks.length }

def saveToWriter (m : ExpanseBlobMap) : Except Fault (List Byte × ℕ) :=
  (iterated m.index).map fun entries =>
    (m.header.bytes ++ (entries.flatMap entryBytes ++ m.arena.chunks.flatMap chunkBytes),
      m.header.totalSize % 2 ^ 64)

/-- Insert an entry of an image. A fault of the index is a panic. -/
def insertLoaded (index : ExpanseMap) (e : ℕ × ℕ) : Except Halt ExpanseMap :=
  match index.insert (.ofNat e.1) (.ofNat e.2) with
  | .ok (_, index) => .ok index
  | .error _ => .error .panicked

/-- Read `n` index entries from `pos` on. -/
def loadEntries (bytes : List Byte) : ℕ → ℕ → ExpanseBlobMap → Except Halt ExpanseBlobMap
  | 0, _, m => .ok m
  | n + 1, pos, m => do
    let entry ← ranged bytes pos 16
    let key ← indexed entry 0 8
    let raw ← indexed entry 8 8
    let pos ← checkedAdd pos 16
    let index ← insertLoaded m.index (ofLe key, ofLe raw)
    loadEntries bytes n pos { m with index := index, arena := m.arena.chargeLoaded (ofLe raw) }

def fromBytesSliceWithMaxCapacity (heap : ℕ → Bool) (bytes : List Byte) (maxCapacity : ℕ) :
    Except Halt ExpanseBlobMap :=
  if bytes.length < 64 then .error (.failed .corruptedHeader)
  else do
    let h ← parseHeader bytes
    checkHeader bytes h
    let m := withChunkSizeAndMaxCapacity h.chunkSize maxCapacity
    if h.chunkCount * h.chunkSize > m.arena.maxCapacity then .error (.failed .offsetOverflow)
    else
      let (arena, loaded) ← loadChunks heap bytes h.chunkSize h.chunkCount h.arenaOffset m.arena none
      loadEntries bytes h.entryCount h.indexOffset { m with arena := arena.adopt loaded }

def reload (heap : ℕ → Bool) (maxCapacity : ℕ) (m : ExpanseBlobMap) : Called Ending :=
  match m.saveToWriter with
  | .error f => .error f
  | .ok (bytes, _) =>
    if bytes.length < 2 ^ 63 then
      match fromBytesSliceWithMaxCapacity heap bytes maxCapacity with
      | .ok m' => .ok (.loaded, m')
      | .error e => .ok (.notLoaded e, m)
    else .ok (.tooLong, m)

/-- A call, or going on with the map loaded from the image. -/
def act (m : ExpanseBlobMap) : Action → Called Ending
  | .call op => (m.step op).map fun r => (.answered r.1, r.2)
  | .reload heap maxCapacity => m.reload heap maxCapacity

end ExpanseBlobMap

end Expanse.Blob
