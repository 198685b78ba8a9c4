import Mathlib
import Expanse.Blob.Arena

/-!
# `BlobMap`: byte strings and metadata under 64-bit keys

The index takes a key to its slot word. A value is stored in the slot word when it has no
metadata and is short or compressible, and as an arena record otherwise. An insertion that
the capacity cap refuses a chunk may compact the arena once and try again.
-/

namespace Expanse.Blob

open Arrays Bytes SortedAssoc

/-- A `u64`. -/
abbrev Key : Type := Fin (2 ^ 64)

instance neZero_key : NeZero (2 ^ 64 : ℕ) := ⟨by decide⟩

abbrev Value : Type := List Byte × ℕ

inductive BlobView where
  | inline (bytes : List Byte)
  | arena (bytes : List Byte)
  | compressedInline (bytes : List Byte)
deriving DecidableEq, Repr

def BlobView.asBytes : BlobView → List Byte
  | .inline bytes => bytes
  | .arena bytes => bytes
  | .compressedInline bytes => bytes

inductive CompareExchangeError (T : Type) where
  | mismatch (current : T)
  | unstorable (cause : ArenaError)
deriving DecidableEq, Repr

structure CompactionStats where
  liveBytesBefore : ℕ
  liveBytesAfter : ℕ
  totalAllocatedBefore : ℕ
  totalAllocatedAfter : ℕ
  chunksBefore : ℕ
  chunksAfter : ℕ
  liveRecordsMoved : ℕ
deriving DecidableEq, Repr

/-- The value of a slot word, as `get` shows it. -/
def view (a : BlobArena) (raw : ℕ) : Option (BlobView × ℕ) :=
  match ValueSlot.tag raw with
  | .inline len => some (.inline (ValueSlot.inlinePayload raw len), 0)
  | .arenaMeta =>
    (a.resolveMeta (ValueSlot.arenaMetaLocator raw)).map fun slice =>
      (.arena slice, ValueSlot.arenaMetaMeta raw)
  | t =>
    if t.isCompressedInline then
      (Codec.decompressInline raw).map fun bytes => (.compressedInline bytes, 0)
    else none

/-- The metadata a slot word carries: none of its bits unless it is an arena slot. -/
def slotMeta (raw : ℕ) : ℕ :=
  if ValueSlot.tag raw = .arenaMeta then ValueSlot.arenaMetaMeta raw else 0

structure BlobMap where
  index : List (ℕ × ℕ)
  arena : BlobArena
  reclaimAtCap : Bool

namespace BlobMap

def withChunkSize (chunkSize : ℕ) : BlobMap := ⟨[], .new chunkSize, true⟩

def new : BlobMap := withChunkSize DEFAULT_CHUNK_SIZE

def withChunkSizeAndMaxCapacity (chunkSize maxCapacity : ℕ) : BlobMap :=
  ⟨[], .withChunkSizeAndMaxCapacity chunkSize maxCapacity, true⟩

def len (m : BlobMap) : ℕ := m.index.length

def getView (m : BlobMap) (key : Key) : Option (BlobView × ℕ) :=
  (m.index.lookup key.val).bind (view m.arena)

/-- `get`, with the bytes of the view. -/
def get (m : BlobMap) (key : Key) : Option Value :=
  (m.getView key).map fun v => (v.1.asBytes, v.2)

def setReclaimAtCap (m : BlobMap) (on : Bool) : BlobMap := { m with reclaimAtCap := on }

/-- `apply_compaction`. -/
def applyCompaction (m : BlobMap) (prepared : PreparedCompaction) :
    CompactionStats × BlobMap :=
  (⟨m.arena.liveBytes, prepared.newArena.liveBytes, m.arena.totalAllocated,
      prepared.newArena.totalAllocated, m.arena.chunks.length, prepared.newArena.chunks.length,
      prepared.rewrites.length⟩,
    { m with
      index := BlobArena.rewriteIndex m.index prepared.rewrites
      arena := m.arena.install prepared.newArena })

def compact (heap : Heap) (m : BlobMap) : Except ArenaError CompactionStats × BlobMap :=
  match m.arena.prepareCompaction heap m.index with
  | .error e => (.error e, m)
  | .ok prepared => (.ok (m.applyCompaction prepared).1, (m.applyCompaction prepared).2)

/-- Compact once if the reclaim rule allows, and say whether it did. -/
def reclaimForInsert (heap : Heap) (m : BlobMap) : Except ArenaError Bool × BlobMap :=
  if m.reclaimAtCap = false ∨ m.arena.reclaimAllowed = false then (.ok false, m)
  else
    match m.compact heap with
    | (.ok _, m) => (.ok true, m)
    | (.error e, m) => (.error e, { m with arena := m.arena.resetReclaimBaseline })

def refusedAfterCompaction : ArenaError → ArenaError
  | .offsetOverflow => .arenaFull
  | e => e

def allocAfterReclaim (heap : Heap) (m : BlobMap) (data : List Byte) :
    Except ArenaError ℕ × BlobMap :=
  match m.reclaimForInsert heap with
  | (.error e, m) => (.error e, m)
  | (.ok false, m) => (.error .offsetOverflow, m)
  | (.ok true, m) =>
    match m.arena.allocBlob (heap .retried) data with
    | .ok (global, arena) => (.ok global, { m with arena := arena })
    | .error e => (.error (refusedAfterCompaction e), m)

def allocPayload (heap : Heap) (m : BlobMap) (data : List Byte) :
    Except ArenaError ℕ × BlobMap :=
  match m.arena.allocBlob (heap .chunk) data with
  | .ok (global, arena) => (.ok global, { m with arena := arena })
  | .error .offsetOverflow => m.allocAfterReclaim heap data
  | .error e => (.error e, m)

/-- Store a slot word, and discharge the record of the word it replaces. -/
def store (m : BlobMap) (key : Key) (slot : ℕ) : BlobMap :=
  { m with
    index := put key.val slot m.index
    arena :=
      match m.index.lookup key.val with
      | some old => m.arena.recordDeletedSlot old
      | none => m.arena }

def insert (heap : Heap) (m : BlobMap) (key : Key) (data : List Byte) (hotMeta : ℕ) :
    Except ArenaError Unit × BlobMap :=
  match slotWordValue data hotMeta with
  | some slot => (.ok (), m.store key slot)
  | none =>
    if hotMeta > ValueSlot.ARENA_META_MAX then (.error .metaOverflow, m)
    else
      match m.allocPayload heap data with
      | (.error e, m) => (.error e, m)
      | (.ok global, m) =>
        match slotFromGlobal global hotMeta with
        | .error e => (.error e, m)
        | .ok slot => (.ok (), m.store key slot)

def remove (m : BlobMap) (key : Key) : Bool × BlobMap :=
  match m.index.lookup key.val with
  | some raw => (true, { m with index := del key.val m.index, arena := m.arena.recordDeletedSlot raw })
  | none => (false, m)

def compareExchangeMeta (m : BlobMap) (key : Key) (expected new : Option ℕ) :
    Except (CompareExchangeError (Option ℕ)) (Option ℕ) × BlobMap :=
  let curSlotRaw := m.index.lookup key.val
  let curMeta := curSlotRaw.map slotMeta
  if curMeta ≠ expected then (.error (.mismatch curMeta), m)
  else if new.any fun n => decide (n > ValueSlot.ARENA_META_MAX) then
    (.error (.unstorable .metaOverflow), m)
  else
    match curSlotRaw, new with
    | none, none => (.ok none, m)
    | none, some _ => (.error (.unstorable .noMetaField), m)
    | some raw, none =>
      (.ok curMeta, { m with index := del key.val m.index, arena := m.arena.recordDeletedSlot raw })
    | some raw, some n =>
      if ValueSlot.tag raw = .arenaMeta then
        match ValueSlot.withArenaMetaMeta raw n with
        | some slot => (.ok curMeta, { m with index := put key.val slot m.index })
        | none => (.error (.unstorable .metaOverflow), m)
      else if n = 0 then (.ok curMeta, m)
      else (.error (.unstorable .noMetaField), m)

/-- `blob_value_matches`. -/
def blobValueMatches : Option Value → Option Value → Bool
  | none, none => true
  | some (b, m), some (b', m') => decide (b = b') && decide (m = m')
  | _, _ => false

def compareExchange (heap : Heap) (m : BlobMap) (key : Key) (expected new : Option Value) :
    Except (CompareExchangeError (Option Value)) (Option Value) × BlobMap :=
  let cur := m.get key
  if blobValueMatches cur expected = false then (.error (.mismatch cur), m)
  else
    match new with
    | some (data, hotMeta) =>
      match m.insert heap key data hotMeta with
      | (.ok (), m) => (.ok cur, m)
      | (.error cause, m) => (.error (.unstorable cause), m)
    | none => (.ok cur, (m.remove key).2)

def clear (m : BlobMap) : BlobMap := { m with index := [], arena := m.arena.clear }

/-- One call. A call that may allocate carries the allocator's answers to it. -/
inductive Op where
  | get (key : Key)
  | insert (heap : Heap) (key : Key) (data : List Byte) (hotMeta : ℕ)
  | remove (key : Key)
  | compareExchange (heap : Heap) (key : Key) (expected new : Option Value)
  | compareExchangeMeta (key : Key) (expected new : Option ℕ)
  | compact (heap : Heap)
  | clear
  | setReclaimAtCap (on : Bool)

inductive Out where
  | got (value : Option Value)
  | inserted (r : Except ArenaError Unit)
  | removed (present : Bool)
  | exchanged (r : Except (CompareExchangeError (Option Value)) (Option Value))
  | exchangedMeta (r : Except (CompareExchangeError (Option ℕ)) (Option ℕ))
  | compacted (r : Except ArenaError CompactionStats)
  | done

def step (m : BlobMap) : Op → Out × BlobMap
  | .get key => (.got (m.get key), m)
  | .insert heap key data hotMeta =>
    let r := m.insert heap key data hotMeta
    (.inserted r.1, r.2)
  | .remove key =>
    let r := m.remove key
    (.removed r.1, r.2)
  | .compareExchange heap key expected new =>
    let r := m.compareExchange heap key expected new
    (.exchanged r.1, r.2)
  | .compareExchangeMeta key expected new =>
    let r := m.compareExchangeMeta key expected new
    (.exchangedMeta r.1, r.2)
  | .compact heap =>
    let r := m.compact heap
    (.compacted r.1, r.2)
  | .clear => (.done, m.clear)
  | .setReclaimAtCap on => (.done, m.setReclaimAtCap on)

end BlobMap

end Expanse.Blob
