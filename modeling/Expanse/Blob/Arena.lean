import Mathlib
import Expanse.Blob.Slot
import Expanse.Library.Ensures
import Expanse.Library.Puts

/-!
# The blob arena

Payloads that do not fit their slot word are records of an arena: an 8-byte header
(length and generation) and the bytes. Records are appended to chunks of one size, each
at a multiple of 16, so a record is named by its global offset `chunk * chunk_size +
offset` in units of 16 bytes. Nothing is overwritten; a compaction copies the records the
index still names into a new set of chunks.

The index is the ascending list of its entries. A chunk of memory, and the relocation list
of a compaction, come from the global allocator, which may refuse: `Request` numbers what
one call asks of it.
-/

namespace Expanse.Blob

open Arrays Bytes SortedAssoc

/-- `ArenaError`. -/
inductive ArenaError where
  | allocationFailed
  | offsetOverflow
  | arenaFull
  | metaOverflow
  | noMetaField
  | invalidOffset
  | generationMismatch
  | corruptedHeader
  | unsupportedFormatVersion (found supported : ℕ)
deriving DecidableEq, Repr

/-- What one call asks of the global allocator: the chunk a record needs, the relocation list
and the chunks of a compaction, and the chunk the record needs after it. -/
inductive Request where
  | chunk
  | relocations
  | copied (i : ℕ)
  | retried

/-- The answers of the global allocator to one call. -/
abbrev Heap : Type := Request → Bool

def ARENA_ALIGN : ℕ := 16

def ARENA_META_CEILING : ℕ := 2 ^ 32 * ARENA_ALIGN

def MAX_ARENA_CHUNKS : ℕ := 2 ^ 16

def MAX_CHUNK_CAPACITY : ℕ := 1024 * 1024 * 1024

def DEFAULT_CHUNK_SIZE : ℕ := 2 * 1024 * 1024

def DEFAULT_ARENA_CAPACITY : ℕ := 2 ^ 30

def RECLAIM_COPY_PER_GROWTH : ℕ := 1

/-- `(n + 15) & !15`. -/
def alignUp (n : ℕ) : ℕ := (n + 15) / 16 * 16

/-- `x.clamp(lo, hi)`. -/
def clamp (x lo hi : ℕ) : ℕ := if x < lo then lo else if hi < x then hi else x

/-- `+=` on a `usize`, as in a release build: it wraps. -/
def addUsize (a b : ℕ) : ℕ := (a + b) % 2 ^ 64

/-- The payload of the record at `off`, of which the first `bound` bytes of the chunk may be read. -/
def readRecord (bytes : List Byte) (off bound generation : ℕ) : Option (List Byte) :=
  if off + 8 > bound then none
  else if ofLe (slice bytes (off + 4) 4) ≠ generation then none
  else if off + 8 + ofLe (slice bytes off 4) > bound then none
  else some (slice bytes (off + 8) (ofLe (slice bytes off 4)))

/-- One chunk. `bytes` is its memory below the cursor; above it the memory is zero. -/
structure ArenaChunk where
  capacity : ℕ
  generation : ℕ
  bytes : List Byte
deriving DecidableEq, Repr

namespace ArenaChunk

def cursor (c : ArenaChunk) : ℕ := c.bytes.length

def new (granted : Bool) (capacity generation : ℕ) : Except ArenaError ArenaChunk :=
  if capacity = 0 ∨ capacity > MAX_CHUNK_CAPACITY then .error .allocationFailed
  else if granted then .ok ⟨capacity, generation, []⟩
  else .error .allocationFailed

def canFit (c : ArenaChunk) (len : ℕ) : Bool := decide (c.cursor + (8 + len) ≤ c.capacity)

/-- Append a record, and zeros up to the next multiple of 16. -/
def push (c : ArenaChunk) (data : List Byte) : ArenaChunk :=
  let next := c.cursor + (8 + data.length)
  { c with bytes := c.bytes ++ (le 4 data.length ++ le 4 c.generation ++ data) ++
      List.replicate (alignUp next - next) 0 }

def alloc (c : ArenaChunk) (data : List Byte) : Except ArenaError (ℕ × ArenaChunk) :=
  if c.cursor + (8 + data.length) > c.capacity then .error .allocationFailed
  else .ok (c.cursor, c.push data)

def getSlice (c : ArenaChunk) (off : ℕ) : Option (List Byte) :=
  readRecord c.bytes off c.cursor c.generation

/-- A chunk whose first `cursor` bytes are given. -/
def fromRawParts (granted : Bool) (capacity cursor generation : ℕ) (data : List Byte) :
    Except ArenaError ArenaChunk :=
  if capacity = 0 ∨ capacity > MAX_CHUNK_CAPACITY ∨ cursor > capacity ∨ data.length > capacity then
    .error .invalidOffset
  else do
    let c ← new granted capacity generation
    return { c with bytes := data.take cursor ++ List.replicate (cursor - data.length) 0 }

end ArenaChunk

structure BlobArena where
  chunks : List ArenaChunk
  activeChunk : Option ℕ
  chunkSize : ℕ
  totalAllocated : ℕ
  liveBytes : ℕ
  compactedTotal : ℕ
  compactedLive : ℕ
  generation : ℕ
  maxCapacity : ℕ
  active_lt : ∀ idx ∈ activeChunk, idx < chunks.length

namespace BlobArena

def new (chunkSize : ℕ) : BlobArena where
  chunks := []
  activeChunk := none
  chunkSize := alignUp (clamp chunkSize 4096 MAX_CHUNK_CAPACITY)
  totalAllocated := 0
  liveBytes := 0
  compactedTotal := 0
  compactedLive := 0
  generation := 1
  maxCapacity := DEFAULT_ARENA_CAPACITY
  active_lt := by simp

def withChunkSizeAndMaxCapacity (chunkSize maxCapacity : ℕ) : BlobArena :=
  let arena := new chunkSize
  { arena with maxCapacity := clamp maxCapacity arena.chunkSize ARENA_META_CEILING }

def globalOffset (a : BlobArena) (idx off : ℕ) : ℕ := idx * a.chunkSize + off

/-- The active chunk, if a payload of `len` bytes fits it. -/
def roomFor (a : BlobArena) (len : ℕ) : Option (ℕ × ArenaChunk) :=
  match a.activeChunk with
  | none => none
  | some idx =>
    match a.chunks[idx]? with
    | none => none
    | some c => if c.canFit len then some (idx, c) else none

/-- Replace chunk `idx`. -/
def setChunk (a : BlobArena) (idx : ℕ) (c : ArenaChunk) : BlobArena :=
  { a with
    chunks := a.chunks.set idx c
    active_lt := by
      intro i hi
      rw [List.length_set]
      exact a.active_lt i hi }

/-- `push_chunk`, with the chunk's capacity as it is charged. -/
def pushChunk (a : BlobArena) (c : ArenaChunk) : BlobArena :=
  { a with
    chunks := a.chunks ++ [c]
    activeChunk := some a.chunks.length
    totalAllocated := a.totalAllocated + c.capacity
    active_lt := by simp }

/-- The growth path of `allocBlob`. -/
def allocBlobInNewChunk (granted : Bool) (a : BlobArena) (data : List Byte) :
    Except ArenaError (ℕ × BlobArena) :=
  if a.chunks.length ≥ MAX_ARENA_CHUNKS then .error .offsetOverflow
  else if a.totalAllocated + a.chunkSize > a.maxCapacity then .error .offsetOverflow
  else do
    let c ← ArenaChunk.new granted a.chunkSize a.generation
    let (off, c) ← c.alloc data
    return (a.globalOffset a.chunks.length off,
      { a.pushChunk c with
        totalAllocated := a.totalAllocated + a.chunkSize
        liveBytes := addUsize a.liveBytes (8 + data.length) })

def allocBlob (granted : Bool) (a : BlobArena) (data : List Byte) :
    Except ArenaError (ℕ × BlobArena) :=
  if 8 + data.length > a.chunkSize then .error .allocationFailed
  else
    match a.roomFor data.length with
    | some (idx, c) => do
      let (off, c) ← c.alloc data
      return (a.globalOffset idx off,
        { a.setChunk idx c with liveBytes := addUsize a.liveBytes (8 + data.length) })
    | none => a.allocBlobInNewChunk granted data

def getBlobSlice (a : BlobArena) (global : ℕ) : Option (List Byte) :=
  match a.chunks[global / a.chunkSize]? with
  | none => none
  | some c => c.getSlice (global % a.chunkSize)

def resolveMeta (a : BlobArena) (locator : ℕ) : Option (List Byte) :=
  a.getBlobSlice (locator * ARENA_ALIGN)

def recordDeleted (a : BlobArena) (global : ℕ) : BlobArena :=
  match a.getBlobSlice global with
  | some data => { a with liveBytes := a.liveBytes - (8 + data.length) }
  | none => a

def recordDeletedSlot (a : BlobArena) (raw : ℕ) : BlobArena :=
  if ValueSlot.tag raw = .arenaMeta then a.recordDeleted (ValueSlot.arenaMetaLocator raw * ARENA_ALIGN)
  else a

def reclaimAllowed (a : BlobArena) : Bool :=
  let grown := a.totalAllocated - a.compactedTotal
  let dropped := a.compactedLive - a.liveBytes
  decide (a.liveBytes ≤ RECLAIM_COPY_PER_GROWTH * (grown + dropped) ∧ a.liveBytes * 2 < a.totalAllocated)

def resetReclaimBaseline (a : BlobArena) : BlobArena :=
  { a with compactedTotal := a.totalAllocated, compactedLive := a.liveBytes }

def clear (a : BlobArena) : BlobArena :=
  resetReclaimBaseline
    { a with chunks := [], activeChunk := none, totalAllocated := 0, liveBytes := 0, active_lt := by simp }

end BlobArena

/-- The arena slot of a record, if its offset is aligned and below the ceiling. -/
def slotFromGlobal (global hotMeta : ℕ) : Except ArenaError ℕ :=
  if global % ARENA_ALIGN ≠ 0 ∨ global ≥ ARENA_META_CEILING then .error .offsetOverflow
  else if hotMeta > ValueSlot.ARENA_META_MAX then .error .metaOverflow
  else
    match ValueSlot.newArenaMeta hotMeta (global / ARENA_ALIGN) with
    | some slot => .ok slot
    | none => .error .metaOverflow

/-- A compaction whose copy has run: the new arena and the new slot of each relocated key. -/
structure PreparedCompaction where
  newArena : BlobArena
  rewrites : List (ℕ × ℕ)

def arenaEntries (index : List (ℕ × ℕ)) : List (ℕ × ℕ) :=
  index.filter fun e => ValueSlot.tag e.2 = .arenaMeta

namespace BlobArena

/-- `g.wrapping_add(1)`, skipping 0. -/
def nextGeneration (g : ℕ) : ℕ := if (g + 1) % 2 ^ 32 = 0 then 1 else (g + 1) % 2 ^ 32

/-- Phase 1: copy the payload of each entry that resolves into the new arena. -/
def relocate (heap : Heap) (a : BlobArena) :
    List (ℕ × ℕ) → BlobArena → List (ℕ × ℕ) → Except ArenaError PreparedCompaction
  | [], newArena, kept => .ok ⟨newArena, kept⟩
  | (key, raw) :: rest, newArena, kept =>
    match a.resolveMeta (ValueSlot.arenaMetaLocator raw) with
    | none => relocate heap a rest newArena kept
    | some payload => do
      let (global, newArena) ← newArena.allocBlob (heap (.copied newArena.chunks.length)) payload
      let newSlot ← slotFromGlobal global (ValueSlot.arenaMetaMeta raw)
      relocate heap a rest newArena (kept ++ [(key, newSlot)])

def prepareCompaction (heap : Heap) (a : BlobArena) (index : List (ℕ × ℕ)) :
    Except ArenaError PreparedCompaction :=
  -- reserving room for no entry cannot fail
  if index ≠ [] ∧ heap .relocations = false then .error .allocationFailed
  else
    relocate heap a (arenaEntries index)
      { new a.chunkSize with maxCapacity := a.maxCapacity, generation := nextGeneration a.generation } []

/-- Phase 2: store the new slots of the keys the index holds. -/
def rewriteIndex (index : List (ℕ × ℕ)) : List (ℕ × ℕ) → List (ℕ × ℕ)
  | [] => index
  | (key, raw) :: rest =>
    rewriteIndex (if (index.lookup key).isSome then put key raw index else index) rest

def install (a newArena : BlobArena) : BlobArena :=
  { resetReclaimBaseline
      { a with
        chunks := newArena.chunks
        activeChunk := newArena.activeChunk
        totalAllocated := newArena.totalAllocated
        liveBytes := newArena.liveBytes
        active_lt := newArena.active_lt } with
    generation := newArena.generation }

end BlobArena

end Expanse.Blob
