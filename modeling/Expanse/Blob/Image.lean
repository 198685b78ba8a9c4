import Mathlib
import Expanse.Blob.Map

/-!
# Images of blob maps

`saveToWriter` writes a 64-byte header, the index entries, and the chunks up to their
cursors; `fromBytesSliceWithMaxCapacity` reads an image back into a map with the given
capacity cap. A slice index out of range panics; a checked read that fails is reported.
-/

namespace Expanse.Blob

open Arrays Bytes SortedAssoc

/-- `b"EXPANSE\0"`. -/
def EXPANSE_MAGIC : List Byte := [69, 88, 80, 65, 78, 83, 69, 0]

def EXPANSE_FORMAT_VERSION : ℕ := 2

structure BlobMapFileHeader where
  magic : List Byte
  version : ℕ
  flags : ℕ
  entryCount : ℕ
  indexOffset : ℕ
  arenaOffset : ℕ
  totalSize : ℕ
  chunkSize : ℕ
  chunkCount : ℕ
deriving DecidableEq, Repr

def BlobMapFileHeader.bytes (h : BlobMapFileHeader) : List Byte :=
  h.magic ++ (le 4 h.version ++ (le 4 h.flags ++ (le 8 h.entryCount ++ (le 8 h.indexOffset ++
    (le 8 h.arenaOffset ++ (le 8 h.totalSize ++ (le 8 h.chunkSize ++ le 8 h.chunkCount)))))))

def entryBytes (e : ℕ × ℕ) : List Byte := le 8 e.1 ++ le 8 e.2

def chunkBytes (c : ArenaChunk) : List Byte :=
  le 8 c.capacity ++ (le 8 c.cursor ++ (le 4 c.generation ++ (le 4 0 ++
    (c.bytes ++ List.replicate (alignUp c.cursor - c.cursor) 0))))

namespace BlobMap

def header (m : BlobMap) : BlobMapFileHeader :=
  let arenaOffset := 64 + m.len * 16
  { magic := EXPANSE_MAGIC
    version := EXPANSE_FORMAT_VERSION
    flags := 0
    entryCount := m.len
    indexOffset := 64
    arenaOffset := arenaOffset
    totalSize := arenaOffset + (m.arena.chunks.map fun c => 24 + alignUp c.cursor).sum
    chunkSize := m.arena.chunkSize
    chunkCount := m.arena.chunks.length }

/-- The bytes written, and the size returned, which is a `usize`. -/
def saveToWriter (m : BlobMap) : List Byte × ℕ :=
  (m.header.bytes ++ (m.index.flatMap entryBytes ++ m.arena.chunks.flatMap chunkBytes),
    m.header.totalSize % 2 ^ 64)

end BlobMap

/-- How a load ends without a map. -/
inductive Halt where
  | failed (e : ArenaError)
  | panicked
deriving DecidableEq, Repr

/-- `bytes[lo..lo + n]`. -/
def indexed (bytes : List Byte) (lo n : ℕ) : Except Halt (List Byte) :=
  if lo + n ≤ bytes.length then .ok (slice bytes lo n) else .error .panicked

/-- `a.checked_add(b)`. -/
def checkedAdd (a b : ℕ) : Except Halt ℕ :=
  if a + b < 2 ^ 64 then .ok (a + b) else .error (.failed .corruptedHeader)

/-- `bytes.get(lo..lo.checked_add(n)?)?`. -/
def ranged (bytes : List Byte) (lo n : ℕ) : Except Halt (List Byte) := do
  let hi ← checkedAdd lo n
  if hi ≤ bytes.length then .ok (slice bytes lo n) else .error (.failed .corruptedHeader)

def reported {α : Type} : Except ArenaError α → Except Halt α
  | .ok x => .ok x
  | .error e => .error (.failed e)

def parseHeader (bytes : List Byte) : Except Halt BlobMapFileHeader := do
  let magic ← indexed bytes 0 8
  let version ← indexed bytes 8 4
  let flags ← indexed bytes 12 4
  let entryCount ← indexed bytes 16 8
  let indexOffset ← indexed bytes 24 8
  let arenaOffset ← indexed bytes 32 8
  let totalSize ← indexed bytes 40 8
  let chunkSize ← indexed bytes 48 8
  let chunkCount ← indexed bytes 56 8
  return ⟨magic, ofLe version, ofLe flags, ofLe entryCount, ofLe indexOffset, ofLe arenaOffset,
    ofLe totalSize, ofLe chunkSize, ofLe chunkCount⟩

def checkHeader (bytes : List Byte) (h : BlobMapFileHeader) : Except Halt Unit :=
  if h.magic ≠ EXPANSE_MAGIC then .error (.failed .corruptedHeader)
  else if h.version ≠ EXPANSE_FORMAT_VERSION then
    .error (.failed (.unsupportedFormatVersion h.version EXPANSE_FORMAT_VERSION))
  else if h.totalSize > bytes.length ∨ h.totalSize < 64 then .error (.failed .corruptedHeader)
  else if h.chunkSize < 4096 ∨ h.chunkSize > MAX_CHUNK_CAPACITY then .error (.failed .corruptedHeader)
  else if h.chunkCount > MAX_ARENA_CHUNKS then .error (.failed .corruptedHeader)
  else if h.chunkSize % ARENA_ALIGN ≠ 0 then .error (.failed .corruptedHeader)
  else if h.chunkCount * h.chunkSize ≥ 2 ^ 64 then .error (.failed .corruptedHeader)
  else if h.chunkCount * h.chunkSize > ARENA_META_CEILING then .error (.failed .corruptedHeader)
  else if h.chunkCount > bytes.length / 24 then .error (.failed .corruptedHeader)
  else if h.entryCount > bytes.length / 16 then .error (.failed .corruptedHeader)
  else if h.arenaOffset > bytes.length ∨ h.indexOffset > bytes.length then .error (.failed .corruptedHeader)
  else .ok ()

/-- Read `n` chunks from `pos` on. The last chunk's generation is carried along. -/
def loadChunks (heap : ℕ → Bool) (bytes : List Byte) (chunkSize : ℕ) :
    ℕ → ℕ → BlobArena → Option ℕ → Except Halt (BlobArena × Option ℕ)
  | 0, _, arena, loaded => .ok (arena, loaded)
  | n + 1, pos, arena, _ => do
    let head ← ranged bytes pos 24
    let cap ← indexed head 0 8
    let cur ← indexed head 8 8
    let generation ← indexed head 16 4
    let pos ← checkedAdd pos 24
    if ofLe cap = 0 ∨ ofLe cap > MAX_CHUNK_CAPACITY ∨ ofLe cap ≠ chunkSize ∨ ofLe cur > ofLe cap ∨
        ofLe generation = 0 then .error (.failed .corruptedHeader)
    else
      let data ← ranged bytes pos (ofLe cur)
      let chunk ← reported
        (ArenaChunk.fromRawParts (heap arena.chunks.length) (ofLe cap) (ofLe cur) (ofLe generation) data)
      let padded ← checkedAdd (ofLe cur) 15
      let pos ← checkedAdd pos (padded / 16 * 16)
      loadChunks heap bytes chunkSize n pos (arena.pushChunk chunk) (some (ofLe generation))

def BlobArena.adopt (a : BlobArena) : Option ℕ → BlobArena
  | some g => { a with generation := g }
  | none => a

/-- Charge the record of a loaded slot word. A debug build would panic where the sum wraps. -/
def BlobArena.chargeLoaded (a : BlobArena) (raw : ℕ) : BlobArena :=
  if ValueSlot.tag raw = .arenaMeta then
    match a.resolveMeta (ValueSlot.arenaMetaLocator raw) with
    | some data => { a with liveBytes := addUsize a.liveBytes (8 + data.length) }
    | none => a
  else a

/-- Read `n` index entries from `pos` on. -/
def loadEntries (bytes : List Byte) : ℕ → ℕ → BlobMap → Except Halt BlobMap
  | 0, _, m => .ok m
  | n + 1, pos, m => do
    let entry ← ranged bytes pos 16
    let key ← indexed entry 0 8
    let raw ← indexed entry 8 8
    let pos ← checkedAdd pos 16
    loadEntries bytes n pos
      { m with index := put (ofLe key) (ofLe raw) m.index, arena := m.arena.chargeLoaded (ofLe raw) }

namespace BlobMap

/-- `heap i` is the global allocator's answer to the `i`-th chunk. -/
def fromBytesSliceWithMaxCapacity (heap : ℕ → Bool) (bytes : List Byte) (maxCapacity : ℕ) :
    Except Halt BlobMap :=
  if bytes.length < 64 then .error (.failed .corruptedHeader)
  else do
    let h ← parseHeader bytes
    checkHeader bytes h
    let m := withChunkSizeAndMaxCapacity h.chunkSize maxCapacity
    if h.chunkCount * h.chunkSize > m.arena.maxCapacity then .error (.failed .offsetOverflow)
    else
      let (arena, loaded) ← loadChunks heap bytes h.chunkSize h.chunkCount h.arenaOffset m.arena none
      loadEntries bytes h.entryCount h.indexOffset { m with arena := arena.adopt loaded }

end BlobMap

end Expanse.Blob
