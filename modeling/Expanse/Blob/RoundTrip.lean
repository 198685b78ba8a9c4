import Mathlib
import Expanse.Blob.ImageSpec
import Expanse.Blob.Reclaim

/-!
# Saving and loading

An image says what the map it was saved from has: its header, its entries and its chunks
read back field by field. Loading it gives a map with the same index and the same chunks,
so a run may save and load at any point. The generation is stored with the chunks, and a
map without chunks is loaded with generation 1.
-/

namespace Expanse.Blob

open Arrays Bytes SortedAssoc ValueSlot Runs Intervals

variable {bytes l : List Byte} {heap : ℕ → Bool} {pos size : ℕ}

/-- Every field of a header fits the bytes it is written in. -/
structure BlobMapFileHeader.Fits (h : BlobMapFileHeader) : Prop where
  magic : h.magic.length = 8
  version : h.version < 256 ^ 4
  flags : h.flags < 256 ^ 4
  entryCount : h.entryCount < 256 ^ 8
  indexOffset : h.indexOffset < 256 ^ 8
  arenaOffset : h.arenaOffset < 256 ^ 8
  totalSize : h.totalSize < 256 ^ 8
  chunkSize : h.chunkSize < 256 ^ 8
  chunkCount : h.chunkCount < 256 ^ 8

theorem imageHeader_eq {h : BlobMapFileHeader} (hf : h.Fits) (hat : At bytes 0 (h.bytes ++ l)) :
    imageHeader bytes = h ∧ At bytes 64 l := by
  rw [BlobMapFileHeader.bytes] at hat
  simp only [List.append_assoc] at hat
  have h₀ := hat.slice_eq
  have h₁ := hat.next
  rw [hf.magic] at h₀ h₁
  rw [Nat.zero_add] at h₁
  have h₂ := field_next h₁
  have h₃ := field_next h₂
  have h₄ := field_next h₃
  have h₅ := field_next h₄
  have h₆ := field_next h₅
  have h₇ := field_next h₆
  have h₈ := field_next h₇
  refine ⟨?_, field_next h₈⟩
  rw [imageHeader, h₀, field_eq h₁ hf.version, field_eq h₂ hf.flags, field_eq h₃ hf.entryCount,
    field_eq h₄ hf.indexOffset, field_eq h₅ hf.arenaOffset, field_eq h₆ hf.totalSize,
    field_eq h₇ hf.chunkSize, field_eq h₈ hf.chunkCount]

theorem imageEntries_eq {es : List (ℕ × ℕ)} (hes : ∀ e ∈ es, e.1 < 2 ^ 64 ∧ e.2 < 2 ^ 64)
    (hat : At bytes pos (es.flatMap entryBytes ++ l)) :
    imageEntries bytes es.length pos = es ∧ At bytes (pos + es.length * 16) l := by
  induction es generalizing pos with
  | nil => exact ⟨rfl, by simpa using hat⟩
  | cons e es ih =>
    obtain ⟨hkey, hraw⟩ := hes e List.mem_cons_self
    rw [List.flatMap_cons, entryBytes] at hat
    simp only [List.append_assoc] at hat
    have h₁ := field_next hat
    have h₂ := field_next h₁
    obtain ⟨heq, hrest⟩ := ih (fun x hx => hes x (List.mem_cons_of_mem e hx)) h₂
    refine ⟨?_, ?_⟩
    · rw [List.length_cons, imageEntries, field_eq hat hkey, field_eq h₁ hraw, heq]
    · rw [List.length_cons, Nat.add_mul, Nat.one_mul, Nat.add_comm _ 16, ← Nat.add_assoc]
      exact hrest

theorem loadEntries_succeeds {n : ℕ} (m : BlobMap) (hfit : pos + n * 16 ≤ bytes.length)
    (hlen : bytes.length < 2 ^ 63) : ∃ m', loadEntries bytes n pos m = .ok m' := by
  induction n generalizing pos m with
  | zero => exact ⟨m, rfl⟩
  | succ n ih =>
    have hin : pos + 16 ≤ bytes.length := by omega
    have hentry : (slice bytes pos 16).length = 16 := length_slice hin
    rw [loadEntries, ranged, checkedAdd, if_pos (by omega), ok_bind, if_pos hin, ok_bind, indexed_eq (by omega),
      ok_bind, indexed_eq (by omega), ok_bind, ok_bind]
    exact ih _ (by omega)

theorem length_chunkBytes (c : ArenaChunk) : (chunkBytes c).length = 24 + alignUp c.cursor := by
  have hle := alignUp_ge c.cursor
  simp only [chunkBytes, List.length_append, length_le, List.length_replicate]
  rw [ArenaChunk.cursor] at hle ⊢
  omega

/-- A chunk of a sound arena, in bytes, reads back. -/
structure ChunkAt (bytes : List Byte) (pos : ℕ) (c : ArenaChunk) (l : List Byte) : Prop where
  capacity : ofLe (slice bytes pos 8) = c.capacity
  cursor : ofLe (slice bytes (pos + 8) 8) = c.cursor
  generation : ofLe (slice bytes (pos + 16) 4) = c.generation
  data : slice bytes (pos + 24) c.cursor = c.bytes
  next : At bytes (pos + 24 + alignUp c.cursor) l
  fits : pos + 24 + alignUp c.cursor ≤ bytes.length

theorem chunkAt {c : ArenaChunk} (hc : c.Sound size) (hsize : size ≤ MAX_CHUNK_CAPACITY)
    (hat : At bytes pos (chunkBytes c ++ l)) : ChunkAt bytes pos c l := by
  have hend := hat.next
  have hlen := hat.length_eq
  rw [length_chunkBytes, ← Nat.add_assoc] at hend
  rw [List.length_append, length_chunkBytes] at hlen
  have hmax : MAX_CHUNK_CAPACITY < 256 ^ 8 := by decide
  have hcap := hc.capacity
  have hcur := hc.cursor_le
  rw [chunkBytes] at hat
  simp only [List.append_assoc] at hat
  have h₁ := field_next hat
  have h₂ := field_next h₁
  have h₃ := field_next h₂
  have h₄ := field_next h₃
  exact ⟨field_eq hat (by omega), field_eq h₁ (by omega), field_eq h₂ hc.gen_lt, h₄.slice_eq, hend, by omega⟩

theorem ChunkAt.imageChunk_eq {c : ArenaChunk} (h : ChunkAt bytes pos c l) : imageChunk bytes pos = c := by
  rw [imageChunk, h.capacity, h.generation, h.cursor, h.data]

theorem imageChunks_eq {cs : List ArenaChunk} (hcs : ∀ c ∈ cs, c.Sound size) (hsize : size ≤ MAX_CHUNK_CAPACITY)
    (hat : At bytes pos (cs.flatMap chunkBytes ++ l)) : imageChunks bytes cs.length pos = cs := by
  induction cs generalizing pos with
  | nil => rfl
  | cons c cs ih =>
    rw [List.flatMap_cons, List.append_assoc] at hat
    have hc := chunkAt (hcs c List.mem_cons_self) hsize hat
    rw [List.length_cons, imageChunks, hc.imageChunk_eq, hc.cursor,
      ih (fun x hx => hcs x (List.mem_cons_of_mem c hx)) hc.next]

theorem fromRawParts_eq {c : ArenaChunk} (hc : c.Sound size) (hsize : size ≤ MAX_CHUNK_CAPACITY)
    (hpos : 0 < size) :
    ArenaChunk.fromRawParts true c.capacity c.cursor c.generation c.bytes = .ok c := by
  have hcap := hc.capacity
  have hcur := hc.cursor_le
  have hlen : c.bytes.length = c.cursor := rfl
  rw [ArenaChunk.fromRawParts, if_neg (by omega), ArenaChunk.new, if_neg (by omega), if_pos rfl, ok_bind,
    pure_eq_ok, List.take_of_length_le hlen.le, hlen, Nat.sub_self, List.replicate_zero, List.append_nil]

theorem loadChunks_succeeds {cs : List ArenaChunk} (arena : BlobArena) (loaded : Option ℕ)
    (hcs : ∀ c ∈ cs, c.Sound size) (hsize : size ≤ MAX_CHUNK_CAPACITY) (hpos : 0 < size)
    (hlen : bytes.length < 2 ^ 63) (hheap : ∀ i < cs.length, heap (arena.chunks.length + i) = true)
    (hat : At bytes pos (cs.flatMap chunkBytes ++ l)) :
    ∃ r, loadChunks heap bytes size cs.length pos arena loaded = .ok r := by
  induction cs generalizing pos arena loaded with
  | nil => exact ⟨_, rfl⟩
  | cons c cs ih =>
    rw [List.flatMap_cons, List.append_assoc] at hat
    have hsound := hcs c List.mem_cons_self
    have hc := chunkAt hsound hsize hat
    have hfits := hc.fits
    have hge := alignUp_ge c.cursor
    have hin : pos + 24 ≤ bytes.length := by omega
    have hhead : (slice bytes pos 24).length = 24 := length_slice hin
    have hcap := hsound.capacity
    have hcur := hsound.cursor_le
    have hgen := hsound.gen_pos
    have hfirst : heap arena.chunks.length = true := hheap 0 (Nat.succ_pos _)
    have hpad : (c.cursor + 15) / 16 * 16 = alignUp c.cursor := rfl
    have hbounded : c.cursor + 15 < 2 ^ 64 := by
      have hmax : MAX_CHUNK_CAPACITY < 2 ^ 63 := by decide
      omega
    rw [List.length_cons, loadChunks, ranged, checkedAdd, if_pos (by omega), ok_bind, if_pos hin, ok_bind,
      indexed_eq (by omega), ok_bind, indexed_eq (by omega), ok_bind, indexed_eq (by omega), ok_bind, ok_bind,
      slice_slice _ _ _ _ _ (by decide), slice_slice _ _ _ _ _ (by decide), slice_slice _ _ _ _ _ (by decide),
      Nat.add_zero, hc.capacity, hc.cursor, hc.generation, if_neg (by omega), ranged, checkedAdd,
      if_pos (by omega), ok_bind, if_pos (by omega), ok_bind, hc.data, hfirst, fromRawParts_eq hsound hsize hpos,
      reported, ok_bind, checkedAdd, if_pos hbounded, ok_bind, hpad, checkedAdd, if_pos (by omega), ok_bind]
    refine ih _ _ (fun x hx => hcs x (List.mem_cons_of_mem c hx)) (fun i hi => ?_) hc.next
    have hnext := hheap (i + 1) (Nat.succ_lt_succ hi)
    show heap ((arena.chunks ++ [c]).length + i) = true
    rw [List.length_append, List.length_singleton, Nat.add_assoc, Nat.add_comm 1 i]
    exact hnext

namespace BlobMap

variable {m m' : BlobMap} {maxCapacity : ℕ}

/-- The bytes `saveToWriter` writes. -/
def image (m : BlobMap) : List Byte := m.saveToWriter.1

theorem length_image (m : BlobMap) : m.image.length = m.header.totalSize := by
  have hentries : (m.index.flatMap entryBytes).length = m.index.length * 16 := by
    induction m.index with
    | nil => rfl
    | cons e es ih =>
      rw [List.flatMap_cons, List.length_append, ih, entryBytes, List.length_append, length_le, length_le,
        List.length_cons]
      omega
  have hchunks : (m.arena.chunks.flatMap chunkBytes).length =
      (m.arena.chunks.map fun c => 24 + alignUp c.cursor).sum := by
    rw [List.length_flatMap]
    simp only [length_chunkBytes]
  have hheader : m.header.bytes.length = 64 := by
    simp [BlobMapFileHeader.bytes, header, EXPANSE_MAGIC]
  rw [image, saveToWriter, List.length_append, List.length_append, hheader, hentries, hchunks, ← Nat.add_assoc]
  rfl

/-- The sections of an image. -/
structure ImageOf (m : BlobMap) : Prop where
  header : imageHeader m.image = m.header
  entries : entriesOf m.image = m.index
  chunks : chunksOf m.image = m.arena.chunks
  chunksAt : At m.image m.header.arenaOffset (m.arena.chunks.flatMap chunkBytes ++ [])
  entries_le : 64 + m.index.length * 16 ≤ m.image.length
  chunks_le : 24 * m.arena.chunks.length ≤ m.image.length

theorem imageOf (hs : m.Sound) (hlen : m.image.length < 2 ^ 63) : ImageOf m := by
  have hmax : MAX_CHUNK_CAPACITY < 256 ^ 8 := by decide
  have hcounts : MAX_ARENA_CHUNKS < 256 ^ 8 := by decide
  have hcount := hs.arena.count
  have hsize := hs.arena.size_le
  have htotal := length_image m
  have harena : m.header.totalSize =
      64 + m.index.length * 16 + (m.arena.chunks.map fun c => 24 + alignUp c.cursor).sum := rfl
  have hfits : m.header.Fits := by
    refine ⟨rfl, show EXPANSE_FORMAT_VERSION < 256 ^ 4 by decide, show 0 < 256 ^ 4 by decide, ?_,
      show 64 < 256 ^ 8 by decide, ?_, ?_, ?_, ?_⟩
    · show m.index.length < _
      omega
    · show 64 + m.index.length * 16 < _
      omega
    · omega
    · show m.arena.chunkSize < _
      omega
    · show m.arena.chunks.length < _
      omega
  have hat : At m.image 0 (m.header.bytes ++ (m.index.flatMap entryBytes ++
      (m.arena.chunks.flatMap chunkBytes ++ []))) := by
    rw [List.append_nil]
    exact at_zero _
  obtain ⟨hheader, hat⟩ := imageHeader_eq hfits hat
  obtain ⟨hentries, hat⟩ := imageEntries_eq (fun e he => ⟨hs.backed.key_lt e he, hs.backed.raw_lt e he⟩) hat
  have hchunks := imageChunks_eq hs.arena.chunk hs.arena.size_le hat
  have hsum : 24 * m.arena.chunks.length ≤ (m.arena.chunks.map fun c => 24 + alignUp c.cursor).sum := by
    induction m.arena.chunks with
    | nil => exact Nat.le_refl _
    | cons c cs ih =>
      rw [List.length_cons, List.map_cons, List.sum_cons]
      omega
  refine ⟨hheader, ?_, ?_, hat, by omega, by omega⟩
  · rw [entriesOf, hheader]
    exact hentries
  · rw [chunksOf, hheader]
    exact hchunks

theorem indexOf_append {index es : List (ℕ × ℕ)} (hs : KeySorted (index ++ es)) :
    indexOf index es = index ++ es := by
  induction es generalizing index with
  | nil => exact (List.append_nil index).symm
  | cons e es ih =>
    obtain ⟨k, v⟩ := e
    have hlt : ∀ x ∈ index, x.1 < k := fun x hx =>
      (List.pairwise_append.mp hs).2.2 x hx (k, v) List.mem_cons_self
    have hput : put k v (index ++ []) = index ++ [(k, v)] := put_append hlt
    rw [List.append_nil] at hput
    have hsorted : KeySorted ((index ++ [(k, v)]) ++ es) := by
      rw [List.append_assoc]
      exact hs
    show indexOf (put k v index) es = _
    rw [hput, ih hsorted, List.append_assoc]
    rfl

theorem checkHeader_succeeds (hs : m.Sound) (hi : ImageOf m) : checkHeader m.image m.header = .ok () := by
  have hsize := hs.arena.size_le
  have hge := hs.arena.size_ge
  have hmod := hs.arena.size_mod
  have hcount := hs.arena.count
  have hlen := length_image m
  have hentries := hi.entries_le
  have hchunks := hi.chunks_le
  have hbytes : m.arena.chunks.length * m.arena.chunkSize ≤ ARENA_META_CEILING := by
    rw [← hs.arena.total]
    exact hs.arena.total_le.trans hs.arena.cap_le
  have hceil : ARENA_META_CEILING < 2 ^ 64 := by decide
  have h₁ : m.header.chunkSize = m.arena.chunkSize := rfl
  have h₂ : m.header.chunkCount = m.arena.chunks.length := rfl
  have h₃ : m.header.entryCount = m.index.length := rfl
  have h₄ : m.header.indexOffset = 64 := rfl
  have h₅ : m.header.arenaOffset = 64 + m.index.length * 16 := rfl
  have hmagic : ¬ m.header.magic ≠ EXPANSE_MAGIC := not_not.mpr rfl
  have hversion : ¬ m.header.version ≠ EXPANSE_FORMAT_VERSION := not_not.mpr rfl
  rw [checkHeader, if_neg hmagic, if_neg hversion, if_neg (by omega), h₁, h₂,
    if_neg (by omega), if_neg (by omega), if_neg (by rw [ARENA_ALIGN]; omega), if_neg (by omega),
      if_neg (by omega), if_neg (by omega), if_neg (by omega), if_neg (by omega)]

/-- The cap a loader with the given argument has for the images of a map. -/
def loaderCap (m : BlobMap) (maxCapacity : ℕ) : ℕ := clamp maxCapacity m.arena.chunkSize ARENA_META_CEILING

theorem load_succeeds (hs : m.Sound) (hlen : m.image.length < 2 ^ 63)
    (hcap : m.arena.totalAllocated ≤ m.loaderCap maxCapacity)
    (hheap : ∀ i < m.arena.chunks.length, heap i = true) :
    ∃ m', fromBytesSliceWithMaxCapacity heap m.image maxCapacity = .ok m' := by
  have hi := imageOf hs hlen
  have hentries := hi.entries_le
  set m₀ := withChunkSizeAndMaxCapacity m.arena.chunkSize maxCapacity with hm₀
  have hcap₀ : m₀.arena.maxCapacity = m.loaderCap maxCapacity := by
    show clamp maxCapacity (alignUp (clamp m.arena.chunkSize 4096 MAX_CHUNK_CAPACITY)) _ = _
    rw [clamp_of_le hs.arena.size_ge hs.arena.size_le, alignUp_of_mod hs.arena.size_mod]
    rfl
  have hheap₀ : ∀ i < m.arena.chunks.length, heap (m₀.arena.chunks.length + i) = true := by
    intro i hi
    rw [show m₀.arena.chunks = [] from rfl, List.length_nil, Nat.zero_add]
    exact hheap i hi
  have hge := hs.arena.size_ge
  obtain ⟨⟨arena, loaded⟩, hr⟩ := loadChunks_succeeds m₀.arena none hs.arena.chunk hs.arena.size_le
    (by omega) hlen hheap₀ hi.chunksAt
  obtain ⟨m', hm'⟩ := loadEntries_succeeds { m₀ with arena := arena.adopt loaded } hentries hlen
  refine ⟨m', ?_⟩
  have hover : ¬ m.header.chunkCount * m.header.chunkSize > m₀.arena.maxCapacity := by
    show ¬ m.arena.chunks.length * m.arena.chunkSize > _
    rw [← hs.arena.total]
    omega
  rw [fromBytesSliceWithMaxCapacity, if_neg (by omega), parseHeader_eq (by omega), ok_bind, hi.header,
    checkHeader_succeeds hs hi, ok_bind]
  show (if m.header.chunkCount * m.header.chunkSize > m₀.arena.maxCapacity then _ else _) = _
  rw [if_neg hover]
  show loadChunks heap m.image m.arena.chunkSize m.arena.chunks.length m.header.arenaOffset m₀.arena
    none >>= _ = _
  rw [hr, ok_bind]
  exact hm'

end BlobMap

open BlobMap

variable {m m' : BlobMap} {maxCapacity : ℕ}

/-- What the map loaded from the image of a map has. -/
structure Reloaded (m m' : BlobMap) : Prop where
  index : m'.index = m.index
  chunks : m'.arena.chunks = m.arena.chunks
  size : m'.arena.chunkSize = m.arena.chunkSize
  get_eq : m'.get = m.get
  live : m'.arena.liveBytes = m.arena.liveBytes
  generation : m'.arena.generation = (m.arena.chunks.getLast?.map ArenaChunk.generation).getD 1
  sound : m'.Sound
  accounted : m'.Accounted

/-- The records an index names lie inside the chunk bytes. -/
theorem Exact.total_le {a : BlobArena} {index : List (ℕ × ℕ)} (h : Exact a index []) (hs : a.Sound)
    (hb : Backed a index) : total (spans a index) ≤ a.totalAllocated := by
  refine sum_le h.apart fun x hx => ?_
  obtain ⟨d, hd, hlen⟩ := mem_spans (fun e he ht => hb.resolves he ht) hx
  rw [hlen]
  exact hs.span_le hd

theorem reloaded_of_load (hs : m.Sound) (ha : m.Accounted) (hlen : m.image.length < 2 ^ 63)
    (h : fromBytesSliceWithMaxCapacity heap m.image maxCapacity = .ok m') : Reloaded m m' := by
  have hi := imageOf hs hlen
  have hl := load_ok h
  have hindex : indexOf [] (entriesOf m.image) = m.index := by
    rw [hi.entries]
    exact indexOf_append hs.backed.sorted
  have hchunks : m'.arena.chunks = m.arena.chunks := by rw [hl.chunks, hi.chunks]
  have hsize : m'.arena.chunkSize = m.arena.chunkSize := by
    rw [hl.size, hi.header]
    rfl
  have hslice : ∀ x, m'.arena.getBlobSlice x = m.arena.getBlobSlice x := by
    intro x
    rw [BlobArena.getBlobSlice, BlobArena.getBlobSlice, hchunks, hsize]
  have hkeeps : Keeps m.arena m'.arena := fun x d hx => by rw [hslice, hx]
  have hkeeps' : Keeps m'.arena m.arena := fun x d hx => by rw [← hslice, hx]
  have hkept : Keeps (imageArena m.image) m.arena := fun x d hx => hkeeps' x d (hl.keeps.1 x d hx)
  have hkept' : Keeps m.arena (imageArena m.image) := fun x d hx => hl.keeps.2 x d (hkeeps x d hx)
  have hsmall : total (spans m.arena m.index) < 2 ^ 64 := by
    have hle := (ha.total_le hs.arena hs.backed).trans (hs.arena.total_le.trans hs.arena.cap_le)
    have hceil : ARENA_META_CEILING < 2 ^ 64 := by decide
    omega
  have haligned : ∀ c ∈ chunksOf m.image, c.cursor % 16 = 0 := by
    rw [hi.chunks]
    exact fun c hc => (hs.arena.chunk c hc).cursor_mod
  have hshown : ∀ e ∈ indexOf [] (entriesOf m.image), (value (imageArena m.image) e.2).isSome := by
    rw [hindex]
    intro e he
    rw [value_congr hkept hkept']
    exact hs.backed.shown e he
  have hidx : m'.index = m.index := by rw [hl.index, hindex]
  have hspans : spans m'.arena m'.index = spans m.arena m.index := by rw [hidx, spans_congr hkeeps' hkeeps]
  have hlive : m'.arena.liveBytes = total (spans m'.arena m'.index) := by
    rw [hl.live, hi.entries, hidx, spans_congr hkeeps' hkeeps, Nat.mod_eq_of_lt hsmall]
  have hgen : m'.arena.generation = (m.arena.chunks.getLast?.map ArenaChunk.generation).getD 1 := by
    rw [hl.generation, hi.chunks]
  refine ⟨hidx, hchunks, hsize, ?_, ?_, hgen, hl.sound haligned hshown, ⟨?_, hlive, ?_⟩⟩
  · funext key
    rw [Blob.get_eq, Blob.get_eq, hidx, funext (value_congr hkeeps' hkeeps)]
  · rw [hlive, hspans]
    exact ha.live.symm
  · rw [hspans]
    exact ha.apart
  · intro c hc
    rw [hchunks] at hc
    rw [hgen]
    cases hlast : m.arena.chunks.getLast? with
    | none =>
      rw [List.getLast?_eq_none_iff.mp hlast] at hc
      cases hc
    | some c' => rw [ha.uniform c hc, Option.map_some, Option.getD_some,
        ha.uniform c' (List.mem_of_getLast? hlast)]

/-- A call, or saving the map and going on with the map loaded from its image. -/
inductive Action where
  | call (op : Op)
  | reload (heap : ℕ → Bool) (maxCapacity : ℕ)

/-- How an action ends; an image longer than a slice can be is not loaded. -/
inductive Ending where
  | answered (out : Out)
  | loaded
  | notLoaded (e : Halt)
  | tooLong

def reload (heap : ℕ → Bool) (maxCapacity : ℕ) (m : BlobMap) : Ending × BlobMap :=
  if m.image.length < 2 ^ 63 then
    match fromBytesSliceWithMaxCapacity heap m.image maxCapacity with
    | .ok m' => (.loaded, m')
    | .error e => (.notLoaded e, m)
  else (.tooLong, m)

def act (m : BlobMap) : Action → Ending × BlobMap
  | .call op => (.answered (m.step op).1, (m.step op).2)
  | .reload heap maxCapacity => reload heap maxCapacity m

theorem reload_kept (heap : ℕ → Bool) (maxCapacity : ℕ) (hs : m.Sound) (ha : m.Accounted) :
    (reload heap maxCapacity m).2.get = m.get ∧ (reload heap maxCapacity m).2.Sound ∧
      (reload heap maxCapacity m).2.Accounted := by
  unfold reload
  split_ifs with hlen
  · cases hload : fromBytesSliceWithMaxCapacity heap m.image maxCapacity with
    | ok m' =>
      have hr := reloaded_of_load hs ha hlen hload
      exact ⟨hr.get_eq, hr.sound, hr.accounted⟩
    | error e => exact ⟨rfl, hs, ha⟩
  · exact ⟨rfl, hs, ha⟩

/-- The partial map of a run: a call answers as it may, and a reload keeps the contents. -/
inductive Lives (f : Contents) : Action → Ending → Contents → Prop
  | call {op : Op} {out : Out} {f' : Contents} (h : Answers f op out f') : Lives f (.call op) (.answered out) f'
  | reload (heap : ℕ → Bool) (maxCapacity : ℕ) (e : Ending) : Lives f (.reload heap maxCapacity) e f

def lived (start : Start) (acts : List Action) : BlobMap := (refRun act start.map acts).2

theorem act_lives (hs : m.Sound) (ha : m.Accounted) (action : Action) :
    Lives m.get action (act m action).1 (act m action).2.get ∧
      (act m action).2.Sound ∧ (act m action).2.Accounted := by
  cases action with
  | call op =>
    have hp := step_proceeds hs op
    exact ⟨.call hp.answers, hp.sound, hp.accounted ha⟩
  | reload heap maxCapacity =>
    obtain ⟨hget, hkept⟩ := reload_kept heap maxCapacity hs ha
    refine ⟨?_, hkept⟩
    show Lives m.get (.reload heap maxCapacity) _ (reload heap maxCapacity m).2.get
    rw [hget]
    exact .reload heap maxCapacity _

/-- A run shows the contents of its partial map, and keeps layout and accounts. -/
theorem lived_traces (start : Start) (acts : List Action) :
    Traces Lives (fun _ => none) acts (refRun act start.map acts).1 (lived start acts).get ∧
      (lived start acts).Sound ∧ (lived start acts).Accounted := by
  obtain ⟨f, htr, hf, hs, ha⟩ := refRun_traces
    (I := fun (s : BlobMap) (f : Contents) => f = s.get ∧ s.Sound ∧ s.Accounted) (R := Lives)
    (fun s f action hI => by
      obtain ⟨rfl, hs, ha⟩ := hI
      have h := act_lives hs ha action
      exact ⟨_, h.1, rfl, h.2⟩)
    acts ⟨(start_get start).symm, start_sound start, start_accounted start⟩
  rw [hf] at htr
  exact ⟨htr, hs, ha⟩

theorem saveToWriter_congr (hi : m'.index = m.index) (hc : m'.arena.chunks = m.arena.chunks)
    (hs : m'.arena.chunkSize = m.arena.chunkSize) : m'.saveToWriter = m.saveToWriter := by
  rw [saveToWriter, saveToWriter, header, header, BlobMap.len, BlobMap.len, hi, hc, hs]

theorem last_generation (ha : m.Accounted) :
    (m.arena.chunks.getLast?.map ArenaChunk.generation).getD 1 = m.arena.generation ↔
      m.arena.chunks ≠ [] ∨ m.arena.generation = 1 := by
  cases hlast : m.arena.chunks.getLast? with
  | none =>
    rw [List.getLast?_eq_none_iff.mp hlast]
    simp [eq_comm]
  | some c =>
    have hmem := List.mem_of_getLast? hlast
    have hne : m.arena.chunks ≠ [] := List.ne_nil_of_mem hmem
    simp [ha.uniform c hmem, hne]

def IsRecord (m : BlobMap) (key : Key) (raw : ℕ) : Prop :=
  m.index.lookup key.val = some raw ∧ tag raw = .arenaMeta

/-- The bytes a slot word names, header included. -/
def extent (m : BlobMap) (raw : ℕ) : ℕ × ℕ := (arenaMetaLocator raw * ARENA_ALIGN, charge m.arena raw)

/-- What holds of a map that has stored the contents `f`. -/
structure Layout (m : BlobMap) (f : Contents) : Prop where
  /-- An arena slot resolves to the record written for its key. -/
  resolves : ∀ key raw, IsRecord m key raw →
    ∃ v, f key = some v ∧ m.arena.resolveMeta (arenaMetaLocator raw) = some v.1 ∧ arenaMetaMeta raw = v.2 ∧
      extent m raw = (arenaMetaLocator raw * ARENA_ALIGN, 8 + v.1.length)
  apart : ∀ key key' raw raw', IsRecord m key raw → IsRecord m key' raw' → key ≠ key' →
    Apart (extent m raw) (extent m raw')
  /-- The offset of a record is the one its locator names. -/
  exact : ∀ key raw, IsRecord m key raw → (extent m raw).1 % ARENA_ALIGN = 0 ∧
    (extent m raw).1 < ARENA_META_CEILING ∧
    ∃ hotMeta, slotFromGlobal (extent m raw).1 hotMeta = .ok raw
  /-- A record that is written next has such an offset too. -/
  next : ∀ granted data g a', m.arena.allocBlob granted data = .ok (g, a') →
    g % ARENA_ALIGN = 0 ∧ g < ARENA_META_CEILING ∧ a'.getBlobSlice g = some data ∧
    ∀ hotMeta ≤ ARENA_META_MAX, ∃ slot, slotFromGlobal g hotMeta = .ok slot ∧
      arenaMetaLocator slot * ARENA_ALIGN = g
  cursor : ∀ c ∈ m.arena.chunks, c.cursor ≤ c.capacity
  live : m.arena.liveBytes = ((arenaEntries m.index).map fun e => charge m.arena e.2).sum
  total : m.arena.totalAllocated = m.arena.chunks.length * m.arena.chunkSize
  total_le : m.arena.totalAllocated ≤ m.arena.maxCapacity

theorem total_spans_arenaEntries (a : BlobArena) (index : List (ℕ × ℕ)) :
    total (spans a index) = ((arenaEntries index).map fun e => charge a e.2).sum := by
  rw [← spans_arenaEntries]
  have harena : ∀ e ∈ arenaEntries index, tag e.2 = .arenaMeta := fun e he => (mem_arenaEntries.mp he).2
  generalize arenaEntries index = es at harena ⊢
  induction es with
  | nil => rfl
  | cons e es ih =>
    rw [spans_cons, total_append, List.map_cons, List.sum_cons,
      ih fun x hx => harena x (List.mem_cons_of_mem e hx),
      spanOf, if_pos (harena e List.mem_cons_self)]
    simp [total]

theorem layout_of_sound (hs : m.Sound) (ha : m.Accounted) : Layout m m.get := by
  have hmem : ∀ key raw, IsRecord m key raw → (key.val, raw) ∈ m.index := fun key raw h =>
    (lookup_eq_some_iff hs.backed.sorted).mp h.1
  refine ⟨fun key raw h => ?_, fun key key' raw raw' h h' hne => ?_, fun key raw h => ?_,
    fun granted data g a' h => ?_, fun c hc => ?_, ?_, hs.arena.total, hs.arena.total_le⟩
  · obtain ⟨d, hd⟩ := hs.backed.resolves (hmem key raw h) h.2
    refine ⟨(d, arenaMetaMeta raw), ?_, hd, rfl, ?_⟩
    · rw [get_of_lookup h.1, value_arena h.2, hd, Option.map_some]
    · rw [extent, charge, hd]
  · have hpair := (List.pairwise_flatMap.mp ha.apart).2
    have hentries : (key.val, raw) ≠ (key'.val, raw') := fun heq => hne (Fin.ext (congrArg Prod.fst heq))
    have hsymm : Std.Symm fun e e' : ℕ × ℕ => ∀ x ∈ spanOf m.arena e.2, ∀ y ∈ spanOf m.arena e'.2, Apart x y :=
      ⟨fun e e' hap x hx y hy => (hap y hy x hx).symm⟩
    refine hpair.forall (hmem key raw h) (hmem key' raw' h') hentries _ ?_ _ ?_
    · rw [spanOf, if_pos h.2]
      exact List.mem_singleton_self _
    · rw [spanOf, if_pos h'.2]
      exact List.mem_singleton_self _
  · have hraw := hs.raw_lt h.1
    have hloc : arenaMetaLocator raw < 2 ^ 32 := arenaMetaLocator_lt
    have hmul : (extent m raw).1 % ARENA_ALIGN = 0 := Nat.mul_mod_left _ _
    have hlt : (extent m raw).1 < ARENA_META_CEILING := by
      show arenaMetaLocator raw * ARENA_ALIGN < ARENA_META_CEILING
      rw [ARENA_META_CEILING, ARENA_ALIGN]
      omega
    refine ⟨hmul, hlt, arenaMetaMeta raw, ?_⟩
    rw [slotFromGlobal_eq hmul hlt arenaMetaMeta_le]
    congr 1
    have hdiv : (extent m raw).1 / ARENA_ALIGN = arenaMetaLocator raw := Nat.mul_div_cancel _ (by decide)
    rw [hdiv]
    exact (eq_arenaWord h.2 hraw).symm
  · have hal := BlobArena.allocBlob_spec hs.arena h
    refine ⟨hal.aligned, hal.below, hal.reads, fun hotMeta hmeta => ?_⟩
    exact ⟨_, slotFromGlobal_eq hal.aligned hal.below hmeta, locator_mul hal.aligned hal.below⟩
  · have hch := hs.arena.chunk c hc
    exact hch.cursor_le.trans hch.capacity.ge
  · rw [← total_spans_arenaEntries]
    exact ha.live

end Expanse.Blob
