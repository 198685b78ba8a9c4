import Mathlib
import Expanse.Blob.Image
import Expanse.Blob.MapSpec

/-!
# What a loaded map is

Loading never panics. A map that is loaded has the chunks the image lists and the index
its entries build, with the live bytes charged once for each entry. Every check that the
layout of an arena needs is made by the loader except one: a chunk's cursor may be any
number up to its capacity.
-/

namespace Expanse.Blob

open Arrays Bytes SortedAssoc ValueSlot Runs

variable {α β : Type} {bytes : List Byte} {heap : ℕ → Bool} {n pos lo : ℕ}

def Clean (x : Except Halt α) : Prop := x ≠ .error .panicked

theorem clean_ok (r : α) : Clean (.ok r : Except Halt α) := by
  intro h
  cases h

theorem clean_failed (e : ArenaError) : Clean (.error (.failed e) : Except Halt α) := by
  intro h
  cases h

theorem Clean.bind {x : Except Halt α} {f : α → Except Halt β} (hx : Clean x)
    (hf : ∀ r, x = .ok r → Clean (f r)) : Clean (x >>= f) := by
  cases x with
  | ok r => exact hf r rfl
  | error e =>
    intro h
    exact hx (by cases h; rfl)

theorem bind_eq_ok {x : Except Halt α} {f : α → Except Halt β} {r : β} :
    (x >>= f) = .ok r ↔ ∃ y, x = .ok y ∧ f y = .ok r := by
  cases x with
  | ok y => exact ⟨fun h => ⟨y, rfl, h⟩, fun ⟨z, hz, hr⟩ => by cases hz; exact hr⟩
  | error e =>
    refine ⟨fun h => ?_, fun ⟨z, hz, _⟩ => ?_⟩
    · cases h
    · cases hz

theorem indexed_eq (h : lo + n ≤ bytes.length) : indexed bytes lo n = .ok (slice bytes lo n) := if_pos h

theorem checkedAdd_clean (a b : ℕ) : Clean (checkedAdd a b) := by
  rw [checkedAdd]
  split_ifs
  · exact clean_ok _
  · exact clean_failed _

theorem checkedAdd_ok {a b r : ℕ} (h : checkedAdd a b = .ok r) : r = a + b := by
  rw [checkedAdd] at h
  split_ifs at h
  exact (Except.ok.inj h).symm

theorem ranged_clean (bytes : List Byte) (lo n : ℕ) : Clean (ranged bytes lo n) := by
  refine (checkedAdd_clean lo n).bind fun hi _ => ?_
  split_ifs
  · exact clean_ok _
  · exact clean_failed _

theorem ranged_ok {r : List Byte} (h : ranged bytes lo n = .ok r) :
    lo + n ≤ bytes.length ∧ r = slice bytes lo n := by
  obtain ⟨hi, hadd, h⟩ := bind_eq_ok.mp h
  rw [checkedAdd_ok hadd] at h
  split_ifs at h with hle
  exact ⟨hle, (Except.ok.inj h).symm⟩

theorem reported_clean (x : Except ArenaError α) : Clean (reported x) := by
  cases x with
  | ok r => exact clean_ok r
  | error e => exact clean_failed e

theorem slice_slice (l : List α) (i k j n : ℕ) (h : j + n ≤ k) :
    slice (slice l i k) j n = slice l (i + j) n := by
  apply List.ext_getElem?
  intro x
  simp only [getElem?_slice]
  split_ifs with h₁ h₂
  · rw [Nat.add_assoc]
  · omega
  · rfl

def imageHeader (bytes : List Byte) : BlobMapFileHeader :=
  ⟨slice bytes 0 8, ofLe (slice bytes 8 4), ofLe (slice bytes 12 4), ofLe (slice bytes 16 8),
    ofLe (slice bytes 24 8), ofLe (slice bytes 32 8), ofLe (slice bytes 40 8), ofLe (slice bytes 48 8),
    ofLe (slice bytes 56 8)⟩

/-- The chunk at `pos` of an image. -/
def imageChunk (bytes : List Byte) (pos : ℕ) : ArenaChunk :=
  ⟨ofLe (slice bytes pos 8), ofLe (slice bytes (pos + 16) 4),
    slice bytes (pos + 24) (ofLe (slice bytes (pos + 8) 8))⟩

def imageChunks (bytes : List Byte) : ℕ → ℕ → List ArenaChunk
  | 0, _ => []
  | n + 1, pos => imageChunk bytes pos :: imageChunks bytes n
      (pos + 24 + alignUp (ofLe (slice bytes (pos + 8) 8)))

def imageEntries (bytes : List Byte) : ℕ → ℕ → List (ℕ × ℕ)
  | 0, _ => []
  | n + 1, pos => (ofLe (slice bytes pos 8), ofLe (slice bytes (pos + 8) 8)) :: imageEntries bytes n (pos + 16)

def chunksOf (bytes : List Byte) : List ArenaChunk :=
  imageChunks bytes (imageHeader bytes).chunkCount (imageHeader bytes).arenaOffset

def entriesOf (bytes : List Byte) : List (ℕ × ℕ) :=
  imageEntries bytes (imageHeader bytes).entryCount (imageHeader bytes).indexOffset

/-- The index that entries build: the last one of each key. -/
def indexOf (index : List (ℕ × ℕ)) (es : List (ℕ × ℕ)) : List (ℕ × ℕ) :=
  es.foldl (fun index e => put e.1 e.2 index) index

/-- What the loader checks of a chunk. -/
structure ChunkChecked (size : ℕ) (c : ArenaChunk) : Prop where
  capacity : c.capacity = size
  cursor_le : c.cursor ≤ size
  gen_pos : 0 < c.generation
  gen_lt : c.generation < 2 ^ 32

/-- What reading `n` chunks does. -/
structure ChunksLoaded (heap : ℕ → Bool) (size : ℕ) (cs : List ArenaChunk) (arena arena' : BlobArena)
  (loaded loaded' : Option ℕ) :
    Prop where
  chunks : arena'.chunks = arena.chunks ++ cs
  checked : ∀ c ∈ cs, ChunkChecked size c
  total : arena'.totalAllocated = arena.totalAllocated + cs.length * size
  size_eq : arena'.chunkSize = arena.chunkSize
  cap_eq : arena'.maxCapacity = arena.maxCapacity
  live_eq : arena'.liveBytes = arena.liveBytes
  gen_eq : arena'.generation = arena.generation
  loaded_eq : loaded' = (cs.getLast?.map ArenaChunk.generation).or loaded
  granted : ∀ i < cs.length, heap (arena.chunks.length + i) = true

theorem fromRawParts_ok {granted : Bool} {cap cur g : ℕ} {data : List Byte} {c : ArenaChunk}
    (hlen : data.length = cur) (h : ArenaChunk.fromRawParts granted cap cur g data = .ok c) :
    granted = true ∧ c = ⟨cap, g, data⟩ := by
  rw [ArenaChunk.fromRawParts] at h
  split_ifs at h
  rw [ArenaChunk.new] at h
  split_ifs at h with _ hgranted
  · cases h
  · rw [ok_bind, pure_eq_ok] at h
    obtain rfl := Except.ok.inj h
    refine ⟨hgranted, ?_⟩
    rw [List.take_of_length_le hlen.le, hlen, Nat.sub_self, List.replicate_zero, List.append_nil]
  · cases h

theorem loadChunks_ok {size : ℕ} {arena arena' : BlobArena} {loaded loaded' : Option ℕ}
    (h : loadChunks heap bytes size n pos arena loaded = .ok (arena', loaded')) :
    ChunksLoaded heap size (imageChunks bytes n pos) arena arena' loaded loaded' ∧
      (imageChunks bytes n pos).length = n := by
  induction n generalizing pos arena loaded with
  | zero =>
    obtain ⟨rfl, rfl⟩ := Prod.mk.inj (Except.ok.inj h)
    exact ⟨⟨by simp [imageChunks], by simp [imageChunks], by simp [imageChunks], rfl, rfl, rfl, rfl, rfl,
      by simp [imageChunks]⟩, rfl⟩
  | succ n ih =>
    rw [loadChunks] at h
    obtain ⟨head, hhead, h⟩ := bind_eq_ok.mp h
    obtain ⟨hin, rfl⟩ := ranged_ok hhead
    have hlen : (slice bytes pos 24).length = 24 := length_slice hin
    rw [indexed_eq (by omega), ok_bind, indexed_eq (by omega), ok_bind,
      indexed_eq (by omega), ok_bind, slice_slice _ _ _ _ _ (by decide),
      slice_slice _ _ _ _ _ (by decide), slice_slice _ _ _ _ _ (by decide), Nat.add_zero] at h
    obtain ⟨pos', hpos, h⟩ := bind_eq_ok.mp h
    obtain rfl := checkedAdd_ok hpos
    split_ifs at h with hbad
    obtain ⟨data, hdata, h⟩ := bind_eq_ok.mp h
    obtain ⟨hdin, rfl⟩ := ranged_ok hdata
    have hdlen : (slice bytes (pos + 24) (ofLe (slice bytes (pos + 8) 8))).length =
        ofLe (slice bytes (pos + 8) 8) := length_slice hdin
    obtain ⟨c, hc, h⟩ := bind_eq_ok.mp h
    obtain ⟨padded, hpad, h⟩ := bind_eq_ok.mp h
    obtain rfl := checkedAdd_ok hpad
    obtain ⟨pos', hpos', h⟩ := bind_eq_ok.mp h
    obtain rfl := checkedAdd_ok hpos'
    change loadChunks heap bytes size n (pos + 24 + alignUp (ofLe (slice bytes (pos + 8) 8))) _ _ = _ at h
    have hchunk : heap arena.chunks.length = true ∧ c = imageChunk bytes pos := by
      cases hr : ArenaChunk.fromRawParts (heap arena.chunks.length) (ofLe (slice bytes pos 8))
          (ofLe (slice bytes (pos + 8) 8)) (ofLe (slice bytes (pos + 16) 4))
          (slice bytes (pos + 24) (ofLe (slice bytes (pos + 8) 8))) with
      | error e =>
        rw [hr] at hc
        cases hc
      | ok c' =>
        rw [hr] at hc
        rw [← Except.ok.inj hc]
        exact fromRawParts_ok hdlen hr
    have hgen : ofLe (slice bytes (pos + 16) 4) < 2 ^ 32 := by
      have hl : (slice bytes (pos + 16) 4).length = 4 := length_slice (by omega)
      have hlt : ofLe (slice bytes (pos + 16) 4) < 256 ^ (slice bytes (pos + 16) 4).length := ofLe_lt
      rw [hl] at hlt
      exact hlt
    obtain ⟨ihl, ihn⟩ := ih h
    obtain ⟨hgranted, rfl⟩ := hchunk
    have hcap : (imageChunk bytes pos).capacity = size := by
      show ofLe (slice bytes pos 8) = size
      tauto
    have hcur : (imageChunk bytes pos).cursor = ofLe (slice bytes (pos + 8) 8) := hdlen
    refine ⟨⟨?_, ?_, ?_, ihl.size_eq, ihl.cap_eq, ihl.live_eq, ihl.gen_eq, ?_, ?_⟩, ?_⟩
    · rw [ihl.chunks, imageChunks]
      exact List.append_assoc _ _ _
    · intro x hx
      rw [imageChunks] at hx
      rcases List.mem_cons.mp hx with rfl | hx
      · refine ⟨hcap, ?_, ?_, hgen⟩
        · rw [hcur]
          have : ¬ ofLe (slice bytes (pos + 8) 8) > ofLe (slice bytes pos 8) := by tauto
          have : ofLe (slice bytes pos 8) = size := hcap
          omega
        · show 0 < ofLe (slice bytes (pos + 16) 4)
          have : ¬ ofLe (slice bytes (pos + 16) 4) = 0 := by tauto
          omega
      · exact ihl.checked x hx
    · rw [ihl.total, imageChunks, List.length_cons, Nat.add_mul, Nat.one_mul]
      change arena.totalAllocated + (imageChunk bytes pos).capacity + _ = _
      rw [hcap, Nat.add_assoc, Nat.add_comm size]
    · rw [ihl.loaded_eq, imageChunks, List.getLast?_cons]
      cases (imageChunks bytes n (pos + 24 + alignUp (ofLe (slice bytes (pos + 8) 8)))).getLast? with
      | none => rfl
      | some x => rfl
    · intro i hi
      rw [imageChunks, List.length_cons] at hi
      cases i with
      | zero => exact hgranted
      | succ i =>
        have hi' := ihl.granted i (by omega)
        change heap ((arena.chunks ++ [imageChunk bytes pos]).length + i) = true at hi'
        rw [List.length_append, List.length_singleton, Nat.add_assoc, Nat.add_comm 1 i] at hi'
        exact hi'
    · rw [imageChunks, List.length_cons]
      exact congrArg (· + 1) ihn

theorem loadChunks_clean (heap : ℕ → Bool) (bytes : List Byte) (size n pos : ℕ) (arena : BlobArena)
    (loaded : Option ℕ) : Clean (loadChunks heap bytes size n pos arena loaded) := by
  induction n generalizing pos arena loaded with
  | zero => exact clean_ok _
  | succ n ih =>
    rw [loadChunks]
    refine (ranged_clean bytes pos 24).bind fun head hhead => ?_
    obtain ⟨hin, rfl⟩ := ranged_ok hhead
    have hlen : (slice bytes pos 24).length = 24 := length_slice hin
    rw [indexed_eq (by omega), ok_bind, indexed_eq (by omega), ok_bind,
      indexed_eq (by omega), ok_bind]
    refine (checkedAdd_clean pos 24).bind fun pos' _ => ?_
    split_ifs
    · exact clean_failed _
    · refine (ranged_clean _ _ _).bind fun data _ => ?_
      refine (reported_clean _).bind fun c _ => ?_
      refine (checkedAdd_clean _ _).bind fun padded _ => ?_
      exact (checkedAdd_clean _ _).bind fun pos'' _ => ih pos'' _ _

theorem chargeLoaded_eq (a : BlobArena) (raw : ℕ) (h : a.liveBytes < 2 ^ 64) :
    a.chargeLoaded raw = a.withLive ((a.liveBytes + total (spanOf a raw)) % 2 ^ 64) := by
  have hsame : a = a.withLive ((a.liveBytes + 0) % 2 ^ 64) := by
    rw [Nat.add_zero, Nat.mod_eq_of_lt h]
    rfl
  rw [BlobArena.chargeLoaded, spanOf]
  split_ifs with ht
  · rw [charge]
    cases a.resolveMeta (arenaMetaLocator raw) with
    | none => simpa [total] using hsame
    | some d => simp [total, BlobArena.withLive, addUsize]
  · simpa [total] using hsame

theorem loadEntries_clean (bytes : List Byte) (n pos : ℕ) (m : BlobMap) :
    Clean (loadEntries bytes n pos m) := by
  induction n generalizing pos m with
  | zero => exact clean_ok m
  | succ n ih =>
    rw [loadEntries]
    refine (ranged_clean bytes pos 16).bind fun entry hentry => ?_
    obtain ⟨hin, rfl⟩ := ranged_ok hentry
    have hlen : (slice bytes pos 16).length = 16 := length_slice hin
    rw [indexed_eq (by omega), ok_bind, indexed_eq (by omega), ok_bind]
    exact (checkedAdd_clean _ _).bind fun pos' _ => ih pos' _

theorem ofLe_slice_lt (h : lo + 8 ≤ bytes.length) : ofLe (slice bytes lo 8) < 2 ^ 64 := by
  have hlt : ofLe (slice bytes lo 8) < 256 ^ (slice bytes lo 8).length := ofLe_lt
  rw [length_slice h] at hlt
  exact hlt

/-- What reading entries does. -/
structure EntriesLoaded (es : List (ℕ × ℕ)) (m m' : BlobMap) : Prop where
  index : m'.index = indexOf m.index es
  arena : m'.arena = m.arena.withLive ((m.arena.liveBytes + total (spans m.arena es)) % 2 ^ 64)
  bounded : ∀ e ∈ es, e.1 < 2 ^ 64 ∧ e.2 < 2 ^ 64

theorem loadEntries_ok {m m' : BlobMap} (hlive : m.arena.liveBytes < 2 ^ 64)
    (h : loadEntries bytes n pos m = .ok m') : EntriesLoaded (imageEntries bytes n pos) m m' := by
  induction n generalizing pos m with
  | zero =>
    obtain rfl := Except.ok.inj h
    refine ⟨rfl, ?_, by simp [imageEntries]⟩
    show m.arena = m.arena.withLive ((m.arena.liveBytes + 0) % 2 ^ 64)
    rw [Nat.add_zero, Nat.mod_eq_of_lt hlive]
    rfl
  | succ n ih =>
    rw [loadEntries] at h
    obtain ⟨entry, hentry, h⟩ := bind_eq_ok.mp h
    obtain ⟨hin, rfl⟩ := ranged_ok hentry
    have hlen : (slice bytes pos 16).length = 16 := length_slice hin
    rw [indexed_eq (by omega), ok_bind, indexed_eq (by omega), ok_bind,
      slice_slice _ _ _ _ _ (by decide), slice_slice _ _ _ _ _ (by decide), Nat.add_zero,
      chargeLoaded_eq _ _ hlive] at h
    obtain ⟨pos', hpos, h⟩ := bind_eq_ok.mp h
    obtain rfl := checkedAdd_ok hpos
    have hl := ih (Nat.mod_lt _ (by decide)) h
    refine ⟨hl.index, ?_, ?_⟩
    · rw [hl.arena, imageEntries, spans_cons, total_append]
      show m.arena.withLive _ = m.arena.withLive _
      congr 1
      show ((m.arena.liveBytes + total (spanOf m.arena (ofLe (slice bytes (pos + 8) 8)))) % 2 ^ 64 +
        total (spans m.arena (imageEntries bytes n (pos + 16)))) % 2 ^ 64 = _
      rw [Nat.mod_add_mod, Nat.add_assoc]
    · intro e he
      rw [imageEntries] at he
      rcases List.mem_cons.mp he with rfl | he
      · exact ⟨ofLe_slice_lt (by omega), ofLe_slice_lt (by omega)⟩
      · exact hl.bounded e he

theorem indexOf_sorted {index es : List (ℕ × ℕ)} (hs : KeySorted index) : KeySorted (indexOf index es) := by
  induction es generalizing index with
  | nil => exact hs
  | cons e es ih => exact ih (hs.put e.1 e.2)

theorem mem_indexOf {index es : List (ℕ × ℕ)} {e : ℕ × ℕ} (hs : KeySorted index) (he : e ∈ indexOf index es) :
    e ∈ index ∨ e ∈ es := by
  induction es generalizing index with
  | nil => exact .inl he
  | cons x es ih =>
    rcases ih (hs.put x.1 x.2) he with hm | hm
    · obtain ⟨k, v⟩ := e
      rcases (mem_put hs).mp hm with ⟨rfl, rfl⟩ | ⟨-, hm⟩
      · exact .inr List.mem_cons_self
      · exact .inl hm
    · exact .inr (List.mem_cons_of_mem x hm)

theorem parseHeader_eq (h : 64 ≤ bytes.length) : parseHeader bytes = .ok (imageHeader bytes) := by
  rw [parseHeader, indexed_eq (by omega), ok_bind, indexed_eq (by omega), ok_bind, indexed_eq (by omega),
    ok_bind, indexed_eq (by omega), ok_bind, indexed_eq (by omega), ok_bind, indexed_eq (by omega), ok_bind,
    indexed_eq (by omega), ok_bind, indexed_eq (by omega), ok_bind, indexed_eq (by omega), ok_bind]
  rfl

theorem clean_ite {p : Prop} [Decidable p] {e : ArenaError} {x : Except Halt α} (hx : Clean x) :
    Clean (if p then .error (.failed e) else x) := by
  by_cases hp : p
  · rw [if_pos hp]
    exact clean_failed e
  · rw [if_neg hp]
    exact hx

theorem ite_failed_ok {p : Prop} [Decidable p] {e : ArenaError} {x : Except Halt α} {r : α}
    (h : (if p then .error (.failed e) else x) = .ok r) : ¬ p ∧ x = .ok r := by
  by_cases hp : p
  · rw [if_pos hp] at h
    cases h
  · rw [if_neg hp] at h
    exact ⟨hp, h⟩

theorem checkHeader_clean (bytes : List Byte) (h : BlobMapFileHeader) : Clean (checkHeader bytes h) := by
  unfold checkHeader
  iterate 11 refine clean_ite ?_
  exact clean_ok _

/-- What the header checks give. -/
structure HeaderChecked (h : BlobMapFileHeader) : Prop where
  size_ge : 4096 ≤ h.chunkSize
  size_le : h.chunkSize ≤ MAX_CHUNK_CAPACITY
  size_mod : h.chunkSize % 16 = 0
  count_le : h.chunkCount ≤ MAX_ARENA_CHUNKS

theorem checkHeader_ok {h : BlobMapFileHeader} {u : Unit} (hc : checkHeader bytes h = .ok u) :
    HeaderChecked h := by
  unfold checkHeader at hc
  obtain ⟨-, hc⟩ := ite_failed_ok hc
  obtain ⟨-, hc⟩ := ite_failed_ok hc
  obtain ⟨-, hc⟩ := ite_failed_ok hc
  obtain ⟨hsize, hc⟩ := ite_failed_ok hc
  obtain ⟨hcount, hc⟩ := ite_failed_ok hc
  obtain ⟨hmod, -⟩ := ite_failed_ok hc
  rw [ARENA_ALIGN] at hmod
  exact ⟨by omega, by omega, by omega, by omega⟩

/-- What a loaded map is. -/
structure Loaded (heap : ℕ → Bool) (bytes : List Byte) (m : BlobMap) : Prop where
  header : HeaderChecked (imageHeader bytes)
  size : m.arena.chunkSize = (imageHeader bytes).chunkSize
  chunks : m.arena.chunks = chunksOf bytes
  count : (chunksOf bytes).length = (imageHeader bytes).chunkCount
  checked : ∀ c ∈ chunksOf bytes, ChunkChecked (imageHeader bytes).chunkSize c
  total : m.arena.totalAllocated = (chunksOf bytes).length * (imageHeader bytes).chunkSize
  total_le : m.arena.totalAllocated ≤ m.arena.maxCapacity
  cap_le : m.arena.maxCapacity ≤ ARENA_META_CEILING
  generation : m.arena.generation = ((chunksOf bytes).getLast?.map ArenaChunk.generation).getD 1
  granted : ∀ i < (chunksOf bytes).length, heap i = true
  index : m.index = indexOf [] (entriesOf bytes)
  bounded : ∀ e ∈ entriesOf bytes, e.1 < 2 ^ 64 ∧ e.2 < 2 ^ 64
  live : m.arena.liveBytes = Blob.total (spans m.arena (entriesOf bytes)) % 2 ^ 64

namespace BlobMap

theorem load_clean (heap : ℕ → Bool) (bytes : List Byte) (maxCapacity : ℕ) :
    Clean (fromBytesSliceWithMaxCapacity heap bytes maxCapacity) := by
  rw [fromBytesSliceWithMaxCapacity]
  split_ifs with hlen
  · exact clean_failed _
  · rw [parseHeader_eq (by omega), ok_bind]
    refine (checkHeader_clean _ _).bind fun u _ => ?_
    dsimp only
    split_ifs
    · exact clean_failed _
    · refine (loadChunks_clean heap bytes _ _ _ _ _).bind fun r _ => ?_
      exact loadEntries_clean bytes _ _ _

theorem load_ok {maxCapacity : ℕ} {m : BlobMap}
    (h : fromBytesSliceWithMaxCapacity heap bytes maxCapacity = .ok m) : Loaded heap bytes m := by
  rw [fromBytesSliceWithMaxCapacity] at h
  split_ifs at h with hlen
  rw [parseHeader_eq (by omega), ok_bind] at h
  obtain ⟨u, hcheck, h⟩ := bind_eq_ok.mp h
  have hh := checkHeader_ok hcheck
  dsimp only at h
  split_ifs at h with hcap
  obtain ⟨⟨arena, loaded⟩, hchunks, h⟩ := bind_eq_ok.mp h
  dsimp only at h
  obtain ⟨hl, hcount⟩ := loadChunks_ok hchunks
  set m₀ := withChunkSizeAndMaxCapacity (imageHeader bytes).chunkSize maxCapacity with hm₀
  have hsize₀ : m₀.arena.chunkSize = (imageHeader bytes).chunkSize := by
    show alignUp (clamp (imageHeader bytes).chunkSize 4096 MAX_CHUNK_CAPACITY) = _
    rw [clamp_of_le hh.size_ge hh.size_le, alignUp_of_mod hh.size_mod]
  set arena₁ := arena.adopt loaded with harena₁
  have hfields : arena₁.chunks = arena.chunks ∧ arena₁.chunkSize = arena.chunkSize ∧
      arena₁.totalAllocated = arena.totalAllocated ∧ arena₁.liveBytes = arena.liveBytes ∧
      arena₁.maxCapacity = arena.maxCapacity := by
    rw [harena₁]
    cases loaded with
    | none => exact ⟨rfl, rfl, rfl, rfl, rfl⟩
    | some g => exact ⟨rfl, rfl, rfl, rfl, rfl⟩
  obtain ⟨hf₁, hf₂, hf₃, hf₄, hf₅⟩ := hfields
  have hlive₀ : arena₁.liveBytes = 0 := by
    rw [hf₄, hl.live_eq]
    rfl
  have he := loadEntries_ok (m := { m₀ with arena := arena₁ }) (by rw [hlive₀]; decide) h
  have hgen : arena₁.generation = ((chunksOf bytes).getLast?.map ArenaChunk.generation).getD 1 := by
    have hlg := hl.loaded_eq
    rw [Option.or_none] at hlg
    rw [harena₁, chunksOf, ← hlg]
    cases loaded with
    | none => exact hl.gen_eq
    | some g => rfl
  have hceil : m₀.arena.maxCapacity ≤ ARENA_META_CEILING :=
    (start_sound (.withChunkSizeAndMaxCapacity (imageHeader bytes).chunkSize maxCapacity)).arena.cap_le
  have hgranted : ∀ i < (chunksOf bytes).length, heap i = true := by
    intro i hi
    have hi' := hl.granted i hi
    rw [show m₀.arena.chunks = [] from rfl, List.length_nil, Nat.zero_add] at hi'
    exact hi'
  refine ⟨hh, ?_, ?_, hcount, hl.checked, ?_, ?_, ?_, ?_, hgranted, he.index, he.bounded, ?_⟩
  all_goals rw [he.arena]
  · show arena₁.chunkSize = _
    rw [hf₂, hl.size_eq, hsize₀]
  · show arena₁.chunks = _
    rw [hf₁, hl.chunks]
    rfl
  · show arena₁.totalAllocated = _
    rw [hf₃, hl.total]
    exact Nat.zero_add _
  · show arena₁.totalAllocated ≤ arena₁.maxCapacity
    rw [hf₃, hf₅, hl.total, hl.cap_eq, hcount]
    show 0 + _ ≤ _
    omega
  · show arena₁.maxCapacity ≤ _
    rw [hf₅, hl.cap_eq]
    exact hceil
  · exact hgen
  · show (arena₁.liveBytes + Blob.total (spans arena₁ _)) % 2 ^ 64 = _
    rw [hlive₀, Nat.zero_add]
    rfl

end BlobMap

open BlobMap

def imageArena (bytes : List Byte) : BlobArena :=
  { BlobArena.new 0 with
    chunks := chunksOf bytes
    chunkSize := (imageHeader bytes).chunkSize
    active_lt := by simp [BlobArena.new] }

theorem Loaded.keeps {m : BlobMap} (h : Loaded heap bytes m) :
    Keeps (imageArena bytes) m.arena ∧ Keeps m.arena (imageArena bytes) := by
  have heq : ∀ x, m.arena.getBlobSlice x = (imageArena bytes).getBlobSlice x := by
    intro x
    rw [BlobArena.getBlobSlice, BlobArena.getBlobSlice, h.chunks, h.size]
    rfl
  exact ⟨fun x d hx => by rw [heq, hx], fun x d hx => by rw [← heq, hx]⟩

theorem value_congr {a a' : BlobArena} (h : Keeps a a') (h' : Keeps a' a) (raw : ℕ) :
    value a raw = value a' raw := by
  by_cases hs : (value a raw).isSome
  · exact (h.value_eq hs).symm
  · by_cases hs' : (value a' raw).isSome
    · exact h'.value_eq hs'
    · rw [Option.not_isSome_iff_eq_none] at hs hs'
      rw [hs, hs']

theorem charge_congr {a a' : BlobArena} (h : Keeps a a') (h' : Keeps a' a) (raw : ℕ) :
    charge a raw = charge a' raw := by
  rw [charge, charge, BlobArena.resolveMeta, BlobArena.resolveMeta]
  cases hr : a.getBlobSlice (arenaMetaLocator raw * ARENA_ALIGN) with
  | some d => rw [h _ _ hr]
  | none =>
    cases hr' : a'.getBlobSlice (arenaMetaLocator raw * ARENA_ALIGN) with
    | none => rfl
    | some d =>
      rw [h' _ _ hr'] at hr
      cases hr

theorem spans_congr {a a' : BlobArena} (h : Keeps a a') (h' : Keeps a' a) (index : List (ℕ × ℕ)) :
    spans a index = spans a' index := by
  rw [spans, spans]
  congr 1
  funext e
  rw [spanOf, spanOf, charge_congr h h']

theorem Loaded.gen_bounds {m : BlobMap} (h : Loaded heap bytes m) :
    0 < m.arena.generation ∧ m.arena.generation < 2 ^ 32 := by
  rw [h.generation]
  cases hlast : (chunksOf bytes).getLast? with
  | none => decide
  | some c =>
    have hc := h.checked c (List.mem_of_getLast? hlast)
    exact ⟨hc.gen_pos, hc.gen_lt⟩

theorem Loaded.arena_sound {m : BlobMap} (h : Loaded heap bytes m)
    (haligned : ∀ c ∈ chunksOf bytes, c.cursor % 16 = 0) :
    m.arena.Sound := by
  have hsize := h.size
  refine ⟨?_, ?_, ?_, ?_, ?_, ?_, h.total_le, h.cap_le, h.gen_bounds.1, h.gen_bounds.2⟩
  · rw [hsize]
    exact h.header.size_ge
  · rw [hsize]
    exact h.header.size_le
  · rw [hsize]
    exact h.header.size_mod
  · intro c hc
    rw [h.chunks] at hc
    have hch := h.checked c hc
    rw [hsize]
    exact ⟨hch.capacity, hch.cursor_le, haligned c hc, hch.gen_pos, hch.gen_lt⟩
  · rw [h.chunks, h.count]
    exact h.header.count_le
  · rw [h.total, h.chunks, hsize]

theorem Loaded.sound {m : BlobMap} (h : Loaded heap bytes m) (haligned : ∀ c ∈ chunksOf bytes, c.cursor % 16 = 0)
    (hshown : ∀ e ∈ indexOf [] (entriesOf bytes), (value (imageArena bytes) e.2).isSome) : m.Sound := by
  refine ⟨h.arena_sound haligned, ⟨?_, ?_, ?_, ?_⟩⟩
  all_goals rw [h.index]
  · exact indexOf_sorted .nil
  · intro e he
    rcases mem_indexOf .nil he with hm | hm
    · cases hm
    · exact (h.bounded e hm).1
  · intro e he
    rcases mem_indexOf .nil he with hm | hm
    · cases hm
    · exact (h.bounded e hm).2
  · intro e he
    rw [← value_congr h.keeps.1 h.keeps.2]
    exact hshown e he

end Expanse.Blob
