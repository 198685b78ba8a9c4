import Mathlib
import Expanse.Blob.Arena

/-!
# What an allocation does to the arena

`Sound` is the layout every operation keeps: chunks of one size, each filled to a multiple
of 16. `Allocated` says what an allocation does: the new record reads back, every record
that could be read before still reads the same, and the new one lies beside all of them.
-/

namespace Expanse.Blob

open Arrays Bytes

theorem alignUp_ge (n : ℕ) : n ≤ alignUp n := by
  rw [alignUp]
  omega

theorem alignUp_mod (n : ℕ) : alignUp n % 16 = 0 := by
  rw [alignUp]
  omega

theorem alignUp_le {n m : ℕ} (h : n ≤ m) (hm : m % 16 = 0) : alignUp n ≤ m := by
  rw [alignUp]
  omega

theorem alignUp_of_mod {n : ℕ} (h : n % 16 = 0) : alignUp n = n := by
  rw [alignUp]
  omega

namespace ArenaChunk

variable {c : ArenaChunk} {off : ℕ} {data d : List Byte}

/-- What a record consists of. -/
structure RecordAt (c : ArenaChunk) (off : ℕ) (data : List Byte) : Prop where
  inside : off + (8 + data.length) ≤ c.cursor
  length : ofLe (slice c.bytes off 4) = data.length
  stamp : ofLe (slice c.bytes (off + 4) 4) = c.generation
  payload : slice c.bytes (off + 8) data.length = data

theorem getSlice_eq_some_iff : c.getSlice off = some data ↔ c.RecordAt off data := by
  rw [getSlice, readRecord]
  constructor
  · intro h
    split_ifs at h with h8 hgen hlen
    obtain rfl := Option.some.inj h
    rw [cursor] at h8 hlen
    have hl : (slice c.bytes (off + 8) (ofLe (slice c.bytes off 4))).length =
        ofLe (slice c.bytes off 4) := length_slice (by omega)
    refine ⟨?_, hl.symm, not_not.mp hgen, by rw [hl]⟩
    rw [hl, cursor]
    omega
  · rintro ⟨hin, hlen, hgen, hdata⟩
    rw [hlen, if_neg (by omega), if_neg (not_not.mpr hgen), if_neg (by omega), hdata]

theorem cursor_push : (c.push data).cursor = alignUp (c.cursor + (8 + data.length)) := by
  have h := alignUp_ge (c.cursor + (8 + data.length))
  simp only [push, cursor, List.length_append, length_le, List.length_replicate] at h ⊢
  omega

theorem getSlice_push_of_some (h : c.getSlice off = some d) : (c.push data).getSlice off = some d := by
  rw [getSlice_eq_some_iff] at h ⊢
  have hin := h.inside
  rw [cursor] at hin
  have hge := alignUp_ge (c.cursor + (8 + data.length))
  have hpre : ∀ i n, i + n ≤ c.bytes.length → slice (c.push data).bytes i n = slice c.bytes i n := by
    intro i n hn
    rw [push, List.append_assoc]
    exact slice_append_of_le hn
  refine ⟨?_, ?_, ?_, ?_⟩
  · rw [cursor_push]
    have := h.inside
    omega
  · rw [hpre _ _ (by omega)]
    exact h.length
  · rw [hpre _ _ (by omega)]
    exact h.stamp
  · rw [hpre _ _ (by omega)]
    exact h.payload

theorem getSlice_push_self (hlen : data.length < 2 ^ 32) (hgen : c.generation < 2 ^ 32) :
    (c.push data).getSlice c.cursor = some data := by
  rw [getSlice_eq_some_iff]
  have hge := alignUp_ge (c.cursor + (8 + data.length))
  generalize hpad : List.replicate (alignUp (c.cursor + (8 + data.length)) -
    (c.cursor + (8 + data.length))) (0 : Byte) = pad
  have hbytes : (c.push data).bytes = c.bytes ++ (le 4 data.length ++ (le 4 c.generation ++ (data ++ pad))) := by
    rw [← hpad, push]
    simp only [List.append_assoc]
  refine ⟨?_, ?_, ?_, ?_⟩
  · rw [cursor_push]
    omega
  · have h0 := slice_zero_length (le 4 data.length) (le 4 c.generation ++ (data ++ pad))
    rw [length_le] at h0
    rw [hbytes, cursor, ← Nat.add_zero c.bytes.length, slice_append_length, h0, ofLe_le_of_lt hlen]
  · have h0 := slice_zero_length (le 4 c.generation) (data ++ pad)
    rw [length_le] at h0
    have h4 := slice_append_length (le 4 data.length) (le 4 c.generation ++ (data ++ pad)) 0 4
    rw [length_le, Nat.add_zero] at h4
    rw [hbytes, cursor, slice_append_length, h4, h0, ofLe_le_of_lt hgen]
    rfl
  · have h0 := slice_zero_length data pad
    have h4 := slice_append_length (le 4 c.generation) (data ++ pad) 0 data.length
    have h8 := slice_append_length (le 4 data.length) (le 4 c.generation ++ (data ++ pad)) 4 data.length
    rw [length_le] at h4 h8
    rw [hbytes, cursor, slice_append_length, h8, ← h0, ← h4]
    simp [slice]

/-- A chunk filled to a multiple of 16 within its capacity. -/
structure Sound (size : ℕ) (c : ArenaChunk) : Prop where
  capacity : c.capacity = size
  cursor_le : c.cursor ≤ size
  cursor_mod : c.cursor % 16 = 0
  gen_pos : 0 < c.generation
  gen_lt : c.generation < 2 ^ 32

theorem Sound.push {size : ℕ} (h : c.Sound size) (hsize : size % 16 = 0)
    (hfit : c.cursor + (8 + data.length) ≤ size) : (c.push data).Sound size := by
  refine ⟨h.capacity, ?_, ?_, h.gen_pos, h.gen_lt⟩
  · rw [cursor_push]
    exact alignUp_le hfit hsize
  · rw [cursor_push]
    exact alignUp_mod _

end ArenaChunk

namespace BlobArena

variable {a a' : BlobArena} {granted : Bool} {data d : List Byte} {g i idx off : ℕ} {c : ArenaChunk}

/-- The layout of an arena. -/
structure Sound (a : BlobArena) : Prop where
  size_ge : 4096 ≤ a.chunkSize
  size_le : a.chunkSize ≤ MAX_CHUNK_CAPACITY
  size_mod : a.chunkSize % 16 = 0
  chunk : ∀ c ∈ a.chunks, c.Sound a.chunkSize
  count : a.chunks.length ≤ MAX_ARENA_CHUNKS
  total : a.totalAllocated = a.chunks.length * a.chunkSize
  total_le : a.totalAllocated ≤ a.maxCapacity
  cap_le : a.maxCapacity ≤ ARENA_META_CEILING
  gen_pos : 0 < a.generation
  gen_lt : a.generation < 2 ^ 32

def emptyChunk (a : BlobArena) : ArenaChunk := ⟨a.chunkSize, a.generation, []⟩

/-- The growth path opens a chunk with the record. -/
theorem allocBlobInNewChunk_ok (hlen : 8 + data.length ≤ a.chunkSize)
    (h : a.allocBlobInNewChunk granted data = .ok (g, a')) :
    a.chunks.length < MAX_ARENA_CHUNKS ∧ a.totalAllocated + a.chunkSize ≤ a.maxCapacity ∧
      g = a.chunks.length * a.chunkSize + a.emptyChunk.cursor ∧
      a' = { a.pushChunk (a.emptyChunk.push data) with
        totalAllocated := a.totalAllocated + a.chunkSize
        liveBytes := addUsize a.liveBytes (8 + data.length) } := by
  rw [allocBlobInNewChunk] at h
  split_ifs at h with hcount htotal
  have hfit : ¬ a.emptyChunk.cursor + (8 + data.length) > a.emptyChunk.capacity := by
    rw [ArenaChunk.cursor, emptyChunk, List.length_nil]
    dsimp only
    omega
  cases hnew : ArenaChunk.new granted a.chunkSize a.generation with
  | error e => rw [hnew] at h; cases h
  | ok c =>
    have hc : c = a.emptyChunk := by
      rw [ArenaChunk.new] at hnew
      split_ifs at hnew
      exact (Except.ok.inj hnew).symm
    rw [hnew, hc, ok_bind, ArenaChunk.alloc, if_neg hfit, ok_bind] at h
    obtain ⟨rfl, rfl⟩ := Prod.mk.inj (Except.ok.inj h)
    exact ⟨by omega, by omega, rfl, rfl⟩

/-- A successful allocation appends to the active chunk, or opens a chunk. -/
theorem allocBlob_ok (h : a.allocBlob granted data = .ok (g, a')) :
    8 + data.length ≤ a.chunkSize ∧
    ((∃ idx c, a.activeChunk = some idx ∧ a.chunks[idx]? = some c ∧
        c.cursor + (8 + data.length) ≤ c.capacity ∧ g = idx * a.chunkSize + c.cursor ∧
        a' = { a.setChunk idx (c.push data) with liveBytes := addUsize a.liveBytes (8 + data.length) }) ∨
      (a.chunks.length < MAX_ARENA_CHUNKS ∧ a.totalAllocated + a.chunkSize ≤ a.maxCapacity ∧
        g = a.chunks.length * a.chunkSize + a.emptyChunk.cursor ∧
        a' = { a.pushChunk (a.emptyChunk.push data) with
          totalAllocated := a.totalAllocated + a.chunkSize
          liveBytes := addUsize a.liveBytes (8 + data.length) })) := by
  rw [allocBlob] at h
  split_ifs at h with hsize
  refine ⟨by omega, ?_⟩
  split at h
  case h_1 idx c hroom =>
    left
    rw [roomFor] at hroom
    split at hroom
    case h_1 => cases hroom
    case h_2 j hactive =>
      split at hroom
      case h_1 => cases hroom
      case h_2 c' hc =>
        split_ifs at hroom with hfit
        obtain ⟨rfl, rfl⟩ := Prod.mk.inj (Option.some.inj hroom)
        rw [ArenaChunk.canFit, decide_eq_true_iff] at hfit
        rw [ArenaChunk.alloc, if_neg (by omega), ok_bind] at h
        obtain ⟨rfl, rfl⟩ := Prod.mk.inj (Except.ok.inj h)
        exact ⟨j, c', hactive, hc, hfit, rfl, rfl⟩
  case h_2 => exact .inr (allocBlobInNewChunk_ok (by omega) h)

theorem getBlobSlice_at (h : off < a.chunkSize) :
    a.getBlobSlice (i * a.chunkSize + off) = a.chunks[i]?.bind (·.getSlice off) := by
  have hpos : 0 < a.chunkSize := by omega
  have hdiv : (i * a.chunkSize + off) / a.chunkSize = i := by
    rw [Nat.add_comm, Nat.add_mul_div_right _ _ hpos, Nat.div_eq_of_lt h, Nat.zero_add]
  have hmod : (i * a.chunkSize + off) % a.chunkSize = off := by
    rw [Nat.add_comm, Nat.add_mul_mod_self_right, Nat.mod_eq_of_lt h]
  rw [getBlobSlice, hdiv, hmod]
  cases a.chunks[i]? with
  | none => rfl
  | some c => rfl

/-- Where a record that can be read lies. -/
theorem getBlobSlice_inside (h : a.getBlobSlice g = some d) : ∃ c,
    a.chunks[g / a.chunkSize]? = some c ∧ c.getSlice (g % a.chunkSize) = some d ∧
      g % a.chunkSize + (8 + d.length) ≤ c.cursor := by
  rw [getBlobSlice] at h
  split at h
  case h_1 => cases h
  case h_2 c hc => exact ⟨c, hc, h, (ArenaChunk.getSlice_eq_some_iff.mp h).inside⟩

theorem Sound.record_end (hs : a.Sound) (h : a.getBlobSlice g = some d) :
    g / a.chunkSize < a.chunks.length ∧
      g + (8 + d.length) ≤ (g / a.chunkSize + 1) * a.chunkSize := by
  obtain ⟨c, hc, -, hin⟩ := getBlobSlice_inside h
  have hcur := (hs.chunk c (List.mem_of_getElem? hc)).cursor_le
  have hg := Nat.div_add_mod' g a.chunkSize
  refine ⟨(List.getElem?_eq_some_iff.mp hc).1, ?_⟩
  rw [Nat.add_mul, Nat.one_mul]
  omega

/-- What an allocation does. -/
structure Allocated (a : BlobArena) (data : List Byte) (g : ℕ) (a' : BlobArena) : Prop where
  sound : a'.Sound
  aligned : g % ARENA_ALIGN = 0
  below : g < ARENA_META_CEILING
  reads : a'.getBlobSlice g = some data
  keeps : ∀ {x d}, a.getBlobSlice x = some d → a'.getBlobSlice x = some d
  apart : ∀ {x d}, a.getBlobSlice x = some d → x + (8 + d.length) ≤ g ∨ g + (8 + data.length) ≤ x
  size : a'.chunkSize = a.chunkSize
  cap : a'.maxCapacity = a.maxCapacity
  gen : a'.generation = a.generation
  baseTotal : a'.compactedTotal = a.compactedTotal
  baseLive : a'.compactedLive = a.compactedLive
  live : a'.liveBytes = addUsize a.liveBytes (8 + data.length)
  total : a.totalAllocated ≤ a'.totalAllocated
  uniform : (∀ c ∈ a.chunks, c.generation = a.generation) → ∀ c ∈ a'.chunks, c.generation = a'.generation

/-- A record appended to chunk `idx`, read through a new chunk list. -/
theorem allocated_at (a' : BlobArena) (hs : a.Sound) (hsize : a'.chunkSize = a.chunkSize)
    (hc : c.Sound a.chunkSize) (hfit : c.cursor + (8 + data.length) ≤ a.chunkSize)
    (hold : ∀ j x, a.chunks[j]? = some x → j ≠ idx ∧ a'.chunks[j]? = some x ∨ j = idx ∧ x = c)
    (hnew : a'.chunks[idx]? = some (c.push data)) :
    a'.getBlobSlice (idx * a.chunkSize + c.cursor) = some data ∧
    (∀ {x d}, a.getBlobSlice x = some d → a'.getBlobSlice x = some d) ∧
    ∀ {x d}, a.getBlobSlice x = some d → x + (8 + d.length) ≤ idx * a.chunkSize + c.cursor ∨
      idx * a.chunkSize + c.cursor + (8 + data.length) ≤ x := by
  have hcap := hs.size_le
  rw [MAX_CHUNK_CAPACITY] at hcap
  refine ⟨?_, ?_, ?_⟩
  · rw [← hsize, getBlobSlice_at (by omega), hnew, Option.bind_some]
    exact ArenaChunk.getSlice_push_self (by omega) hc.gen_lt
  · intro x d hx
    obtain ⟨y, hy, hread, -⟩ := getBlobSlice_inside hx
    rw [getBlobSlice, hsize]
    rcases hold _ _ hy with ⟨-, hkept⟩ | ⟨hj, rfl⟩
    · rw [hkept]
      exact hread
    · rw [hj, hnew]
      exact ArenaChunk.getSlice_push_of_some hread
  · intro x d hx
    obtain ⟨y, hy, -, hin⟩ := getBlobSlice_inside hx
    have hg := Nat.div_add_mod' x a.chunkSize
    have hcur := (hs.chunk y (List.mem_of_getElem? hy)).cursor_le
    rcases Nat.lt_trichotomy (x / a.chunkSize) idx with hlt | heq | hgt
    · have hmul : (x / a.chunkSize + 1) * a.chunkSize ≤ idx * a.chunkSize := Nat.mul_le_mul_right _ hlt
      rw [Nat.add_mul, Nat.one_mul] at hmul
      omega
    · rcases hold _ _ hy with ⟨hne, -⟩ | ⟨-, rfl⟩
      · exact absurd heq hne
      · rw [heq] at hg
        omega
    · have hmul : (idx + 1) * a.chunkSize ≤ x / a.chunkSize * a.chunkSize := Nat.mul_le_mul_right _ hgt
      rw [Nat.add_mul, Nat.one_mul] at hmul
      omega

theorem emptyChunk_sound (hs : a.Sound) : a.emptyChunk.Sound a.chunkSize :=
  ⟨rfl, Nat.zero_le _, rfl, hs.gen_pos, hs.gen_lt⟩

theorem allocBlob_spec (hs : a.Sound) (h : a.allocBlob granted data = .ok (g, a')) :
    Allocated a data g a' := by
  obtain ⟨hlen, hcase⟩ := allocBlob_ok h
  have hsize := hs.size_mod
  have htotal := hs.total
  have hcap := Nat.le_trans hs.total_le hs.cap_le
  rcases hcase with ⟨idx, c, hactive, hc, hfit, hg, ha'⟩ | ⟨hcount, hroom, hg, ha'⟩
  · have hmem := List.mem_of_getElem? hc
    have hcs := hs.chunk c hmem
    rw [hcs.capacity] at hfit
    have hidx : idx < a.chunks.length := (List.getElem?_eq_some_iff.mp hc).1
    have hchunks : a'.chunks = a.chunks.set idx (c.push data) := by rw [ha']; rfl
    have hmul : (idx + 1) * a.chunkSize ≤ a.chunks.length * a.chunkSize := Nat.mul_le_mul_right _ hidx
    rw [Nat.add_mul, Nat.one_mul] at hmul
    have halign : idx * a.chunkSize % 16 = 0 := by rw [Nat.mul_mod, hsize, Nat.mul_zero, Nat.zero_mod]
    have hcm := hcs.cursor_mod
    obtain ⟨hreads, hkeeps, hapart⟩ := allocated_at a' hs (by rw [ha']; rfl) hcs hfit
      (fun j x hx => by
        by_cases hj : j = idx
        · rw [hj, hc] at hx
          exact .inr ⟨hj, (Option.some.inj hx).symm⟩
        · rw [hchunks, List.getElem?_set_ne (Ne.symm hj)]
          exact .inl ⟨hj, hx⟩)
      (by rw [hchunks, List.getElem?_set_self hidx])
    subst hg
    refine ⟨?_, ?_, by omega, hreads, hkeeps, hapart, ?_, ?_, ?_, ?_, ?_, ?_, ?_, ?_⟩
    · subst ha'
      refine ⟨hs.size_ge, hs.size_le, hsize, ?_, ?_, ?_, hs.total_le, hs.cap_le, hs.gen_pos, hs.gen_lt⟩
      · intro x hx
        rcases List.mem_or_eq_of_mem_set hx with hx | rfl
        · exact hs.chunk x hx
        · exact hcs.push hsize hfit
      · rw [hchunks, List.length_set]
        exact hs.count
      · rw [hchunks, List.length_set]
        exact htotal
    · rw [ARENA_ALIGN]
      omega
    all_goals subst ha'
    · rfl
    · rfl
    · rfl
    · rfl
    · rfl
    · rfl
    · exact Nat.le_refl _
    · intro hu x hx
      rcases List.mem_or_eq_of_mem_set hx with hx | rfl
      · exact hu x hx
      · exact hu c hmem
  · have hcs := emptyChunk_sound hs
    have hchunks : a'.chunks = a.chunks ++ [a.emptyChunk.push data] := by rw [ha']; rfl
    have hfit : a.emptyChunk.cursor + (8 + data.length) ≤ a.chunkSize := by
      rw [emptyChunk, ArenaChunk.cursor, List.length_nil]
      omega
    have halign : a.chunks.length * a.chunkSize % 16 = 0 := by
      rw [Nat.mul_mod, hsize, Nat.mul_zero, Nat.zero_mod]
    obtain ⟨hreads, hkeeps, hapart⟩ := allocated_at a' hs (by rw [ha']; rfl) hcs hfit
      (fun j x hx => by
        have hj := (List.getElem?_eq_some_iff.mp hx).1
        rw [hchunks, List.getElem?_append_left hj]
        exact .inl ⟨Nat.ne_of_lt hj, hx⟩)
      (by rw [hchunks, List.getElem?_concat_length])
    have hzero : a.emptyChunk.cursor = 0 := rfl
    have hceil := hs.cap_le
    subst hg
    refine ⟨?_, ?_, by omega, hreads, hkeeps, hapart, ?_, ?_, ?_, ?_, ?_, ?_, ?_, ?_⟩
    · subst ha'
      refine ⟨hs.size_ge, hs.size_le, hsize, ?_, ?_, ?_, hroom, hs.cap_le, hs.gen_pos, hs.gen_lt⟩
      · intro x hx
        rcases List.mem_append.mp hx with hx | hx
        · exact hs.chunk x hx
        · rw [List.mem_singleton.mp hx]
          exact hcs.push hsize hfit
      · rw [hchunks, List.length_append, List.length_singleton]
        omega
      · rw [hchunks, List.length_append, List.length_singleton, Nat.add_mul, Nat.one_mul]
        exact congrArg (· + a.chunkSize) htotal
    · rw [ARENA_ALIGN, hzero]
      omega
    all_goals subst ha'
    · rfl
    · rfl
    · rfl
    · rfl
    · rfl
    · rfl
    · exact Nat.le_add_right _ _
    · intro hu x hx
      rcases List.mem_append.mp hx with hx | hx
      · exact hu x hx
      · rw [List.mem_singleton.mp hx]
        rfl

end BlobArena

end Expanse.Blob
