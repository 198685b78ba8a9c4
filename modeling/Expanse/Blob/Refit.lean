import Mathlib
import Expanse.Blob.RoundTrip
import Expanse.Library.NextFit

/-!
# The room a compaction needs

A compaction appends the live records to fresh chunks in key order, so its chunks are
the bins of a next-fit packing. Headers count towards the live bytes and padding does
not: up to 14 bytes a chunk. An arena that is less than half live, with that allowance,
fits the chunks it already has. Without the allowance it may not.
-/

namespace Expanse.Blob

open NextFit ValueSlot

variable {a a' : BlobArena} {granted : Bool} {data : List Byte} {g : ℕ}

theorem alignUp_eq (n : ℕ) : alignUp n = roundUp ARENA_ALIGN n := rfl

namespace BlobArena

def bins (a : BlobArena) : Bins := ⟨a.chunks.length, (a.chunks.getLast?.map ArenaChunk.cursor).getD 0⟩

def LastActive (a : BlobArena) : Prop :=
  a.chunks = [] ∧ a.activeChunk = none ∨
    ∃ cs c, a.chunks = cs ++ [c] ∧ a.activeChunk = some cs.length

theorem bins_snoc {cs : List ArenaChunk} {c : ArenaChunk} (h : a.chunks = cs ++ [c]) :
    a.bins = ⟨cs.length + 1, c.cursor⟩ := by
  rw [bins, h]
  simp

theorem bins_nil (h : a.chunks = []) : a.bins = ⟨0, 0⟩ := by
  rw [bins, h]
  rfl

/-- The active chunk takes a record where the last bin has room. -/
theorem roomFor_eq (hs : a.Sound) (hl : a.LastActive) (len : ℕ) :
    (¬ Fits a.chunkSize a.bins (8 + len) ∧ a.roomFor len = none) ∨
      Fits a.chunkSize a.bins (8 + len) ∧ ∃ cs c, a.chunks = cs ++ [c] ∧ a.activeChunk = some cs.length ∧
        a.roomFor len = some (cs.length, c) := by
  rcases hl with ⟨hnil, hactive⟩ | ⟨cs, c, hcs, hactive⟩
  · left
    refine ⟨fun hf => hf.1 (by rw [bins_nil hnil]), ?_⟩
    rw [roomFor, hactive]
  · have hget : a.chunks[cs.length]? = some c := by
      rw [hcs]
      simp
    have hcap := (hs.chunk c (List.mem_of_getElem? hget)).capacity
    have hroom : a.roomFor len = if c.canFit len then some (cs.length, c) else none := by
      rw [roomFor, hactive]
      dsimp only
      rw [hget]
    have hiff : c.canFit len = true ↔ Fits a.chunkSize a.bins (8 + len) := by
      rw [ArenaChunk.canFit, decide_eq_true_iff, Fits, bins_snoc hcs, hcap]
      simp
    by_cases hf : Fits a.chunkSize a.bins (8 + len)
    · exact .inr ⟨hf, cs, c, hcs, hactive, by rw [hroom, if_pos (hiff.mpr hf)]⟩
    · exact .inl ⟨hf, by rw [hroom, if_neg fun hc => hf (hiff.mp hc)]⟩

theorem allocBlob_eq (granted : Bool) (hs : a.Sound) (hl : a.LastActive) (hlen : 8 + data.length ≤ a.chunkSize) :
    (¬ Fits a.chunkSize a.bins (8 + data.length) ∧
        a.allocBlob granted data = a.allocBlobInNewChunk granted data) ∨
      Fits a.chunkSize a.bins (8 + data.length) ∧ ∃ g a', a.allocBlob granted data = .ok (g, a') ∧
        a'.bins = place ARENA_ALIGN a.chunkSize a.bins (8 + data.length) ∧ a'.LastActive := by
  rw [allocBlob, if_neg (by omega)]
  rcases roomFor_eq hs hl data.length with ⟨hf, hroom⟩ | ⟨hf, cs, c, hcs, hactive, hroom⟩
  · rw [hroom]
    exact .inl ⟨hf, rfl⟩
  · right
    rw [hroom]
    have hfit := hf.2
    have hcap := (hs.chunk c (by rw [hcs]; simp)).capacity
    rw [bins_snoc hcs] at hfit
    dsimp only at hfit ⊢
    rw [ArenaChunk.alloc, if_neg (by omega), ok_bind]
    have hchunks : (a.setChunk cs.length (c.push data)).chunks = cs ++ [c.push data] := by
      show a.chunks.set cs.length (c.push data) = _
      rw [hcs]
      simp
    refine ⟨hf, _, _, rfl, ?_, .inr ⟨cs, c.push data, hchunks, hactive⟩⟩
    refine (bins_snoc hchunks).trans ?_
    rw [place, if_pos hf, bins_snoc hcs, ArenaChunk.cursor_push, alignUp_eq]

theorem allocBlob_place (hs : a.Sound) (hl : a.LastActive) (h : a.allocBlob granted data = .ok (g, a')) :
    a'.bins = place ARENA_ALIGN a.chunkSize a.bins (8 + data.length) ∧ a'.LastActive := by
  have hlen := (allocBlob_ok h).1
  rcases allocBlob_eq granted hs hl hlen with ⟨hf, heq⟩ | ⟨-, g', a₁, heq, hbins, hlast⟩
  · rw [heq] at h
    obtain ⟨-, -, -, rfl⟩ := allocBlobInNewChunk_ok hlen h
    have hchunks : (a.pushChunk (a.emptyChunk.push data)).chunks = a.chunks ++ [a.emptyChunk.push data] := rfl
    have hcursor : a.emptyChunk.cursor = 0 := rfl
    refine ⟨(bins_snoc hchunks).trans ?_, .inr ⟨a.chunks, _, hchunks, rfl⟩⟩
    rw [place, if_neg hf, ArenaChunk.cursor_push, alignUp_eq, hcursor, Nat.zero_add]
    rfl
  · rw [h] at heq
    obtain ⟨rfl, rfl⟩ := Prod.mk.inj (Except.ok.inj heq)
    exact ⟨hbins, hlast⟩

/-- An allocation overflows where its record opens a chunk that the limits refuse. -/
theorem allocBlob_overflow (hs : a.Sound) (hl : a.LastActive)
    (h : a.allocBlob granted data = .error .offsetOverflow) :
    ¬ Fits a.chunkSize a.bins (8 + data.length) ∧
      (MAX_ARENA_CHUNKS ≤ a.chunks.length ∨ a.maxCapacity < a.totalAllocated + a.chunkSize) := by
  have hlen : 8 + data.length ≤ a.chunkSize := by
    by_contra hc
    rw [allocBlob, if_pos (by omega)] at h
    cases h
  rcases allocBlob_eq granted hs hl hlen with ⟨hf, heq⟩ | ⟨-, g', a₁, heq, -⟩
  · refine ⟨hf, ?_⟩
    by_contra hc
    obtain ⟨hcount, htotal⟩ := not_or.mp hc
    rw [heq, allocBlobInNewChunk, if_neg (by omega), if_neg (by omega)] at h
    cases hnew : ArenaChunk.new granted a.chunkSize a.generation with
    | error e =>
      rw [ArenaChunk.new] at hnew
      rw [ArenaChunk.new] at h
      split_ifs at hnew h <;> cases h
    | ok c =>
      rw [hnew, ok_bind, ArenaChunk.alloc] at h
      split_ifs at h
      · cases h
      · rw [ok_bind] at h
        cases h
  · rw [heq] at h
    cases h

end BlobArena

variable {N : BlobArena} {heap : Heap} {index es rest kept : List (ℕ × ℕ)}

/-- The lengths of the records that entries name. -/
def sizes (a : BlobArena) (es : List (ℕ × ℕ)) : List ℕ := es.map fun e => charge a e.2

theorem charge_eq {raw : ℕ} (h : a.resolveMeta (arenaMetaLocator raw) = some data) :
    charge a raw = 8 + data.length := by
  rw [charge, h]

theorem relocate_bins {p : PreparedCompaction}
    (hrest : ∀ e ∈ rest, tag e.2 = .arenaMeta ∧ (value a e.2).isSome) (h : Copied a es kept N)
    (hl : N.LastActive) (hr : BlobArena.relocate heap a rest N kept = .ok p) :
    p.newArena.bins = pack ARENA_ALIGN a.chunkSize N.bins (sizes a rest) := by
  induction rest generalizing es kept N with
  | nil =>
    cases hr
    rfl
  | cons e rest ih =>
    obtain ⟨key, raw⟩ := e
    obtain ⟨ht, hs⟩ := hrest _ List.mem_cons_self
    rw [value_arena ht, Option.isSome_map] at hs
    obtain ⟨payload, hp⟩ := Option.isSome_iff_exists.mp hs
    have hv : value a raw = some (payload, arenaMetaMeta raw) := by rw [value_arena ht, hp, Option.map_some]
    rw [BlobArena.relocate, hp] at hr
    dsimp only at hr
    cases hal : N.allocBlob (heap (.copied N.chunks.length)) payload with
    | error err =>
      rw [hal] at hr
      cases hr
    | ok r =>
      obtain ⟨g, N'⟩ := r
      obtain ⟨hslot, hcopied⟩ := h.snoc (e := (key, raw)) hal hv
      obtain ⟨hbins, hlast⟩ := BlobArena.allocBlob_place h.sound hl hal
      rw [hal, ok_bind] at hr
      dsimp only at hr
      rw [hslot, ok_bind] at hr
      rw [ih (fun e he => hrest e (List.mem_cons_of_mem _ he)) hcopied hlast hr, hbins, h.size, sizes, sizes,
        List.map_cons, charge_eq hp]
      rfl

/-- A copy that overflows has met a record that opens a bin beyond the limits. -/
theorem relocate_overflow
    (hrest : ∀ e ∈ rest, tag e.2 = .arenaMeta ∧ (value a e.2).isSome) (h : Copied a es kept N)
    (hl : N.LastActive) (hr : BlobArena.relocate heap a rest N kept = .error .offsetOverflow) :
    ∃ pre r post, sizes a rest = pre ++ r :: post ∧
      ¬ Fits a.chunkSize (pack ARENA_ALIGN a.chunkSize N.bins pre) r ∧
      (MAX_ARENA_CHUNKS ≤ (pack ARENA_ALIGN a.chunkSize N.bins pre).count ∨
        a.maxCapacity < ((pack ARENA_ALIGN a.chunkSize N.bins pre).count + 1) * a.chunkSize) := by
  induction rest generalizing es kept N with
  | nil => cases hr
  | cons e rest ih =>
    obtain ⟨key, raw⟩ := e
    obtain ⟨ht, hs⟩ := hrest _ List.mem_cons_self
    rw [value_arena ht, Option.isSome_map] at hs
    obtain ⟨payload, hp⟩ := Option.isSome_iff_exists.mp hs
    have hv : value a raw = some (payload, arenaMetaMeta raw) := by rw [value_arena ht, hp, Option.map_some]
    rw [BlobArena.relocate, hp] at hr
    dsimp only at hr
    rw [sizes, List.map_cons, charge_eq hp]
    cases hal : N.allocBlob (heap (.copied N.chunks.length)) payload with
    | error err =>
      rw [hal] at hr
      obtain rfl : err = .offsetOverflow := Except.error.inj hr
      obtain ⟨hfit, hlimit⟩ := BlobArena.allocBlob_overflow h.sound hl hal
      rw [h.size] at hfit
      rw [h.sound.total, h.size, h.cap] at hlimit
      refine ⟨[], _, _, rfl, hfit, ?_⟩
      rw [Nat.add_mul, Nat.one_mul]
      exact hlimit
    | ok r =>
      obtain ⟨g, N'⟩ := r
      obtain ⟨hslot, hcopied⟩ := h.snoc (e := (key, raw)) hal hv
      obtain ⟨hbins, hlast⟩ := BlobArena.allocBlob_place h.sound hl hal
      rw [hal, ok_bind] at hr
      dsimp only at hr
      rw [hslot, ok_bind] at hr
      obtain ⟨pre, r, post, hsizes, hover⟩ :=
        ih (fun e he => hrest e (List.mem_cons_of_mem _ he)) hcopied hlast hr
      rw [hbins, h.size] at hover
      exact ⟨(8 + payload.length) :: pre, r, post, congrArg ((8 + payload.length) :: ·) hsizes, hover⟩

theorem two_mul_sizes (hb : Backed a index) : ∀ r ∈ sizes a (arenaEntries index), ARENA_ALIGN ≤ 2 * r := by
  intro r hr
  obtain ⟨e, he, rfl⟩ := List.mem_map.mp hr
  obtain ⟨hm, ht⟩ := mem_arenaEntries.mp he
  obtain ⟨d, hd⟩ := hb.resolves hm ht
  rw [charge_eq hd, ARENA_ALIGN]
  omega

theorem sum_sizes (ha : Exact a index []) : (sizes a (arenaEntries index)).sum = a.liveBytes := by
  rw [sizes, ← total_spans_arenaEntries]
  exact ha.live.symm

theorem unit_le (hs : a.Sound) : ARENA_ALIGN ≤ a.chunkSize := by
  have := hs.size_ge
  rw [ARENA_ALIGN]
  omega

theorem prepareCompaction_packed {p : PreparedCompaction} (hs : a.Sound) (hb : Backed a index)
    (ha : Exact a index []) (h : a.prepareCompaction heap index = .ok p) :
    Packed ARENA_ALIGN a.chunkSize p.newArena.bins a.liveBytes := by
  rw [BlobArena.prepareCompaction] at h
  split_ifs at h
  have hpacked := packed_empty.pack (by decide) (unit_le hs) (two_mul_sizes hb)
  rw [Nat.zero_add, sum_sizes ha] at hpacked
  rw [relocate_bins hb.copyable (copied_nil hs) (.inl ⟨rfl, rfl⟩) h]
  exact hpacked

theorem prepareCompaction_overflow (hs : a.Sound) (hb : Backed a index) (ha : Exact a index [])
    (h : a.prepareCompaction heap index = .error .offsetOverflow) :
    ∃ n, (n * (a.chunkSize + 2 - ARENA_ALIGN) + ARENA_ALIGN ≤ 2 * a.liveBytes) ∧
      (MAX_ARENA_CHUNKS ≤ n ∨ a.maxCapacity < (n + 1) * a.chunkSize) := by
  rw [BlobArena.prepareCompaction] at h
  split_ifs at h
  · cases h
  obtain ⟨pre, r, post, hsizes, hfit, hlimit⟩ :=
    relocate_overflow hb.copyable (copied_nil hs) (.inl ⟨rfl, rfl⟩) h
  refine ⟨_, ?_, hlimit⟩
  have htwo := two_mul_sizes hb
  have hsum := sum_sizes ha
  rw [hsizes] at htwo hsum
  rw [List.sum_append, List.sum_cons] at hsum
  have hr : ARENA_ALIGN ≤ 2 * r := htwo r (by simp)
  have hround : ARENA_ALIGN ≤ roundUp ARENA_ALIGN r := le_roundUp_self (by decide) (by
    rw [ARENA_ALIGN] at hr
    omega)
  have hpacked := packed_empty.pack (b := ⟨0, 0⟩) (by decide) (unit_le hs)
    (fun x hx => htwo x (List.mem_append_left _ hx))
  rw [Nat.zero_add] at hpacked
  rcases hpacked.opens (by decide) (unit_le hs) hfit with ho | h0
  · exact (Nat.add_le_add_left hround _).trans (ho.trans (by omega))
  · have hzero : (pack ARENA_ALIGN a.chunkSize { BlobArena.new a.chunkSize with
        maxCapacity := a.maxCapacity
        generation := BlobArena.nextGeneration a.generation : BlobArena }.bins pre).count = 0 := h0
    rw [hzero, Nat.zero_mul]
    omega

/-- A compaction that ends with `n` chunks needs `(n - 1) * (chunk_size - 14) + 16` bytes of twice the
live bytes. So where twice the live bytes, with 14 bytes for each chunk, lie below the allocated bytes,
a compaction does not run into the limits and the allocated bytes do not grow. -/
theorem BlobMap.compaction_room {m : BlobMap} (hs : m.Sound) (ha : m.Accounted) (heap : Heap) :
    (∀ p, m.arena.prepareCompaction heap m.index = .ok p → p.newArena.chunks ≠ [] →
      (p.newArena.chunks.length - 1) * (m.arena.chunkSize - 14) + 16 ≤ 2 * m.arena.liveBytes) ∧
    (2 * m.arena.liveBytes + 14 * m.arena.chunks.length < m.arena.totalAllocated + 16 →
      m.arena.prepareCompaction heap m.index ≠ .error .offsetOverflow ∧
      ∀ p, m.arena.prepareCompaction heap m.index = .ok p →
        p.newArena.totalAllocated ≤ m.arena.totalAllocated ∧
        p.newArena.totalAllocated ≤ m.arena.maxCapacity) := by
  have hsize := hs.arena.size_ge
  have hunit : m.arena.chunkSize + 2 - ARENA_ALIGN = m.arena.chunkSize - 14 := by
    rw [ARENA_ALIGN]
    omega
  have hneeds : ∀ p, m.arena.prepareCompaction heap m.index = .ok p → p.newArena.chunks ≠ [] →
      (p.newArena.chunks.length - 1) * (m.arena.chunkSize - 14) + 16 ≤ 2 * m.arena.liveBytes := by
    intro p hp hne
    have hpacked := prepareCompaction_packed hs.arena hs.backed ha hp
    have hstarted := hpacked.started (List.length_pos_of_ne_nil hne).ne'
    have hbound := hpacked.bound
    rw [hunit] at hbound
    exact (Nat.add_le_add_left hstarted _).trans hbound
  -- the chunks there are leave room for the live bytes
  have hroom : 2 * m.arena.liveBytes + 14 * m.arena.chunks.length < m.arena.totalAllocated + 16 →
      2 * m.arena.liveBytes < m.arena.chunks.length * (m.arena.chunkSize - 14) + 16 := by
    intro hlive
    have hsplit : m.arena.chunks.length * m.arena.chunkSize =
        m.arena.chunks.length * (m.arena.chunkSize - 14) + m.arena.chunks.length * 14 := by
      rw [← Nat.mul_add, Nat.sub_add_cancel (by omega)]
    rw [hs.arena.total] at hlive
    omega
  refine ⟨hneeds, fun hlive => ⟨fun hover => ?_, fun p hp => ?_⟩⟩
  · obtain ⟨n, hn, hlimit⟩ := prepareCompaction_overflow hs.arena hs.backed ha hover
    rw [hunit] at hn
    have hlt : n < m.arena.chunks.length := by
      by_contra hge
      have := Nat.mul_le_mul_right (m.arena.chunkSize - 14) (Nat.not_lt.mp hge)
      have := hroom hlive
      rw [ARENA_ALIGN] at hn
      omega
    have hcap := hs.arena.total_le
    rw [hs.arena.total] at hcap
    have hmul := Nat.mul_le_mul_right m.arena.chunkSize (Nat.succ_le_of_lt hlt)
    have hcount := hs.arena.count
    rw [Nat.succ_eq_add_one] at hmul
    omega
  · have hcopied := prepareCompaction_spec hs.arena hs.backed hp
    have hle : p.newArena.chunks.length ≤ m.arena.chunks.length := by
      by_cases hnil : p.newArena.chunks = []
      · rw [hnil]
        exact Nat.zero_le _
      · by_contra hgt
        have hge : m.arena.chunks.length ≤ p.newArena.chunks.length - 1 := by omega
        have := Nat.mul_le_mul_right (m.arena.chunkSize - 14) hge
        have := hneeds p hp hnil
        have := hroom hlive
        omega
    have htotal : p.newArena.totalAllocated ≤ m.arena.totalAllocated := by
      rw [hcopied.sound.total, hs.arena.total, hcopied.size]
      exact Nat.mul_le_mul_right _ hle
    exact ⟨htotal, htotal.trans hs.arena.total_le⟩

end Expanse.Blob
