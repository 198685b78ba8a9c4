import Mathlib
import Expanse.Blob.Spans

/-!
# What a compaction does

The copy takes every arena entry of the index to an entry of the new arena with the same
key and value, and the new records lie apart. Rewriting the index replaces exactly those
entries. A compaction therefore keeps every value, and leaves exact accounts whatever they
were before.
-/

namespace Expanse.Blob

open SortedAssoc Intervals ValueSlot

variable {a N N' : BlobArena} {heap : Heap} {index es kept : List (ℕ × ℕ)} {e e' : ℕ × ℕ}

/-- `e'` is the entry of the new arena for `e`. -/
structure Moved (a N : BlobArena) (e e' : ℕ × ℕ) : Prop where
  key : e'.1 = e.1
  tag_eq : tag e'.2 = .arenaMeta
  raw_lt : e'.2 < 2 ^ 64
  shown : (value a e.2).isSome
  value_eq : value N e'.2 = value a e.2

theorem Moved.keeps (h : Moved a N e e') (hk : Keeps N N') : Moved a N' e e' := by
  refine ⟨h.key, h.tag_eq, h.raw_lt, h.shown, ?_⟩
  rw [hk.value_eq (by rw [h.value_eq]; exact h.shown), h.value_eq]

/-- The entries `es` have been copied into `N`, as `kept`. -/
structure Copied (a : BlobArena) (es kept : List (ℕ × ℕ)) (N : BlobArena) : Prop where
  sound : N.Sound
  size : N.chunkSize = a.chunkSize
  cap : N.maxCapacity = a.maxCapacity
  gen : N.generation = BlobArena.nextGeneration a.generation
  moved : List.Forall₂ (Moved a N) es kept
  exact : Exact N kept []
  empty : kept = [] → N.totalAllocated = 0

/-- Every kept entry is one the copy made. -/
theorem Copied.of_mem_kept (h : Copied a es kept N) (he' : e' ∈ kept) : ∃ e ∈ es, Moved a N e e' := by
  obtain ⟨i, hi, rfl⟩ := List.mem_iff_getElem.mp he'
  have hlen := h.moved.length_eq
  exact ⟨es[i], List.getElem_mem (by omega), h.moved.get (by omega) hi⟩

theorem Copied.of_mem (h : Copied a es kept N) (he : e ∈ es) : ∃ e' ∈ kept, Moved a N e e' := by
  obtain ⟨i, hi, rfl⟩ := List.mem_iff_getElem.mp he
  have hlen := h.moved.length_eq
  exact ⟨kept[i], List.getElem_mem (by omega), h.moved.get hi (by omega)⟩

theorem Copied.resolves (h : Copied a es kept N) :
    ∀ e ∈ kept, tag e.2 = .arenaMeta → ∃ d, N.resolveMeta (arenaMetaLocator e.2) = some d := by
  intro e' he' ht
  obtain ⟨e, -, hm⟩ := h.of_mem_kept he'
  have hs := hm.shown
  rw [← hm.value_eq, value_arena ht, Option.isSome_map] at hs
  exact Option.isSome_iff_exists.mp hs

theorem Copied.keys (h : Copied a es kept N) : kept.map Prod.fst = es.map Prod.fst := by
  have hm := h.moved
  clear h
  induction hm with
  | nil => rfl
  | cons hhead _ ih => rw [List.map_cons, List.map_cons, hhead.key, ih]

theorem Exact.perm {index' extra extra' : List (ℕ × ℕ)} (h : Exact a index extra)
    (hp : (extra' ++ spans a index').Perm (extra ++ spans a index)) : Exact a index' extra' :=
  ⟨(hp.pairwise_iff fun h => Apart.symm h).mpr h.apart, by rw [total_perm hp, h.live], h.uniform⟩

theorem Copied.snoc (h : Copied a es kept N) {granted : Bool} {data : List Byte} {g : ℕ}
    (hal : N.allocBlob granted data = .ok (g, N')) (hv : value a e.2 = some (data, arenaMetaMeta e.2)) :
    slotFromGlobal g (arenaMetaMeta e.2) = .ok (arenaWord (arenaMetaMeta e.2) (g / ARENA_ALIGN)) ∧
    Copied a (es ++ [e]) (kept ++ [(e.1, arenaWord (arenaMetaMeta e.2) (g / ARENA_ALIGN))]) N' := by
  have hal := BlobArena.allocBlob_spec h.sound hal
  have hkeeps : Keeps N N' := fun x d hx => hal.keeps hx
  have hread := value_record hal.aligned hal.below (show arenaMetaMeta e.2 ≤ _ from arenaMetaMeta_le) hal.reads
  refine ⟨slotFromGlobal_eq hal.aligned hal.below arenaMetaMeta_le, hal.sound, hal.size.trans h.size,
    hal.cap.trans h.cap, hal.gen.trans h.gen, ?_, ?_, by simp⟩
  · refine List.rel_append (h.moved.imp fun _ _ hm => hm.keeps hkeeps) (.cons ?_ .nil)
    exact ⟨rfl, tag_arenaWord, arenaWord_lt arenaMetaMeta_le (locator_lt hal.below),
      by rw [hv]; rfl, by rw [hread, hv]⟩
  · refine (h.exact.allocated h.resolves hal).perm ?_
    have hnil : spans N' [] = [] := rfl
    rw [spans_append, spans_cons, spanOf_record hal.aligned hal.below hal.reads, hnil, List.append_nil,
      List.nil_append]
    exact List.perm_append_comm

theorem relocate_spec (es : List (ℕ × ℕ)) {rest : List (ℕ × ℕ)} {p : PreparedCompaction}
    (hrest : ∀ e ∈ rest, tag e.2 = .arenaMeta ∧ (value a e.2).isSome) (h : Copied a es kept N)
    (hr : BlobArena.relocate heap a rest N kept = .ok p) :
    Copied a (es ++ rest) p.rewrites p.newArena := by
  induction rest generalizing es kept N with
  | nil =>
    cases hr
    rw [List.append_nil]
    exact h
  | cons e rest ih =>
    obtain ⟨key, raw⟩ := e
    obtain ⟨ht, hs⟩ := hrest _ List.mem_cons_self
    rw [value_arena ht, Option.isSome_map] at hs
    obtain ⟨payload, hp⟩ := Option.isSome_iff_exists.mp hs
    have hv : value a raw = some (payload, arenaMetaMeta raw) := by rw [value_arena ht, hp, Option.map_some]
    rw [BlobArena.relocate, hp] at hr
    dsimp only at hr
    cases hal : N.allocBlob (heap (.copied N.chunks.length)) payload with
    | error err =>
      rw [hal] at hr
      cases hr
    | ok r =>
      obtain ⟨g, N'⟩ := r
      obtain ⟨hslot, hcopied⟩ := h.snoc (e := (key, raw)) hal hv
      rw [hal, ok_bind] at hr
      dsimp only at hr
      rw [hslot, ok_bind] at hr
      rw [List.append_cons]
      exact ih _ (fun e he => hrest e (List.mem_cons_of_mem _ he)) hcopied hr

theorem clamp_of_le {x lo hi : ℕ} (h₁ : lo ≤ x) (h₂ : x ≤ hi) : clamp x lo hi = x := by
  rw [clamp, if_neg (by omega), if_neg (by omega)]

theorem nextGeneration_pos (g : ℕ) : 0 < BlobArena.nextGeneration g := by
  rw [BlobArena.nextGeneration]
  split_ifs <;> omega

theorem nextGeneration_lt (g : ℕ) : BlobArena.nextGeneration g < 2 ^ 32 := by
  rw [BlobArena.nextGeneration]
  split_ifs
  · decide
  · exact Nat.mod_lt _ (by decide)

theorem mem_arenaEntries : e ∈ arenaEntries index ↔ e ∈ index ∧ tag e.2 = .arenaMeta := by
  rw [arenaEntries, List.mem_filter, decide_eq_true_iff]

theorem copied_nil (hs : a.Sound) : Copied a [] []
    { BlobArena.new a.chunkSize with
      maxCapacity := a.maxCapacity, generation := BlobArena.nextGeneration a.generation } := by
  have hsize : (BlobArena.new a.chunkSize).chunkSize = a.chunkSize := by
    show alignUp (clamp a.chunkSize 4096 MAX_CHUNK_CAPACITY) = a.chunkSize
    rw [clamp_of_le hs.size_ge hs.size_le, alignUp_of_mod hs.size_mod]
  refine ⟨⟨?_, ?_, ?_, by simp [BlobArena.new], Nat.zero_le _, ?_, Nat.zero_le _, hs.cap_le,
    nextGeneration_pos _,
    nextGeneration_lt _⟩, hsize, rfl, rfl, .nil, ⟨.nil, rfl, by simp [BlobArena.new]⟩, fun _ => rfl⟩
  · exact hsize.symm ▸ hs.size_ge
  · exact hsize.symm ▸ hs.size_le
  · exact hsize.symm ▸ hs.size_mod
  · exact (Nat.zero_mul _).symm

theorem Backed.copyable (hb : Backed a index) :
    ∀ e ∈ arenaEntries index, tag e.2 = .arenaMeta ∧ (value a e.2).isSome := by
  intro e he
  obtain ⟨hm, ht⟩ := mem_arenaEntries.mp he
  exact ⟨ht, hb.shown e hm⟩

/-- Whatever the entries are, copying keeps the new arena sound. -/
theorem relocate_sound {rest : List (ℕ × ℕ)} {p : PreparedCompaction} (hs : N.Sound)
    (h : BlobArena.relocate heap a rest N kept = .ok p) :
    p.newArena.Sound ∧ p.newArena.chunkSize = N.chunkSize ∧ p.newArena.maxCapacity = N.maxCapacity := by
  induction rest generalizing N kept with
  | nil =>
    cases h
    exact ⟨hs, rfl, rfl⟩
  | cons e rest ih =>
    obtain ⟨key, raw⟩ := e
    rw [BlobArena.relocate] at h
    cases hres : a.resolveMeta (arenaMetaLocator raw) with
    | none =>
      rw [hres] at h
      exact ih hs h
    | some payload =>
      rw [hres] at h
      cases hal : N.allocBlob (heap (.copied N.chunks.length)) payload with
      | error e =>
        simp only [hal] at h
        cases h
      | ok r =>
        simp only [hal, ok_bind] at h
        have hspec := BlobArena.allocBlob_spec hs hal
        rw [slotFromGlobal_eq hspec.aligned hspec.below arenaMetaMeta_le, ok_bind] at h
        obtain ⟨hp, hsize, hcap⟩ := ih hspec.sound h
        exact ⟨hp, hsize.trans hspec.size, hcap.trans hspec.cap⟩

def NoChunk (e : ArenaError) : Prop := e = .allocationFailed ∨ e = .offsetOverflow

theorem allocBlob_error {granted : Bool} {data : List Byte} {e : ArenaError}
    (h : a.allocBlob granted data = .error e) : NoChunk e := by
  have hchunk : ∀ {c : ArenaChunk} {e : ArenaError}, c.alloc data = .error e → NoChunk e := by
    intro c e h
    rw [ArenaChunk.alloc] at h
    split_ifs at h
    cases h
    exact .inl rfl
  rw [BlobArena.allocBlob] at h
  split_ifs at h
  · cases h
    exact .inl rfl
  · cases hroom : a.roomFor data.length with
    | some r =>
      rw [hroom] at h
      dsimp only at h
      cases hc : r.2.alloc data with
      | error e =>
        rw [hc] at h
        cases h
        exact hchunk hc
      | ok x =>
        rw [hc] at h
        cases h
    | none =>
      rw [hroom] at h
      dsimp only at h
      rw [BlobArena.allocBlobInNewChunk] at h
      split_ifs at h
      · cases h
        exact .inr rfl
      · cases h
        exact .inr rfl
      · cases hn : ArenaChunk.new granted a.chunkSize a.generation with
        | error e =>
          rw [hn] at h
          cases h
          rw [ArenaChunk.new] at hn
          split_ifs at hn
          all_goals
            cases hn
            exact .inl rfl
        | ok c =>
          rw [hn, ok_bind] at h
          cases hc : c.alloc data with
          | error e =>
            rw [hc] at h
            cases h
            exact hchunk hc
          | ok x =>
            rw [hc] at h
            cases h

theorem relocate_error {rest : List (ℕ × ℕ)} {e : ArenaError} (hs : N.Sound)
    (h : BlobArena.relocate heap a rest N kept = .error e) : NoChunk e := by
  induction rest generalizing N kept with
  | nil => cases h
  | cons x rest ih =>
    obtain ⟨key, raw⟩ := x
    rw [BlobArena.relocate] at h
    cases hres : a.resolveMeta (arenaMetaLocator raw) with
    | none =>
      rw [hres] at h
      exact ih hs h
    | some payload =>
      rw [hres] at h
      cases hal : N.allocBlob (heap (.copied N.chunks.length)) payload with
      | error e' =>
        simp only [hal] at h
        cases h
        exact allocBlob_error hal
      | ok r =>
        simp only [hal, ok_bind] at h
        have hspec := BlobArena.allocBlob_spec hs hal
        rw [slotFromGlobal_eq hspec.aligned hspec.below arenaMetaMeta_le, ok_bind] at h
        exact ih hspec.sound h

theorem prepareCompaction_error {e : ArenaError} (hs : a.Sound)
    (h : a.prepareCompaction heap index = .error e) : NoChunk e := by
  rw [BlobArena.prepareCompaction] at h
  split_ifs at h
  · cases h
    exact .inl rfl
  · exact relocate_error (copied_nil hs).sound h

theorem prepareCompaction_spec {p : PreparedCompaction} (hs : a.Sound) (hb : Backed a index)
    (h : a.prepareCompaction heap index = .ok p) :
    Copied a (arenaEntries index) p.rewrites p.newArena := by
  rw [BlobArena.prepareCompaction] at h
  split_ifs at h
  exact relocate_spec [] hb.copyable (copied_nil hs) h

theorem rewriteIndex_spec {moves : List (ℕ × ℕ)} (hs : KeySorted index) (hnd : (moves.map Prod.fst).Nodup)
    (hin : ∀ e ∈ moves, (index.lookup e.1).isSome) :
    KeySorted (BlobArena.rewriteIndex index moves) ∧ ∀ x w, (x, w) ∈ BlobArena.rewriteIndex index moves ↔
      (x, w) ∈ moves ∨ x ∉ moves.map Prod.fst ∧ (x, w) ∈ index := by
  induction moves generalizing index with
  | nil => exact ⟨hs, by simp [BlobArena.rewriteIndex]⟩
  | cons e rest ih =>
    obtain ⟨k, raw⟩ := e
    obtain ⟨hk, hnd⟩ := List.nodup_cons.mp hnd
    rw [BlobArena.rewriteIndex, if_pos (hin _ List.mem_cons_self)]
    have hin' : ∀ e ∈ rest, ((put k raw index).lookup e.1).isSome := by
      intro e he
      rw [lookup_put hs]
      split_ifs
      · rfl
      · exact hin e (List.mem_cons_of_mem _ he)
    obtain ⟨hsorted, hmem⟩ := ih (hs.put k raw) hnd hin'
    refine ⟨hsorted, fun x w => ?_⟩
    rw [hmem, mem_put hs, List.mem_cons, Prod.mk.injEq, List.map_cons, List.mem_cons]
    by_cases hx : x = k
    · subst hx
      simp [hk]
      tauto
    · simp [hx]

/-- The index of a compaction: its arena entries are the copied ones, the others stay. -/
structure Rewritten (index kept index' : List (ℕ × ℕ)) : Prop where
  sorted : KeySorted index'
  arena : arenaEntries index' = kept
  word : ∀ e, tag e.2 ≠ .arenaMeta → (e ∈ index' ↔ e ∈ index)

theorem Copied.rewritten (h : Copied a (arenaEntries index) kept N) (hs : KeySorted index) :
    Rewritten index kept (BlobArena.rewriteIndex index kept) := by
  have hsE : KeySorted (arenaEntries index) := hs.filter _
  have hsK : KeySorted kept := by
    rw [keySorted_iff, h.keys, ← keySorted_iff]
    exact hsE
  have hnd : (kept.map Prod.fst).Nodup := hsK.nodup_keys
  have hin : ∀ e ∈ kept, (index.lookup e.1).isSome := by
    intro e he
    obtain ⟨e₀, he₀, hm⟩ := h.of_mem_kept he
    rw [hm.key, lookup_of_mem hs (mem_arenaEntries.mp he₀).1]
    rfl
  obtain ⟨hsorted, hmem⟩ := rewriteIndex_spec hs hnd hin
  refine ⟨hsorted, ?_, ?_⟩
  · refine KeySorted.ext (hsorted.filter _) hsK fun x w => ?_
    rw [mem_arenaEntries, hmem]
    constructor
    · rintro ⟨hk | ⟨hx, hi⟩, ht⟩
      · exact hk
      · refine absurd ?_ hx
        rw [h.keys]
        exact List.mem_map_of_mem (f := Prod.fst) (mem_arenaEntries.mpr ⟨hi, ht⟩)
    · intro hk
      obtain ⟨e₀, -, hm⟩ := h.of_mem_kept hk
      exact ⟨.inl hk, hm.tag_eq⟩
  · rintro ⟨x, w⟩ ht
    rw [hmem]
    constructor
    · rintro (hk | ⟨-, hi⟩)
      · obtain ⟨e₀, -, hm⟩ := h.of_mem_kept hk
        exact absurd hm.tag_eq ht
      · exact hi
    · intro hi
      refine .inr ⟨fun hx => ?_, hi⟩
      rw [h.keys] at hx
      obtain ⟨⟨y, v⟩, he, hy⟩ := List.mem_map.mp hx
      obtain ⟨hm, hta⟩ := mem_arenaEntries.mp he
      dsimp only at hy
      subst hy
      have : some v = some w := by rw [← lookup_of_mem hs hm, lookup_of_mem hs hi]
      obtain rfl := Option.some.inj this
      exact ht hta

theorem Copied.lookup_value (h : Copied a (arenaEntries index) kept N) (hs : KeySorted index) {index'}
    (hr : Rewritten index kept index') (k : ℕ) :
    (index'.lookup k).bind (value N) = (index.lookup k).bind (value a) := by
  cases hl : index.lookup k with
  | some raw =>
    have hm := (lookup_eq_some_iff hs).mp hl
    by_cases ht : tag raw = .arenaMeta
    · obtain ⟨⟨x, w⟩, he', hmv⟩ := h.of_mem (mem_arenaEntries.mpr ⟨hm, ht⟩)
      have hx : x = k := hmv.key
      subst hx
      rw [← hr.arena] at he'
      rw [lookup_of_mem hr.sorted (mem_arenaEntries.mp he').1]
      exact hmv.value_eq
    · rw [lookup_of_mem hr.sorted ((hr.word (k, raw) ht).mpr hm), Option.bind_some, Option.bind_some,
        value_word ht, value_word ht]
  | none =>
    rw [lookup_eq_none hr.sorted]
    · rfl
    · intro w hw
      by_cases ht : tag w = .arenaMeta
      · have hk : (k, w) ∈ kept := by
          rw [← hr.arena]
          exact mem_arenaEntries.mpr ⟨hw, ht⟩
        obtain ⟨⟨x, v⟩, he, hmv⟩ := h.of_mem_kept hk
        have hx : k = x := hmv.key
        subst hx
        rw [lookup_of_mem hs (mem_arenaEntries.mp he).1] at hl
        cases hl
      · rw [lookup_of_mem hs ((hr.word (k, w) ht).mp hw)] at hl
        cases hl

theorem Copied.backed (h : Copied a (arenaEntries index) kept N) (hb : Backed a index) {index'}
    (hr : Rewritten index kept index') : Backed N index' := by
  have hcase : ∀ e ∈ index', (∃ e₀ ∈ index, Moved a N e₀ e) ∨ e ∈ index ∧ tag e.2 ≠ .arenaMeta := by
    intro e he
    by_cases ht : tag e.2 = .arenaMeta
    · have hk : e ∈ kept := by
        rw [← hr.arena]
        exact mem_arenaEntries.mpr ⟨he, ht⟩
      obtain ⟨e₀, he₀, hmv⟩ := h.of_mem_kept hk
      exact .inl ⟨e₀, (mem_arenaEntries.mp he₀).1, hmv⟩
    · exact .inr ⟨(hr.word e ht).mp he, ht⟩
  refine ⟨hr.sorted, ?_, ?_, ?_⟩
  all_goals
    intro e he
    rcases hcase e he with ⟨e₀, he₀, hmv⟩ | ⟨hi, ht⟩
  · rw [hmv.key]
    exact hb.key_lt e₀ he₀
  · exact hb.key_lt e hi
  · exact hmv.raw_lt
  · exact hb.raw_lt e hi
  · rw [hmv.value_eq]
    exact hmv.shown
  · have hs := hb.shown e hi
    rw [value_word ht] at hs ⊢
    exact hs

theorem Copied.exact_index (h : Copied a es kept N) {index'} (hr : Rewritten index kept index') :
    Exact N index' [] := by
  refine h.exact.perm ?_
  rw [← hr.arena, spans_arenaEntries]

/-- The copy holds the same live bytes as the entries it was made of. -/
theorem Copied.total_eq (h : Copied a es kept N) (ht : ∀ e ∈ es, tag e.2 = .arenaMeta) :
    N.liveBytes = total (spans a es) := by
  rw [h.exact.live, List.nil_append]
  have hm := h.moved
  clear h
  induction hm with
  | nil => rfl
  | @cons e e' es kept hhead _ ih =>
    have hte := ht e List.mem_cons_self
    have hv := hhead.value_eq
    rw [value_arena hhead.tag_eq, value_arena hte] at hv
    have hcharge : charge N e'.2 = charge a e.2 := by
      rw [charge, charge]
      cases h₁ : N.resolveMeta (arenaMetaLocator e'.2) with
      | none =>
        cases h₂ : a.resolveMeta (arenaMetaLocator e.2) with
        | none => rfl
        | some d => simp [h₁, h₂] at hv
      | some d' =>
        cases h₂ : a.resolveMeta (arenaMetaLocator e.2) with
        | none => simp [h₁, h₂] at hv
        | some d =>
          rw [h₁, h₂, Option.map_some, Option.map_some] at hv
          rw [(Prod.mk.inj (Option.some.inj hv)).1]
    rw [spans_cons, spans_cons, total_append, total_append, ih fun x hx => ht x (List.mem_cons_of_mem e hx),
      spanOf, spanOf, if_pos hhead.tag_eq, if_pos hte, hcharge]
    rfl

theorem install_sound (hs : N.Sound) (hsize : N.chunkSize = a.chunkSize) (hcap : N.maxCapacity = a.maxCapacity) :
    (a.install N).Sound := by
  refine ⟨?_, ?_, ?_, ?_, hs.count, ?_, ?_, ?_, hs.gen_pos, hs.gen_lt⟩
  · exact hsize ▸ hs.size_ge
  · exact hsize ▸ hs.size_le
  · exact hsize ▸ hs.size_mod
  · exact hsize ▸ hs.chunk
  · exact hsize ▸ hs.total
  · exact hcap ▸ hs.total_le
  · exact hcap ▸ hs.cap_le

theorem Copied.install_keeps (h : Copied a es kept N) : Keeps N (a.install N) := by
  intro x d hx
  rw [BlobArena.getBlobSlice, h.size] at hx
  exact hx

theorem Copied.install_exact (h : Copied a es kept N)
    (hr : ∀ e ∈ index, tag e.2 = .arenaMeta → ∃ d, N.resolveMeta (arenaMetaLocator e.2) = some d)
    (he : Exact N index []) : Exact (a.install N) index [] := by
  have hspans := h.install_keeps.spans_eq hr
  refine ⟨?_, ?_, he.uniform⟩
  · rw [hspans]
    exact he.apart
  · rw [hspans]
    exact he.live

end Expanse.Blob
