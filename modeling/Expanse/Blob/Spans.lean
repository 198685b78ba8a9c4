import Mathlib
import Expanse.Blob.ArenaSpec
import Expanse.Blob.Map
import Expanse.Library.Intervals

/-!
# The records an index names

`Backed a index`: every slot word of the index shows a value. `spans` lists the intervals
of the arena that the arena slots name, and `Exact` says that they lie apart and that the
live bytes are their total length. An allocation adds one interval, storing a slot takes
the interval into the index and gives up that of the word it replaces.
-/

namespace Expanse.Blob

open SortedAssoc Intervals ValueSlot

variable {a a' : BlobArena} {index : List (ℕ × ℕ)} {raw slot k g hotMeta : ℕ} {data d : List Byte}

def value (a : BlobArena) (raw : ℕ) : Option Value := (view a raw).map fun v => (v.1.asBytes, v.2)

theorem get_eq (m : BlobMap) (key : Key) :
    m.get key = (m.index.lookup key.val).bind (value m.arena) := by
  rw [BlobMap.get, BlobMap.getView]
  cases m.index.lookup key.val with
  | none => rfl
  | some raw => rfl

theorem value_arena (ht : tag raw = .arenaMeta) :
    value a raw = (a.resolveMeta (arenaMetaLocator raw)).map fun d => (d, arenaMetaMeta raw) := by
  rw [value, view, ht]
  cases a.resolveMeta (arenaMetaLocator raw) with
  | none => rfl
  | some d => rfl

theorem value_word (ht : tag raw ≠ .arenaMeta) :
    value a raw = (slotWordPayload raw).map fun d => (d, 0) := by
  rw [value, view, slotWordPayload]
  cases hraw : tag raw with
  | inline len => rfl
  | arenaMeta => exact absurd hraw ht
  | external => rfl
  | compressedZeroTrim8 => simp [SlotTag.isCompressedInline, Function.comp_def, BlobView.asBytes]
  | compressedAlnum8 => simp [SlotTag.isCompressedInline, Function.comp_def, BlobView.asBytes]
  | compressedAlnum9 => simp [SlotTag.isCompressedInline, Function.comp_def, BlobView.asBytes]
  | compressedNibble more => simp [SlotTag.isCompressedInline, Function.comp_def, BlobView.asBytes]
  | rawWord => rfl

theorem Holds.value_eq (h : Holds slot data) (a : BlobArena) : value a slot = some (data, 0) := by
  rw [value_word h.tag_ne, h.payload, Option.map_some]

theorem locator_lt (hlt : g < ARENA_META_CEILING) : g / ARENA_ALIGN < 2 ^ 32 := by
  rw [ARENA_META_CEILING, Nat.mul_comm] at hlt
  exact Nat.div_lt_of_lt_mul hlt

theorem slotFromGlobal_eq (hg : g % ARENA_ALIGN = 0) (hlt : g < ARENA_META_CEILING)
    (hm : hotMeta ≤ ARENA_META_MAX) :
    slotFromGlobal g hotMeta = .ok (arenaWord hotMeta (g / ARENA_ALIGN)) := by
  rw [slotFromGlobal, if_neg (by omega), if_neg (by omega), newArenaMeta_eq hm (locator_lt hlt)]

theorem locator_mul (hg : g % ARENA_ALIGN = 0) (hlt : g < ARENA_META_CEILING) :
    arenaMetaLocator (arenaWord hotMeta (g / ARENA_ALIGN)) * ARENA_ALIGN = g := by
  rw [arenaMetaLocator_arenaWord (locator_lt hlt)]
  exact Nat.div_mul_cancel (Nat.dvd_of_mod_eq_zero hg)

/-- Every slot word of the index shows a value. -/
structure Backed (a : BlobArena) (index : List (ℕ × ℕ)) : Prop where
  sorted : KeySorted index
  key_lt : ∀ e ∈ index, e.1 < 2 ^ 64
  raw_lt : ∀ e ∈ index, e.2 < 2 ^ 64
  shown : ∀ e ∈ index, (value a e.2).isSome

/-- `a'` reads every record that `a` reads. -/
def Keeps (a a' : BlobArena) : Prop := ∀ x d, a.getBlobSlice x = some d → a'.getBlobSlice x = some d

theorem Keeps.value_eq (hk : Keeps a a') (hs : (value a raw).isSome) : value a' raw = value a raw := by
  by_cases ht : tag raw = .arenaMeta
  · rw [value_arena ht] at hs ⊢
    rw [value_arena ht]
    cases hr : a.resolveMeta (arenaMetaLocator raw) with
    | none => simp [hr] at hs
    | some d => rw [BlobArena.resolveMeta, hk _ _ hr]
  · rw [value_word ht, value_word ht]

theorem Backed.keeps (h : Backed a index) (hk : Keeps a a') : Backed a' index := by
  refine ⟨h.sorted, h.key_lt, h.raw_lt, fun e he => ?_⟩
  rw [hk.value_eq (h.shown e he)]
  exact h.shown e he

theorem Backed.put (h : Backed a index) (hk : k < 2 ^ 64) (hslot : slot < 2 ^ 64)
    (hv : (value a slot).isSome) : Backed a (put k slot index) := by
  have hcase : ∀ e ∈ SortedAssoc.put k slot index, e = (k, slot) ∨ e ∈ index := by
    rintro ⟨x, w⟩ he
    rcases (mem_put h.sorted).mp he with ⟨rfl, rfl⟩ | ⟨-, hm⟩
    · exact .inl rfl
    · exact .inr hm
  refine ⟨h.sorted.put k slot, ?_, ?_, ?_⟩
  all_goals
    intro e he
    rcases hcase e he with rfl | hm
  · exact hk
  · exact h.key_lt e hm
  · exact hslot
  · exact h.raw_lt e hm
  · exact hv
  · exact h.shown e hm

theorem Backed.del (h : Backed a index) (k : ℕ) : Backed a (del k index) := by
  have hsub : ∀ e ∈ SortedAssoc.del k index, e ∈ index := fun e he => List.mem_of_mem_filter he
  exact ⟨h.sorted.del k, fun e he => h.key_lt e (hsub e he), fun e he => h.raw_lt e (hsub e he),
    fun e he => h.shown e (hsub e he)⟩

theorem Backed.resolves (h : Backed a index) {e : ℕ × ℕ} (he : e ∈ index) (ht : tag e.2 = .arenaMeta) :
    ∃ d, a.resolveMeta (arenaMetaLocator e.2) = some d := by
  have hs := h.shown e he
  rw [value_arena ht, Option.isSome_map] at hs
  exact Option.isSome_iff_exists.mp hs

/-- What a slot word is charged: its record with the header, if it resolves. -/
def charge (a : BlobArena) (raw : ℕ) : ℕ :=
  match a.resolveMeta (arenaMetaLocator raw) with
  | some d => 8 + d.length
  | none => 0

/-- The interval of the arena a slot word names. -/
def spanOf (a : BlobArena) (raw : ℕ) : List (ℕ × ℕ) :=
  if tag raw = .arenaMeta then [(arenaMetaLocator raw * ARENA_ALIGN, charge a raw)] else []

def spans (a : BlobArena) (index : List (ℕ × ℕ)) : List (ℕ × ℕ) := index.flatMap fun e => spanOf a e.2

def total (l : List (ℕ × ℕ)) : ℕ := (l.map Prod.snd).sum

theorem total_append (l l' : List (ℕ × ℕ)) : total (l ++ l') = total l + total l' := by
  rw [total, List.map_append, List.sum_append, total, total]

theorem total_perm {l l' : List (ℕ × ℕ)} (h : l.Perm l') : total l = total l' :=
  (h.map Prod.snd).sum_eq

/-- The interval of the word that `k` has. -/
def oldSpan (a : BlobArena) (index : List (ℕ × ℕ)) (k : ℕ) : List (ℕ × ℕ) :=
  match index.lookup k with
  | some raw => spanOf a raw
  | none => []

theorem spans_append (l l' : List (ℕ × ℕ)) : spans a (l ++ l') = spans a l ++ spans a l' :=
  List.flatMap_append

theorem spans_cons (e : ℕ × ℕ) (l : List (ℕ × ℕ)) : spans a (e :: l) = spanOf a e.2 ++ spans a l :=
  List.flatMap_cons

/-- Storing a word exchanges its interval for the one of the word it replaces. -/
theorem spans_put (hs : KeySorted index) (k slot : ℕ) :
    (oldSpan a index k ++ spans a (put k slot index)).Perm (spanOf a slot ++ spans a index) := by
  rcases hs.cut_cases k with ⟨l₁, v, l₂, rfl, hcut⟩ | ⟨l₁, l₂, rfl, hcut⟩
  · rw [put_cut_mem hcut, oldSpan, lookup_cut hs, spans_append, spans_cons, spans_append, spans_cons,
      ← Multiset.coe_eq_coe]
    simp only [← Multiset.coe_add]
    abel
  · rw [put_cut_new hcut, oldSpan, lookup_eq_none hs hcut.not_mem, spans_append, spans_cons, spans_append,
      ← Multiset.coe_eq_coe]
    simp only [← Multiset.coe_add, List.nil_append]
    abel

theorem spans_del (hs : KeySorted index) (k : ℕ) :
    (oldSpan a index k ++ spans a (del k index)).Perm (spans a index) := by
  rcases hs.cut_cases k with ⟨l₁, v, l₂, rfl, hcut⟩ | ⟨l₁, l₂, rfl, hcut⟩
  · rw [del_cut_mem hcut, oldSpan, lookup_cut hs, spans_append, spans_append, spans_cons,
      ← Multiset.coe_eq_coe]
    simp only [← Multiset.coe_add]
    abel
  · rw [del_of_not_mem hcut.not_mem, oldSpan, lookup_eq_none hs hcut.not_mem, List.nil_append]

theorem Keeps.spanOf_eq (hk : Keeps a a') (hr : tag raw = .arenaMeta →
    ∃ d, a.resolveMeta (arenaMetaLocator raw) = some d) : spanOf a' raw = spanOf a raw := by
  rw [spanOf, spanOf]
  split_ifs with ht
  · obtain ⟨d, hd⟩ := hr ht
    rw [charge, charge, hd, BlobArena.resolveMeta, hk _ _ hd]
  · rfl

theorem Keeps.spans_eq (hk : Keeps a a') (hr : ∀ e ∈ index, tag e.2 = .arenaMeta →
    ∃ d, a.resolveMeta (arenaMetaLocator e.2) = some d) : spans a' index = spans a index := by
  rw [spans, spans, List.flatMap_def, List.flatMap_def]
  congr 1
  exact List.map_congr_left fun e he => hk.spanOf_eq (hr e he)

theorem spans_arenaEntries (a : BlobArena) (index : List (ℕ × ℕ)) :
    spans a (arenaEntries index) = spans a index := by
  induction index with
  | nil => rfl
  | cons e index ih =>
    rw [arenaEntries, List.filter_cons]
    by_cases ht : tag e.2 = .arenaMeta
    · rw [if_pos (decide_eq_true ht), spans_cons, spans_cons]
      congr 1
    · rw [if_neg (by simpa using ht), spans_cons, spanOf, if_neg ht, List.nil_append]
      exact ih

theorem mem_spans {x : ℕ × ℕ} (hr : ∀ e ∈ index, tag e.2 = .arenaMeta →
    ∃ d, a.resolveMeta (arenaMetaLocator e.2) = some d) (hx : x ∈ spans a index) :
    ∃ d, a.getBlobSlice x.1 = some d ∧ x.2 = 8 + d.length := by
  obtain ⟨e, he, hxe⟩ := List.mem_flatMap.mp hx
  rw [spanOf] at hxe
  split_ifs at hxe with ht
  · obtain ⟨d, hd⟩ := hr e he ht
    rw [List.mem_singleton] at hxe
    rw [hxe]
    exact ⟨d, hd, by rw [charge, hd]⟩
  · cases hxe

/-- The arena slots of the index, with the intervals `extra` that are not indexed yet, name
records that lie apart, and the live bytes are their total. -/
structure Exact (a : BlobArena) (index extra : List (ℕ × ℕ)) : Prop where
  apart : (extra ++ spans a index).Pairwise Apart
  live : a.liveBytes = total (extra ++ spans a index)
  uniform : ∀ c ∈ a.chunks, c.generation = a.generation

theorem BlobArena.Sound.span_le (hs : a.Sound) (h : a.getBlobSlice g = some d) :
    g + (8 + d.length) ≤ a.totalAllocated := by
  obtain ⟨hlt, hend⟩ := hs.record_end h
  have hmul : (g / a.chunkSize + 1) * a.chunkSize ≤ a.chunks.length * a.chunkSize :=
    Nat.mul_le_mul_right _ hlt
  rw [hs.total]
  omega

/-- An allocation adds the interval of its record. -/
theorem Exact.allocated (h : Exact a index []) (hr : ∀ e ∈ index, tag e.2 = .arenaMeta →
    ∃ d, a.resolveMeta (arenaMetaLocator e.2) = some d) (hal : BlobArena.Allocated a data g a') :
    Exact a' index [(g, 8 + data.length)] := by
  have hkeeps : Keeps a a' := fun x d hx => hal.keeps hx
  have hspans := hkeeps.spans_eq hr
  have hpair : ([(g, 8 + data.length)] ++ spans a' index).Pairwise Apart := by
    rw [hspans]
    refine List.pairwise_cons.mpr ⟨fun x hx => ?_, h.apart⟩
    obtain ⟨d, hd, hlen⟩ := mem_spans hr hx
    have hap := hal.apart hd
    rw [← hlen] at hap
    exact hap.symm
  have hbound : total ([(g, 8 + data.length)] ++ spans a' index) ≤ a'.totalAllocated := by
    refine sum_le hpair fun x hx => ?_
    rcases List.mem_cons.mp hx with rfl | hx
    · exact hal.sound.span_le hal.reads
    · rw [hspans] at hx
      obtain ⟨d, hd, hlen⟩ := mem_spans hr hx
      rw [hlen]
      exact hal.sound.span_le (hal.keeps hd)
  have hcap : a'.totalAllocated ≤ 2 ^ 36 := hal.sound.total_le.trans hal.sound.cap_le
  refine ⟨hpair, ?_, hal.uniform h.uniform⟩
  have hlive := h.live
  rw [List.nil_append] at hlive
  rw [hspans, total_append] at hbound
  rw [hal.live, hlive, addUsize, hspans, total_append]
  have hone : total [(g, 8 + data.length)] = 8 + data.length := by simp [total]
  omega

theorem Exact.allocated_live (h : Exact a index []) (hr : ∀ e ∈ index, tag e.2 = .arenaMeta →
    ∃ d, a.resolveMeta (arenaMetaLocator e.2) = some d) (hal : BlobArena.Allocated a data g a') :
    a'.liveBytes = a.liveBytes + (8 + data.length) := by
  have hkeeps : Keeps a a' := fun x d hx => hal.keeps hx
  have hone : total [(g, 8 + data.length)] = 8 + data.length := by simp [total]
  rw [(h.allocated hr hal).live, h.live, hkeeps.spans_eq hr, total_append, List.nil_append, hone, Nat.add_comm]

theorem spanOf_record (hg : g % ARENA_ALIGN = 0) (hlt : g < ARENA_META_CEILING)
    (hread : a.getBlobSlice g = some data) :
    spanOf a (arenaWord hotMeta (g / ARENA_ALIGN)) = [(g, 8 + data.length)] := by
  rw [spanOf, if_pos tag_arenaWord, charge, BlobArena.resolveMeta, locator_mul hg hlt, hread]

theorem value_record (hg : g % ARENA_ALIGN = 0) (hlt : g < ARENA_META_CEILING)
    (hm : hotMeta ≤ ARENA_META_MAX) (hread : a.getBlobSlice g = some data) :
    value a (arenaWord hotMeta (g / ARENA_ALIGN)) = some (data, hotMeta) := by
  rw [value_arena tag_arenaWord, BlobArena.resolveMeta, locator_mul hg hlt, hread,
    arenaMetaMeta_arenaWord hm (locator_lt hlt), Option.map_some]

def BlobArena.withLive (a : BlobArena) (n : ℕ) : BlobArena := { a with liveBytes := n }

def discharge (a : BlobArena) (raw : ℕ) : ℕ := total (spanOf a raw)

theorem recordDeletedSlot_eq (a : BlobArena) (raw : ℕ) :
    a.recordDeletedSlot raw = a.withLive (a.liveBytes - discharge a raw) := by
  rw [BlobArena.recordDeletedSlot, discharge, spanOf]
  split_ifs with ht
  · rw [BlobArena.recordDeleted, charge, BlobArena.resolveMeta]
    cases a.getBlobSlice (arenaMetaLocator raw * ARENA_ALIGN) with
    | none => rfl
    | some d => simp [total, BlobArena.withLive]
  · rfl

theorem BlobArena.Sound.withLive (h : a.Sound) (n : ℕ) : (a.withLive n).Sound :=
  ⟨h.size_ge, h.size_le, h.size_mod, h.chunk, h.count, h.total, h.total_le, h.cap_le, h.gen_pos, h.gen_lt⟩

/-- The arena after the record of the old word of `k` is discharged. -/
def dischargeKey (a : BlobArena) (index : List (ℕ × ℕ)) (k : ℕ) : BlobArena :=
  match index.lookup k with
  | some old => a.recordDeletedSlot old
  | none => a

theorem dischargeKey_eq (a : BlobArena) (index : List (ℕ × ℕ)) (k : ℕ) :
    dischargeKey a index k = a.withLive (a.liveBytes - total (oldSpan a index k)) := by
  rw [dischargeKey, oldSpan]
  cases index.lookup k with
  | none => rfl
  | some old => exact recordDeletedSlot_eq a old

/-- Accounts that exchange some intervals for others. -/
theorem Exact.exchange {index' extra : List (ℕ × ℕ)} (h : Exact a index extra)
    (hp : (oldSpan a index k ++ spans a index').Perm (extra ++ spans a index)) :
    Exact (dischargeKey a index k) index' [] := by
  rw [dischargeKey_eq]
  have hpair : (oldSpan a index k ++ spans a index').Pairwise Apart :=
    (hp.pairwise_iff fun h => Apart.symm h).mpr h.apart
  refine ⟨(List.pairwise_append.mp hpair).2.1, ?_, h.uniform⟩
  have htotal := total_perm hp
  rw [total_append, ← h.live] at htotal
  show a.liveBytes - total (oldSpan a index k) = total ([] ++ spans a index')
  rw [List.nil_append]
  omega

end Expanse.Blob
