import Expanse.Blob32.Map
import Expanse.Library.Slab

/-!
# Runs of a 32-bit blob map

Whatever a caller does to a blob map, in any order, the map answers as a sorted list of values does.
The invariant accounts for the slab: each of its slots is the record of one key, or free. So an
insertion is refused exactly if all 4096 slots are records of keys and its own key has none.
-/

namespace Expanse.Blob32

open Bytes SortedAssoc Runs Slab
open Trie32 (ExpanseMap32)
open ValueSlot32

namespace ExpanseBlobMap32

/-- What the index stores under a key, with the number of its record. -/
inductive Kept where
  | inline (data : List Byte)
  | record (data : List Byte) (hot off : ℕ)

namespace Kept

def word : Kept → ℕ
  | inline data => ofLe (inlineBytes data)
  | record _ hot off => arenaWord hot off

def value : Kept → List Byte × ℕ
  | inline data => (data, 0)
  | record data hot _ => (data, hot)

def slots : Kept → List (ℕ × List Byte)
  | inline _ => []
  | record data _ off => [(off, data)]

def Fits : Kept → Prop
  | inline data => data.length ≤ 3
  | record data hot _ => hot ≤ 0x0FFF ∧ small (data, hot) = false

/-- The slab has its record. -/
structure Good (w : Kept) (arena : List (Option (List Byte))) : Prop where
  fits : w.Fits
  holds : ∀ x ∈ w.slots, arena[x.1]? = some (some x.2)

end Kept

section Words

variable {m : ExpanseBlobMap32} {w : Kept} {arena : List (Option (List Byte))} {data : List Byte} {hot off : ℕ}

theorem small_inline (h : data.length ≤ 3) : small (data, 0) = true := by
  rw [small, decide_eq_true h]
  rfl

/-- A value takes a slot of the slab exactly if its word cannot hold it. -/
theorem Kept.Fits.length_slots (h : w.Fits) : w.slots.length = if small w.value then 0 else 1 := by
  cases w with
  | inline data =>
    rw [value, if_pos (small_inline h)]
    rfl
  | record data hot off =>
    rw [value, h.2]
    rfl

theorem good_inline (h : data.length ≤ 3) : (Kept.inline data).Good arena :=
  ⟨h, fun _ hx => absurd hx List.not_mem_nil⟩

theorem good_record (hm : hot ≤ 0x0FFF) (hsmall : small (data, hot) = false)
    (hat : arena[off]? = some (some data)) :
    (Kept.record data hot off).Good arena := by
  refine ⟨⟨hm, hsmall⟩, fun x hx => ?_⟩
  obtain rfl := List.mem_singleton.mp hx
  exact hat

theorem Kept.Good.at (h : (Kept.record data hot off).Good arena) : arena[off]? = some (some data) :=
  h.holds (off, data) List.mem_cons_self

theorem Kept.Good.off_lt (h : (Kept.record data hot off).Good arena) : off < arena.length :=
  (List.getElem?_eq_some_iff.mp h.at).1

theorem Kept.Good.word_lt (h : w.Good arena) (hsize : arena.length ≤ 0x1000) : w.word < 2 ^ 32 := by
  cases w with
  | inline data => exact inline_lt h.fits
  | record data hot off =>
    have hoff := h.off_lt
    exact arenaWord_lt h.fits.1 (by omega)

theorem tag_inline_ne (h : data.length ≤ 3) :
    tag (ofLe (inlineBytes data)) ≠ .arena ∧ tag (ofLe (inlineBytes data)) ≠ .rawWord := by
  rw [tag_inline h]
  have hcases : data.length = 0 ∨ data.length = 1 ∨ data.length = 2 ∨ data.length = 3 := by omega
  rcases hcases with hl | hl | hl | hl <;> rw [hl] <;> exact ⟨by decide, by decide⟩

theorem names_inline (h : data.length ≤ 3) : m.names (Kept.inline data).word = false := by
  rw [names, Kept.word, decide_eq_false (tag_inline_ne h).1, Bool.false_and]

theorem slabOffset_record (h : (Kept.record data hot off).Good m.arena)
    (hsize : m.arena.length ≤ 0x1000) :
    slabOffset (Kept.record data hot off).word = off ∧ m.names (Kept.record data hot off).word = true := by
  have hoff := h.off_lt
  have hslab : slabOffset (Kept.record data hot off).word = off := slabOffset_arenaWord (by omega)
  refine ⟨hslab, ?_⟩
  rw [names, hslab, decide_eq_true hoff, Bool.and_true]
  exact decide_eq_true tag_arenaWord

theorem view_word (h : w.Good m.arena) (hsize : m.arena.length ≤ 0x1000) :
    ∃ v, m.view w.word = some (v, w.value.2) ∧ v.asBytes = w.value.1 := by
  cases w with
  | inline data =>
    have hbytes : ((data ++ List.replicate (3 - data.length) (0 : Byte)).take data.length) = data :=
      List.take_left
    refine ⟨.inline (inlinePayload (Kept.inline data).word).1 (inlinePayload (Kept.inline data).word).2, ?_, ?_⟩
    · obtain ⟨harena, hraw⟩ := tag_inline_ne h.fits
      rw [view]
      split
      · exact absurd ‹_› harena
      · exact absurd ‹_› hraw
      · rfl
    · rw [BlobView32.asBytes, Kept.word, inlinePayload_inline h.fits]
      exact hbytes
  | record data hot off =>
    have hoff := h.off_lt
    refine ⟨.arena data, ?_, rfl⟩
    rw [view, show tag (Kept.record data hot off).word = .arena from tag_arenaWord]
    dsimp only
    rw [(slabOffset_record h hsize).1, h.at, Kept.word, hotMeta_arenaWord h.fits.1 (by omega)]
    rfl

theorem hot_word (h : w.Good arena) (hsize : arena.length ≤ 0x1000) :
    (if tag w.word = .arena then hotMeta w.word else 0) = w.value.2 := by
  cases w with
  | inline data => exact if_neg (tag_inline_ne h.fits).1
  | record data hot off =>
    have hoff := h.off_lt
    rw [if_pos (show tag (Kept.record data hot off).word = .arena from tag_arenaWord), Kept.word,
      hotMeta_arenaWord h.fits.1 (by omega)]
    rfl

end Words

def taken (g : List (ℕ × Kept)) : List (ℕ × List Byte) := g.flatMap fun x => x.2.slots

def values (g : List (ℕ × Kept)) : List (ℕ × (List Byte × ℕ)) := g.map fun x => (x.1, x.2.value)

/-- The state as a list of what it keeps. -/
structure Rep (m : ExpanseBlobMap32) (g : List (ℕ × Kept)) : Prop where
  sorted : KeySorted g
  index : ExpanseMap32.Holds m.index (g.map fun x => (x.1, x.2.word))
  fits : ∀ x ∈ g, x.2.Fits
  slots : Slots (taken g) m.arena m.freelist
  size : m.arena.length ≤ 0x1000

/-- A blob map that stores the values `l`. -/
def Holds (m : ExpanseBlobMap32) (l : List (ℕ × (List Byte × ℕ))) : Prop := ∃ g, Rep m g ∧ values g = l

section Rep

variable {m m' : ExpanseBlobMap32} {g : List (ℕ × Kept)} {w : Kept} {k : ℕ} {data : List Byte}

theorem length_taken (h : ∀ x ∈ g, x.2.Fits) : (taken g).length = records (values g) := by
  induction g with
  | nil => rfl
  | cons x g ih =>
    have hx := (h x List.mem_cons_self).length_slots
    have hg := ih fun y hy => h y (List.mem_cons_of_mem x hy)
    rw [records, values, taken] at hg ⊢
    rw [List.flatMap_cons, List.length_append, hg, hx, List.map_cons, List.countP_cons, Nat.add_comm]
    cases small x.2.value <;> rfl

theorem Rep.count (h : Rep m g) : records (values g) + m.freelist.length = m.arena.length := by
  rw [← length_taken h.fits]
  exact h.slots.count

theorem lookup_words (k : ℕ) : (g.map fun x => (x.1, x.2.word)).lookup k = (g.lookup k).map Kept.word :=
  lookup_map_snd Kept.word k g

theorem lookup_values (k : ℕ) : (values g).lookup k = (g.lookup k).map Kept.value :=
  lookup_map_snd Kept.value k g

theorem Rep.good (h : Rep m g) {x : ℕ × Kept} (hx : x ∈ g) : x.2.Good m.arena :=
  ⟨h.fits x hx, fun y hy => h.slots.holds y (List.mem_flatMap.mpr ⟨x, hx, hy⟩)⟩

/-- Without its key, a value leaves its slot free. -/
theorem Rep.take (h : Rep m g) (hk : g.lookup k = some w) :
    w.Good m.arena ∧ Slots (taken (del k g)) m.arena (w.slots.map Prod.fst ++ m.freelist) := by
  have hp : (taken g).Perm (w.slots ++ taken (del k g)) := (perm_del h.sorted hk).flatMap_right _
  exact ⟨h.good ((lookup_eq_some_iff h.sorted).mp hk), (slots_append.mp (h.slots.of_perm hp)).2⟩

theorem Rep.rest (h : Rep m g) (hk : g.lookup k = none) : Slots (taken (del k g)) m.arena m.freelist := by
  rw [del_eq_self h.sorted hk]
  exact h.slots

/-- A key takes a free slot for its value. -/
theorem Rep.put (h : Rep m g) (hindex : ExpanseMap32.Holds m'.index ((put k w g).map fun x => (x.1, x.2.word)))
    (hw : w.Good m'.arena) (hs : Slots (taken (del k g)) m'.arena (w.slots.map Prod.fst ++ m'.freelist))
    (hsize : m'.arena.length ≤ 0x1000) : Rep m' (put k w g) := by
  have hput : (SortedAssoc.put k w g).Perm ((k, w) :: SortedAssoc.del k g) := perm_put h.sorted
  have hp : (taken (SortedAssoc.put k w g)).Perm (w.slots ++ taken (SortedAssoc.del k g)) := hput.flatMap_right _
  refine ⟨h.sorted.put _ _, hindex, ?_, (slots_append.mpr ⟨hw.holds, hs⟩).of_perm hp.symm, hsize⟩
  rintro ⟨x, w'⟩ hx
  rcases (mem_put h.sorted).mp hx with ⟨-, rfl⟩ | ⟨-, hx⟩
  · exact hw.fits
  · exact h.fits _ hx

theorem Rep.del (h : Rep m g) (hindex : ExpanseMap32.Holds m'.index ((del k g).map fun x => (x.1, x.2.word)))
    (hs : Slots (taken (del k g)) m'.arena m'.freelist) (hsize : m'.arena.length ≤ 0x1000) :
    Rep m' (SortedAssoc.del k g) :=
  ⟨h.sorted.del _, hindex, fun x hx => h.fits x (List.mem_of_mem_filter hx), hs, hsize⟩

theorem Rep.store (h : Rep m g) (k : UInt32) (w : Kept) (hw : w.word < 2 ^ 32) :
    ∃ index, m.index.insert k.toNat w.word = .ok ((g.lookup k.toNat).map Kept.word, index) ∧
      ExpanseMap32.Holds index ((SortedAssoc.put k.toNat w g).map fun x => (x.1, x.2.word)) := by
  obtain ⟨index, hr, h'⟩ := h.index.insert k (UInt32.ofNat w.word)
  have hword : (UInt32.ofNat w.word).toNat = w.word := by
    rw [UInt32.toNat_ofNat']
    exact Nat.mod_eq_of_lt hw
  rw [hword, lookup_words] at hr
  rw [hword, ← map_put Kept.word] at h'
  exact ⟨index, hr, h'⟩

theorem Rep.get (h : Rep m g) (k : UInt32) : m.index.get k.toNat = .ok ((g.lookup k.toNat).map Kept.word) := by
  obtain ⟨t, C, hs, -, hl⟩ := h.index
  rw [ExpanseMap32.get_spec hs k.toNat_lt, hl, lookup_words]

/-- A word that has left the index gives back the slot it takes. -/
theorem release_spec {ts : List (ℕ × List Byte)} (hw : w.Good m.arena) (hsize : m.arena.length ≤ 0x1000)
    (h : Slots ts m.arena (w.slots.map Prod.fst ++ m.freelist)) :
    (m.release w.word).index = m.index ∧ Slots ts (m.release w.word).arena (m.release w.word).freelist ∧
      (m.release w.word).arena.length = m.arena.length := by
  cases w with
  | inline data =>
    have hrel : m.release (Kept.inline data).word = m := by
      rw [release, names_inline hw.fits]
      rfl
    rw [hrel]
    exact ⟨rfl, h, rfl⟩
  | record data hot off =>
    obtain ⟨hoff, hnames⟩ := slabOffset_record hw hsize
    rw [release, if_pos hnames, hoff]
    exact ⟨rfl, h.set none, List.length_set⟩

/-- All slots are records of keys, and this key has none. -/
def Full (l : List (ℕ × (List Byte × ℕ))) (k : ℕ) : Prop := (l.lookup k).all small = true ∧ records l = 0x1000

/-- The slab grows only when it has no free slot. -/
def Grows (m m' : ExpanseBlobMap32) : Prop :=
  m'.arena.length = m.arena.length ∨ m.arena.length ≤ m'.arena.length ∧ m'.freelist = []

/-- The slab has taken a record: the slot `off` is out of the freelist. -/
structure Placed (m : ExpanseBlobMap32) (ts : List (ℕ × List Byte)) (data : List Byte) (off : ℕ)
    (m' : ExpanseBlobMap32) : Prop where
  index : m'.index = m.index
  slots : Slots ts m'.arena (off :: m'.freelist)
  holds : m'.arena[off]? = some (some data)
  size : m'.arena.length ≤ 0x1000
  grows : Grows m m'

/-- A key without a record takes a slot of the freelist, or the next one of the slab. -/
theorem allocArenaSlot_spec (h : Rep m g) (hs : Slots (taken (SortedAssoc.del k g)) m.arena m.freelist)
    (hsmall : ((values g).lookup k).all small = true) (data : List Byte) :
    (∃ off m', m.allocArenaSlot data = .ok (.ok off, m') ∧ Placed m (taken (SortedAssoc.del k g)) data off m' ∧
      ¬ Full (values g) k) ∨ m.allocArenaSlot data = .ok (.error .offsetOverflow, m) ∧ Full (values g) k := by
  have hcount := h.count
  have hsize := h.size
  rw [allocArenaSlot]
  cases hfree : m.freelist with
  | cons i rest =>
    rw [hfree] at hs hcount
    rw [List.length_cons] at hcount
    have hi := hs.lt List.mem_cons_self
    dsimp only
    rw [if_pos hi]
    refine .inl ⟨i, _, rfl, ⟨rfl, hs.set _, List.getElem?_set_self hi, ?_, .inl List.length_set⟩,
      fun hfull => ?_⟩
    · rw [List.length_set]
      exact hsize
    · rw [hfull.2] at hcount
      omega
  | nil =>
    rw [hfree] at hs hcount
    rw [List.length_nil] at hcount
    dsimp only
    split_ifs with hfull
    · exact .inr ⟨rfl, hsmall, by omega⟩
    · refine .inl ⟨m.arena.length, _, rfl,
        ⟨rfl, hs.push _, List.getElem?_concat_length, ?_, .inr ⟨?_, rfl⟩⟩, fun hall => ?_⟩
      · rw [List.length_append, List.length_singleton]
        omega
      · rw [List.length_append]
        exact Nat.le_add_right _ _
      · rw [hall.2] at hcount
        omega

/-- The slab takes a record for a key, unless all slots are records of others. -/
theorem placeRecord_spec (h : Rep m g) (k : ℕ) (data : List Byte) :
    (∃ off m', m.placeRecord data ((g.lookup k).map Kept.word) = .ok (.ok off, m') ∧
      Placed m (taken (SortedAssoc.del k g)) data off m' ∧ ¬ Full (values g) k) ∨
    m.placeRecord data ((g.lookup k).map Kept.word) = .ok (.error .offsetOverflow, m) ∧ Full (values g) k := by
  cases hk : g.lookup k with
  | none =>
    refine allocArenaSlot_spec h (h.rest hk) ?_ data
    rw [lookup_values, hk]
    rfl
  | some old =>
    obtain ⟨hold, hslots⟩ := h.take hk
    cases old with
    | inline bytes =>
      have hplace : m.placeRecord data (some (Kept.inline bytes).word) = m.allocArenaSlot data := by
        rw [placeRecord, names_inline hold.fits]
        rfl
      rw [Option.map_some, hplace]
      refine allocArenaSlot_spec h hslots ?_ data
      rw [lookup_values, hk, Option.map_some, Option.all_some, Kept.value]
      exact small_inline hold.fits
    | record bytes hot off =>
      -- the key has a record, which is written over
      obtain ⟨hoff, hnames⟩ := slabOffset_record hold h.size
      refine .inl ⟨off, { m with arena := m.arena.set off (some data) }, ?_,
        ⟨rfl, hslots.set _, List.getElem?_set_self hold.off_lt, ?_, .inl List.length_set⟩, ?_⟩
      · rw [Option.map_some, placeRecord, if_pos hnames, hoff]
      · rw [List.length_set]
        exact h.size
      · rintro ⟨hsmall, -⟩
        rw [lookup_values, hk, Option.map_some, Option.all_some, Kept.value, hold.fits.2] at hsmall
        exact Bool.false_ne_true hsmall

end Rep

section Steps

variable {m : ExpanseBlobMap32} {g : List (ℕ × Kept)} {data : List Byte} {hot : ℕ}

/-- A value that its word holds takes no slot, and gives back the slot of its key. -/
theorem insert_inline (h : Rep m g) (key : UInt32) (hlen : data.length ≤ 3) :
    ∃ m', m.insert key.toNat data 0 = .ok (.ok (), m') ∧ Rep m' (put key.toNat (.inline data) g) ∧
      Grows m m' := by
  obtain ⟨index, hr, hindex⟩ := h.store key (.inline data) (inline_lt hlen)
  have hw : ∀ arena, (Kept.inline data).Good arena := fun _ => good_inline hlen
  rw [ExpanseBlobMap32.insert, if_neg (by omega), if_pos ⟨hlen, rfl⟩, newInline, if_neg (by omega)]
  dsimp only
  rw [show ofLe (inlineBytes data) = (Kept.inline data).word from rfl, hr, ok_bind]
  refine ⟨_, rfl, ?_⟩
  cases hk : g.lookup key.toNat with
  | none => exact ⟨@Rep.put m { m with index } g (.inline data) _ h hindex (hw _) (h.rest hk) h.size, .inl rfl⟩
  | some old =>
    obtain ⟨hold, hslots⟩ := h.take hk
    obtain ⟨hi, hfree, hsize⟩ := @release_spec { m with index } _ _ hold h.size hslots
    rw [← show _ = index from hi] at hindex
    exact ⟨h.put hindex (hw _) hfree (hsize.trans_le h.size), .inl hsize⟩

theorem insert_record (h : Rep m g) (key : UInt32) (hm : hot ≤ 0x0FFF) (hsmall : small (data, hot) = false) :
    (∃ m' off, m.insert key.toNat data hot = .ok (.ok (), m') ∧ Rep m' (put key.toNat (.record data hot off) g) ∧
      Grows m m' ∧ ¬ Full (values g) key.toNat) ∨
    m.insert key.toNat data hot = .ok (.error .offsetOverflow, m) ∧ Full (values g) key.toNat := by
  have hfits : ¬ (data.length ≤ 3 ∧ hot = 0) := by
    rw [small] at hsmall
    simpa using hsmall
  rw [ExpanseBlobMap32.insert, if_neg (not_lt.mpr hm), if_neg hfits, h.get, ok_bind]
  rcases placeRecord_spec h key.toNat data with ⟨off, m₁, hplace, hp, hroom⟩ | ⟨hplace, hfull⟩
  · have hw : (Kept.record data hot off).Good m₁.arena := good_record hm hsmall hp.holds
    have hoff := hw.off_lt
    have hsize := hp.size
    have hstore := h.store key (.record data hot off) (hw.word_lt hsize)
    rw [← hp.index] at hstore
    obtain ⟨index, hr, hindex⟩ := hstore
    rw [hplace, ok_bind]
    dsimp only
    rw [newArena_eq hm (by omega)]
    dsimp only
    rw [show arenaWord hot off = (Kept.record data hot off).word from rfl, hr, ok_bind]
    exact .inl ⟨_, off, rfl, @Rep.put m { m₁ with index } g (.record data hot off) _ h hindex hw hp.slots hsize,
      hp.grows, hroom⟩
  · rw [hplace, ok_bind]
    exact .inr ⟨rfl, hfull⟩

theorem insert_spec (h : Rep m g) (key : UInt32) (data : List Byte) (hot : ℕ) :
    ∃ m' g', m.insert key.toNat data hot = .ok ((refInsert (values g) key.toNat (data, hot)).1, m') ∧ Rep m' g' ∧
      values g' = (refInsert (values g) key.toNat (data, hot)).2 ∧ Grows m m' := by
  rw [refInsert]
  by_cases hmeta : 0x0FFF < hot
  · rw [ExpanseBlobMap32.insert, if_pos hmeta, if_pos hmeta]
    exact ⟨m, g, rfl, h, rfl, .inl rfl⟩
  rw [if_neg hmeta]
  cases hsmall : small (data, hot) with
  | true =>
    have hfits : data.length ≤ 3 ∧ hot = 0 := by
      rw [small] at hsmall
      simpa using hsmall
    obtain ⟨hlen, rfl⟩ := hfits
    obtain ⟨m', hr, h', hgrows⟩ := insert_inline h key hlen
    rw [if_neg fun hall => Bool.false_ne_true hall.1.symm]
    exact ⟨m', _, hr, h', map_put Kept.value _ _ _, hgrows⟩
  | false =>
    rcases insert_record h key (not_lt.mp hmeta) hsmall with ⟨m', off, hr, h', hgrows, hroom⟩ | ⟨hr, hfull⟩
    · rw [if_neg fun hall => hroom hall.2]
      exact ⟨m', _, hr, h', map_put Kept.value _ _ _, hgrows⟩
    · rw [if_pos ⟨rfl, hfull⟩]
      exact ⟨m, g, hr, h, rfl, .inl rfl⟩

theorem get_spec (h : Rep m g) (key : UInt32) :
    ∃ v, m.get key.toNat = .ok v ∧ v.map shown = (values g).lookup key.toNat := by
  rw [ExpanseBlobMap32.get, h.get]
  refine ⟨((g.lookup key.toNat).map Kept.word).bind m.view, rfl, ?_⟩
  rw [lookup_values]
  cases hk : g.lookup key.toNat with
  | none => rfl
  | some w =>
    obtain ⟨v, hv, hbytes⟩ := view_word (h.take hk).1 h.size
    rw [Option.map_some, Option.bind_some, hv, Option.map_some, Option.map_some, shown, hbytes]

theorem remove_spec (h : Rep m g) (key : UInt32) :
    ∃ m', m.remove key.toNat = .ok (((values g).lookup key.toNat).isSome, m') ∧ Rep m' (del key.toNat g) ∧
      Grows m m' := by
  obtain ⟨index, hr, hindex⟩ := h.index.remove key
  rw [lookup_words] at hr
  rw [← map_del Kept.word] at hindex
  rw [ExpanseBlobMap32.remove, hr, ok_bind, lookup_values]
  cases hk : g.lookup key.toNat with
  | none => exact ⟨_, rfl, @Rep.del m { m with index } g _ h hindex (h.rest hk) h.size, .inl rfl⟩
  | some old =>
    obtain ⟨hold, hslots⟩ := h.take hk
    obtain ⟨hi, hfree, hsize⟩ := @release_spec { m with index } _ _ hold h.size hslots
    rw [← show _ = index from hi] at hindex
    exact ⟨_, rfl, h.del hindex hfree (hsize.trans_le h.size), .inl hsize⟩

theorem scanFiltered_spec {σ : Type} (h : Rep m g) (start stop : UInt32) (pred : σ → ℕ × ℕ → Bool × σ)
    (cb : σ → ℕ × (List Byte × ℕ) → σ) (s : σ) :
    m.scanFiltered start.toNat stop.toNat pred (fun s x => cb s (x.1, shown x.2)) s =
      .ok ((between start.toNat stop.toNat (values g)).foldl (refScan pred cb) s) := by
  obtain ⟨t, C, hs, -, hl⟩ := h.index
  have hwords : between start.toNat stop.toNat (g.map fun x => (x.1, x.2.word)) =
      (between start.toNat stop.toNat g).map fun x => (x.1, x.2.word) := List.filter_map ..
  have hvalues : between start.toNat stop.toNat (values g) =
      (between start.toNat stop.toNat g).map fun x => (x.1, x.2.value) := List.filter_map ..
  rw [ExpanseBlobMap32.scanFiltered, ExpanseMap32.scanFiltered,
    ExpanseMap32.tryForEachRange_spec hs start.toNat_lt stop.toNat_lt, hl, hwords, visitAll_map, hvalues,
      List.foldl_map]
  rw [visitAll_foldl (fun s x => refScan pred cb s (x.1, x.2.value)) ?_ s]
  · rfl
  · intro s x hx
    have hgood := h.good (List.mem_of_mem_filter hx)
    obtain ⟨v, hv, hbytes⟩ := view_word hgood h.size
    dsimp only
    rw [hot_word hgood h.size, refScan]
    rcases pred s (x.1, x.2.value.2) with ⟨_ | _, s'⟩
    · rfl
    · dsimp only
      rw [hv, Option.elim_some, shown, hbytes]

theorem Rep.step (h : Rep m g) (op : Op) : ∃ m' g', m.step op = .ok ((refStep (values g) op).1, m') ∧ Rep m' g' ∧
    values g' = (refStep (values g) op).2 ∧ Grows m m' := by
  cases op with
  | insert key data hot =>
    obtain ⟨m', g', hr, h', hv, hgrows⟩ := insert_spec h key data hot.toNat
    exact ⟨m', g', by rw [ExpanseBlobMap32.step, hr]; rfl, h', hv, hgrows⟩
  | get key =>
    obtain ⟨v, hr, hv⟩ := get_spec h key
    exact ⟨m, g, by rw [ExpanseBlobMap32.step, hr, refStep, ← hv]; rfl, h, rfl, .inl rfl⟩
  | remove key =>
    obtain ⟨m', hr, h', hgrows⟩ := remove_spec h key
    exact ⟨m', _, by rw [ExpanseBlobMap32.step, hr]; rfl, h', map_del Kept.value _ _, hgrows⟩
  | len =>
    obtain ⟨t, C, hs, -, hl⟩ := h.index
    have hlen : m.len = (values g).length := by
      rw [ExpanseBlobMap32.len, hs.len, hl, List.length_map, values, List.length_map]
    exact ⟨m, g, by rw [ExpanseBlobMap32.step, hlen]; rfl, h, rfl, .inl rfl⟩
  | scanFiltered start stop pred cb =>
    exact ⟨m, g, by rw [ExpanseBlobMap32.step, scanFiltered_spec h start stop pred cb []]; rfl, h, rfl, .inl rfl⟩

/-- The slab has as many slots as there were records, before or now. -/
theorem Rep.length_arena {m' : ExpanseBlobMap32} {g' : List (ℕ × Kept)} (h' : Rep m' g') (hgrows : Grows m m') :
    m'.arena.length = max m.arena.length (records (values g')) := by
  have hcount := h'.count
  rcases hgrows with hsame | ⟨hle, hfree⟩
  · omega
  · rw [hfree, List.length_nil] at hcount
    omega

theorem Holds.step {l : List (ℕ × (List Byte × ℕ))} (h : Holds m l) (op : Op) :
    ∃ m', m.step op = .ok ((refStep l op).1, m') ∧ Holds m' (refStep l op).2 ∧
      m'.arena.length = max m.arena.length (records (refStep l op).2) := by
  obtain ⟨g, hg, rfl⟩ := h
  obtain ⟨m', g', hr, h', hv, hgrows⟩ := hg.step op
  exact ⟨m', hr, ⟨g', h', hv⟩, by rw [← hv]; exact h'.length_arena hgrows⟩

theorem holds_new : Holds new [] :=
  ⟨[], ⟨.nil, ExpanseMap32.holds_new, fun _ hx => absurd hx List.not_mem_nil, slots_nil, Nat.zero_le _⟩, rfl⟩

/-- Every run from the empty map answers as the sorted list of its values does, and the slab has a slot for
each record, free or in use. -/
theorem blob_runs_refine (ops : List Op) :
    ∃ m, run step new ops = .ok ((refRun refStep [] ops).1, m) ∧
      records (refRun refStep [] ops).2 + m.freelist.length = m.arena.length ∧ m.arena.length ≤ 0x1000 ∧
      m.freelist.Nodup ∧ ∀ i ∈ m.freelist, i < m.arena.length := by
  have hruns : ∃ m, run step new ops = .ok ((refRun refStep [] ops).1, m) ∧ Holds m (refRun refStep [] ops).2 :=
    run_refines (fun m l op h _ => by
      obtain ⟨m', hr, h', -⟩ := h.step op
      exact ⟨m', hr, h'⟩) holds_new (along_trivial _ _ _)
  obtain ⟨m, hr, g, hg, hv⟩ := hruns
  refine ⟨m, hr, ?_, hg.size, ?_, fun i hi => hg.slots.lt hi⟩
  · rw [← hv]
    exact hg.count
  · exact (List.nodup_append.mp hg.slots.nodup).2.1

/-- The most records at once in a run. -/
def peak (l : List (ℕ × (List Byte × ℕ))) : List Op → ℕ
  | [] => records l
  | op :: ops => max (records l) (peak (refStep l op).2 ops)

theorem records_le_peak (l : List (ℕ × (List Byte × ℕ))) (ops : List Op) : records l ≤ peak l ops := by
  cases ops with
  | nil => exact le_rfl
  | cons op ops => exact le_max_left _ _

theorem run_peak {l : List (ℕ × (List Byte × ℕ))} (h : Holds m l) (ops : List Op) :
    ∃ outs m', run step m ops = .ok (outs, m') ∧ max m.arena.length (peak l ops) = m'.arena.length := by
  induction ops generalizing m l with
  | nil =>
    obtain ⟨g, hg, rfl⟩ := h
    have hcount := hg.count
    exact ⟨[], m, rfl, max_eq_left (by rw [peak]; omega)⟩
  | cons op ops ih =>
    have hcount : records l ≤ m.arena.length := by
      obtain ⟨g, hg, rfl⟩ := h
      exact Nat.le_of_add_right_le hg.count.le
    obtain ⟨m₁, hr₁, h₁, hlen⟩ := h.step op
    obtain ⟨outs, m₂, hr₂, hmax⟩ := ih h₁
    have hpeak := records_le_peak (refStep l op).2 ops
    refine ⟨(refStep l op).1 :: outs, m₂, by rw [run, hr₁]; simp only [hr₂], ?_⟩
    rw [← hmax, hlen, peak]
    omega

/-- The slab never has more slots than a run has needed at once: a freed slot is used before a new one. -/
theorem slab_length_eq_peak (ops : List Op) :
    ∃ outs m, run step new ops = .ok (outs, m) ∧ m.arena.length = peak [] ops := by
  obtain ⟨outs, m, hr, hmax⟩ := run_peak holds_new ops
  exact ⟨outs, m, hr, by rw [← hmax]; exact (Nat.zero_max _).symm⟩

end Steps

end ExpanseBlobMap32

end Expanse.Blob32
