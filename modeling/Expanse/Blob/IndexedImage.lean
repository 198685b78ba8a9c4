import Expanse.Blob.IndexedSpec

/-!
# Loading an image into an `ExpanseMap`

The loader inserts the entries of an image in the order the image has them. No such insert
faults, in whatever order they come. Ascending entries, which every saved image has, are
never stale hits: a path that an insert truncates has fewer bits than the leaf it leads to,
and the keys after it are larger. So a saved image is loaded into the index it was saved
from.

The loader checks the headers, not the cursors nor the slot words. An image that it accepts
loads as a map that insertions could have built exactly if every cursor is a multiple of
16, every slot word of the index that its entries build shows a value, and the records of
the words that were replaced on the way charge nothing in 64 bits.
-/

namespace Expanse.Blob

open Arrays Bytes SortedAssoc ValueSlot Runs Store Radix

variable {index index' : ExpanseMap} {bytes : List Byte} {heap : ℕ → Bool} {n pos maxCapacity : ℕ}
  {es : List (ℕ × ℕ)} {olds : List (Option UInt64)}

/-- The invariant of an index that was only inserted into: it has no narrow leaf. -/
abbrev BuiltInv (index : ExpanseMap) : Prop := Inv .map (Edge.wide fun _ _ => 0) index

theorem BuiltInv.indexInv (h : BuiltInv index) : IndexInv index := by
  obtain ⟨root, n, path⟩ := index
  cases root with
  | empty => exact h
  | leaf cols => exact h
  | tree top =>
    have ht : TreeInv .map (Edge.wide fun _ _ => 0) top n path := h
    exact ⟨ht.readable, ⟨ht.wf.1.of_wide, ht.wf.2⟩, ht.pop, ht.large, ht.leads⟩

theorem built_not_splits (h : BuiltInv index) {key : ℕ} {val : UInt64} :
    ¬ SplitsAt .map (Edge.wide fun _ _ => 0) false index key val := by
  rintro ⟨top, hroot, -, hsp⟩
  obtain ⟨root, n, path⟩ := index
  cases hroot
  have ht : TreeInv .map (Edge.wide fun _ _ => 0) top n path := h
  have hclean : Edge.Clean .map (Edge.wide fun _ _ => 0) 8 (settled path top) key := Edge.clean_of_wide ht.wf.1
  exact hclean.1 hsp

/-- An insert into such an index returns, also where it is a stale hit. -/
theorem built_insert (h : BuiltInv index) (key val : UInt64) :
    ∃ o k, insertInner .map false index key.toNat val = .ok o ∧
      Inserts .map (Edge.wide fun _ _ => 0) false index k val o ∧
      (¬ Stale index key.toNat → k = key.toNat) := by
  have hadm : Edge.Admits .map (Edge.wide fun _ _ => 0) := Edge.admits_wide Edge.admits_zero
  have hok : ∃ o, insertInner .map false index key.toNat val = .ok o := by
    obtain ⟨root, n, path⟩ := index
    cases root with
    | empty =>
      obtain ⟨o, ho, -⟩ := insert_empty (Edge.wide fun _ _ => 0) false val h (toNat_lt key)
      exact ⟨o, ho⟩
    | leaf cols =>
      obtain ⟨o, ho, -⟩ := insert_rootLeaf false val h (toNat_lt key) hadm (by simp)
      exact ⟨o, ho⟩
    | tree top =>
      cases hw : warmTree .map false ⟨.tree top, n, path⟩ top key.toNat val with
      | some o => exact ⟨o, by simp only [insertInner, hw]⟩
      | none =>
        have ht : TreeInv .map (Edge.wide fun _ _ => 0) top n path := h
        obtain ⟨o, ho, -⟩ := coldTree_spec false val ht (toNat_lt key) (Edge.clean_of_wide ht.wf.1) hadm
          (by simp)
        exact ⟨o, by simp only [insertInner, hw, ho]⟩
  obtain ⟨o, ho⟩ := hok
  obtain ⟨k, hi, hk⟩ := insertInner_of_ok h (toNat_lt key) (built_not_splits h) hadm (by simp) ho
  exact ⟨o, k, ho, hi, hk⟩

/-- Insert the entries of an image in order; the answers are the words replaced. -/
def build (index : ExpanseMap) (es : List (ℕ × ℕ)) : Except Fault (List (Option UInt64) × ExpanseMap) :=
  run (fun index e => index.insert (.ofNat e.1) (.ofNat e.2)) index es

/-- What the words that inserts replace are charged. -/
def chargedOld (a : BlobArena) (olds : List (Option UInt64)) : ℕ :=
  (olds.map fun old => (old.map fun raw => total (spanOf a raw.toNat)).getD 0).sum

theorem build_cons {e : ℕ × ℕ} {old : Option UInt64}
    (h : index.insert (.ofNat e.1) (.ofNat e.2) = .ok (old, index')) :
    build index (e :: es) = (build index' es).map fun r => (old :: r.1, r.2) := by
  rw [build, run, h]
  dsimp only
  rw [build]
  cases run (fun index e => ExpanseMap.insert index (.ofNat e.1) (.ofNat e.2)) index' es <;> rfl

theorem insert_entry (h : BuiltInv index) {e : ℕ × ℕ} (hraw : e.2 < 2 ^ 64) :
    ∃ old index' k, index.insert (.ofNat e.1) (.ofNat e.2) = .ok (old, index') ∧ BuiltInv index' ∧
      slots index'.items = put k e.2 (slots index.items) ∧
      (slots index.items).lookup k = old.map UInt64.toNat := by
  obtain ⟨o, k, ho, hi, -⟩ := built_insert h (.ofNat e.1) (.ofNat e.2)
  exact ⟨o.old, o.store, k, by rw [ExpanseMap.insert, ho], hi.inv,
    slots_put h.sorted hi.inv.sorted hraw hi.content, lookup_slots h.sorted hi.old⟩

/-- Building an index returns, and charges each entry once, also those it replaces. -/
theorem build_spec (a : BlobArena) (h : BuiltInv index) (hes : ∀ e ∈ es, e.2 < 2 ^ 64) :
    ∃ olds index', build index es = .ok (olds, index') ∧ BuiltInv index' ∧
      total (spans a (slots index'.items)) + chargedOld a olds =
        total (spans a (slots index.items)) + total (spans a es) := by
  induction es generalizing index with
  | nil => exact ⟨[], index, rfl, h, rfl⟩
  | cons e es ih =>
    obtain ⟨old, index₁, k, hi, h₁, hput, hold⟩ := insert_entry h (hes e List.mem_cons_self)
    obtain ⟨olds, index₂, hb, h₂, hsum⟩ := ih h₁ fun x hx => hes x (List.mem_cons_of_mem _ hx)
    refine ⟨old :: olds, index₂, by rw [build_cons hi, hb]; rfl, h₂, ?_⟩
    have hperm := total_perm (spans_put (a := a) (slots_sorted h.sorted) k e.2)
    rw [total_append, total_append, oldSpan, hold, ← hput] at hperm
    have hcharge : chargedOld a (old :: olds) =
        (old.map fun raw => total (spanOf a raw.toNat)).getD 0 + chargedOld a olds := rfl
    rw [hcharge, spans_cons, total_append]
    cases old with
    | none =>
      simp only [Option.map_none, Option.getD_none] at hperm ⊢
      have : total [] = 0 := rfl
      omega
    | some raw =>
      simp only [Option.map_some, Option.getD_some] at hperm ⊢
      omega

/-- The path leads to a leaf whose upper bits are no less than those it stores. -/
def PathBelow (index : ExpanseMap) : Prop :=
  ∀ top w u t, index.root = .tree top → index.path = some w → Edge.resolve 8 top w.route = some (u, t) →
    w.keyPrefix ≤ u

theorem PathBelow.not_stale (hp : PathBelow index) (h : IndexInv index) {key : ℕ}
    (hlt : ∀ e ∈ index.items, e.1 < key) : ¬ Stale index key := by
  rintro ⟨top, w, u, t, hroot, hw, hpre, hr, hne⟩
  obtain ⟨root, n, path⟩ := index
  cases hroot
  cases hw
  have hle := hp top w u t rfl rfl hr
  obtain ⟨k, hk⟩ := List.exists_mem_of_ne_nil _ (cachedKeys_ne_nil h rfl)
  obtain ⟨v, hv⟩ := mem_items_of_cachedKeys h hk
  have hbefore := hlt _ hv
  simp only [cachedKeys, hr, List.mem_map] at hk
  obtain ⟨⟨d, v'⟩, -, rfl⟩ := hk
  dsimp only at hbefore
  omega

theorem PathBelow.insert {o : Outcome UInt64} {lo : ℕ → ℕ → ℕ} {k : ℕ} {val : UInt64} (hp : PathBelow index)
    (hi : Inserts .map lo false index k val o) : PathBelow o.store := by
  intro top w u t hroot hw hr
  rcases hi.traced w top u t hw hroot hr with hu | ⟨w₀, top₀, t₀, hw₀, hroot₀, hr₀, hpre⟩ | ⟨_, M, _, _, hu⟩
  · exact hu.ge
  · exact hpre ▸ hp top₀ w₀ u t₀ hroot₀ hw₀ hr₀
  · rw [hu]
    exact Nat.le_add_left _ _

theorem build_ascending (h : BuiltInv index) (hp : PathBelow index)
    (hes : ∀ e ∈ es, e.1 < 2 ^ 64 ∧ e.2 < 2 ^ 64) (hs : KeySorted (slots index.items ++ es)) :
    ∃ olds index', build index es = .ok (olds, index') ∧ BuiltInv index' ∧
      slots index'.items = slots index.items ++ es := by
  induction es generalizing index with
  | nil => exact ⟨[], index, rfl, h, (List.append_nil _).symm⟩
  | cons e es ih =>
    obtain ⟨key, raw⟩ := e
    obtain ⟨hk, hraw⟩ := hes _ List.mem_cons_self
    have hkey : (UInt64.ofNat key).toNat = key := toNat_slot hk
    have hlt : ∀ x ∈ slots index.items, x.1 < key := fun x hx =>
      (List.pairwise_append.mp hs).2.2 x hx (key, raw) List.mem_cons_self
    obtain ⟨o, k, ho, hi, hstale⟩ := built_insert h (.ofNat key) (.ofNat raw)
    rw [hkey] at hstale ho
    obtain rfl := hstale <| hp.not_stale h.indexInv fun x hx =>
      hlt _ (List.mem_map_of_mem (f := fun e : ℕ × UInt64 => (e.1, e.2.toNat)) hx)
    have hput : put k raw (slots index.items ++ []) = slots index.items ++ [(k, raw)] := put_append hlt
    rw [List.append_nil, ← slots_put h.sorted hi.inv.sorted hraw hi.content] at hput
    have hone : index.insert (.ofNat k) (.ofNat raw) = .ok (o.old, o.store) := by
      rw [ExpanseMap.insert, hkey, ho]
    have hs' : KeySorted (slots o.store.items ++ es) := by
      rw [hput, List.append_assoc]
      exact hs
    obtain ⟨olds, index', hb, h', hitems⟩ := ih hi.inv (hp.insert hi)
      (fun x hx => hes x (List.mem_cons_of_mem _ hx)) hs'
    exact ⟨o.old :: olds, index', by rw [build_cons (e := (k, raw)) hone, hb]; rfl, h',
      by rw [hitems, hput, List.append_assoc]; rfl⟩

theorem loadEntries_build {m : ExpanseBlobMap} {b : BlobMap} (h : BuiltInv m.index) (ha : m.arena = b.arena)
    (hr : m.reclaimAtCap = b.reclaimAtCap) :
    (∃ e, ExpanseBlobMap.loadEntries bytes n pos m = .error e ∧ loadEntries bytes n pos b = .error e) ∨
      ∃ m' b' olds, ExpanseBlobMap.loadEntries bytes n pos m = .ok m' ∧ loadEntries bytes n pos b = .ok b' ∧
        m'.arena = b'.arena ∧ m'.reclaimAtCap = b'.reclaimAtCap ∧
        build m.index (imageEntries bytes n pos) = .ok (olds, m'.index) ∧ BuiltInv m'.index := by
  induction n generalizing pos m b with
  | zero => exact .inr ⟨m, b, [], rfl, rfl, ha, hr, rfl, h⟩
  | succ n ih =>
    rw [ExpanseBlobMap.loadEntries, loadEntries]
    cases hentry : ranged bytes pos 16 with
    | error e => exact .inl ⟨e, rfl, rfl⟩
    | ok entry =>
      obtain ⟨hin, rfl⟩ := ranged_ok hentry
      have hlen : (slice bytes pos 16).length = 16 := length_slice hin
      rw [ok_bind, ok_bind, indexed_eq (by omega), ok_bind, ok_bind, indexed_eq (by omega), ok_bind, ok_bind,
        slice_slice _ _ _ _ _ (by decide), slice_slice _ _ _ _ _ (by decide), Nat.add_zero]
      cases hpos : checkedAdd pos 16 with
      | error e => exact .inl ⟨e, rfl, rfl⟩
      | ok pos' =>
        obtain rfl := checkedAdd_ok hpos
        have hraw : ofLe (slice bytes (pos + 8) 8) < 2 ^ 64 := ofLe_slice_lt (by omega)
        obtain ⟨old, index₁, k, hi, h₁, -⟩ :=
          insert_entry (e := (ofLe (slice bytes pos 8), ofLe (slice bytes (pos + 8) 8))) h hraw
        rw [ok_bind, ok_bind, ExpanseBlobMap.insertLoaded, hi]
        dsimp only
        rw [ok_bind, imageEntries, ha]
        rcases ih (m := { m with index := index₁, arena := b.arena.chargeLoaded _ })
          (b := { b with index := put _ _ b.index, arena := b.arena.chargeLoaded _ }) h₁ rfl hr with
          hfail | ⟨m', b', olds, hm, hb, ha', hr', hbuild, h'⟩
        · exact .inl hfail
        · refine .inr ⟨m', b', old :: olds, hm, hb, ha', hr', ?_, h'⟩
          rw [build_cons hi, hbuild]
          rfl

theorem load_build (heap : ℕ → Bool) (bytes : List Byte) (maxCapacity : ℕ) :
    (∃ e, ExpanseBlobMap.fromBytesSliceWithMaxCapacity heap bytes maxCapacity = .error e ∧
        BlobMap.fromBytesSliceWithMaxCapacity heap bytes maxCapacity = .error e) ∨
      ∃ m b olds, ExpanseBlobMap.fromBytesSliceWithMaxCapacity heap bytes maxCapacity = .ok m ∧
        BlobMap.fromBytesSliceWithMaxCapacity heap bytes maxCapacity = .ok b ∧
        m.arena = b.arena ∧ m.reclaimAtCap = b.reclaimAtCap ∧
        build Store.new (entriesOf bytes) = .ok (olds, m.index) ∧ BuiltInv m.index := by
  rw [ExpanseBlobMap.fromBytesSliceWithMaxCapacity, BlobMap.fromBytesSliceWithMaxCapacity]
  by_cases hlen : bytes.length < 64
  · rw [if_pos hlen, if_pos hlen]
    exact .inl ⟨_, rfl, rfl⟩
  rw [if_neg hlen, if_neg hlen, parseHeader_eq (by omega), ok_bind, ok_bind]
  cases hcheck : checkHeader bytes (imageHeader bytes) with
  | error e => exact .inl ⟨e, rfl, rfl⟩
  | ok u =>
    rw [ok_bind, ok_bind]
    dsimp only
    have hsame : (ExpanseBlobMap.withChunkSizeAndMaxCapacity (imageHeader bytes).chunkSize maxCapacity).arena =
        (BlobMap.withChunkSizeAndMaxCapacity (imageHeader bytes).chunkSize maxCapacity).arena := rfl
    rw [hsame]
    split_ifs with hcap
    · exact .inl ⟨_, rfl, rfl⟩
    · cases loadChunks heap bytes (imageHeader bytes).chunkSize (imageHeader bytes).chunkCount
          (imageHeader bytes).arenaOffset
          (BlobMap.withChunkSizeAndMaxCapacity (imageHeader bytes).chunkSize maxCapacity).arena none with
      | error e => exact .inl ⟨e, rfl, rfl⟩
      | ok r =>
        rw [ok_bind, ok_bind]
        exact loadEntries_build inv_new rfl rfl

namespace ExpanseBlobMap

variable {m m' : ExpanseBlobMap}

theorem saveToWriter_eq (h : IndexInv m.index) : m.saveToWriter = .ok m.flat.saveToWriter := by
  have hlen : m.index.len = m.flat.len := by
    rw [len_eq h, BlobMap.len, flat, slots, List.length_map]
  have hheader : m.header = m.flat.header := by
    rw [header, BlobMap.header, hlen]
    rfl
  rw [saveToWriter, iterated_eq h, hheader]
  rfl

theorem load_saved (hs : m.flat.Sound) (hlen : m.flat.image.length < 2 ^ 63) (heap : ℕ → Bool)
    (maxCapacity : ℕ) :
    (∃ e, fromBytesSliceWithMaxCapacity heap m.flat.image maxCapacity = .error e ∧
        BlobMap.fromBytesSliceWithMaxCapacity heap m.flat.image maxCapacity = .error e) ∨
      ∃ m', fromBytesSliceWithMaxCapacity heap m.flat.image maxCapacity = .ok m' ∧
        BlobMap.fromBytesSliceWithMaxCapacity heap m.flat.image maxCapacity = .ok m'.flat ∧
          IndexInv m'.index := by
  have hentries := (BlobMap.imageOf hs hlen).entries
  rcases load_build heap m.flat.image maxCapacity with hfail | ⟨m', b, olds, hm, hb, ha, hr, hbuild, h'⟩
  · exact .inl hfail
  · have hbounds : ∀ e ∈ m.flat.index, e.1 < 2 ^ 64 ∧ e.2 < 2 ^ 64 := fun e he =>
      ⟨hs.backed.key_lt e he, hs.backed.raw_lt e he⟩
    have hempty : PathBelow (Store.new : ExpanseMap) := fun top _ _ _ hroot => by cases hroot
    obtain ⟨olds', index', hbuild', -, hitems⟩ := build_ascending inv_new hempty hbounds hs.backed.sorted
    rw [hentries, hbuild'] at hbuild
    obtain ⟨-, hindex⟩ := Prod.mk.inj (Except.ok.inj hbuild)
    have hlist : slots m'.index.items = b.index := by
      have hsame : indexOf [] m.flat.index = m.flat.index := BlobMap.indexOf_append hs.backed.sorted
      rw [← hindex, hitems, (BlobMap.load_ok hb).index, hentries, hsame]
      rfl
    refine .inr ⟨m', hm, ?_, h'.indexInv⟩
    rw [hb, flat, ha, hr, hlist]

end ExpanseBlobMap

theorem recordDeletedSlot_sound {a : BlobArena} (hs : a.Sound) (raw : ℕ) : (a.recordDeletedSlot raw).Sound := by
  rw [recordDeletedSlot_eq]
  exact ⟨hs.size_ge, hs.size_le, hs.size_mod, hs.chunk, hs.count, hs.total, hs.total_le, hs.cap_le, hs.gen_pos,
    hs.gen_lt⟩

namespace ExpanseBlobMap

variable {m m' : ExpanseBlobMap} {key : Key} {slot : ℕ}

def LeavesSound {α : Type} (r : Called α) : Prop := ∀ out m', r = .ok (out, m') → m'.arena.Sound

theorem leavesSound_ok {α : Type} {out : α} (h : m.arena.Sound) : LeavesSound (.ok (out, m)) := by
  rintro _ _ ⟨⟩
  exact h

theorem LeavesSound.map {α β : Type} {r : Called α} (f : α → β) (h : LeavesSound r) :
    LeavesSound (r.map fun x => (f x.1, x.2)) := by
  cases r with
  | error e => rintro _ _ ⟨⟩
  | ok r => exact leavesSound_ok (h r.1 r.2 rfl)

theorem compact_sound (heap : Heap) (hs : m.arena.Sound) : LeavesSound (m.compact heap) := by
  rw [compact]
  cases hp : m.prepareCompaction heap with
  | error f => rintro _ _ ⟨⟩
  | ok r =>
    cases r with
    | error e => exact leavesSound_ok hs
    | ok p =>
      have hnew := (copied_nil hs).sound
      have hsize := (copied_nil hs).size
      rw [prepareCompaction] at hp
      split_ifs at hp
      · cases hp
      · cases hi : iterated m.index with
        | error f =>
          rw [hi] at hp
          cases hp
        | ok entries =>
          rw [hi] at hp
          obtain ⟨hsound, hsize', hcap⟩ := relocate_sound hnew (Except.ok.inj hp)
          exact leavesSound_ok (install_sound hsound (hsize'.trans hsize) hcap)

theorem allocPayload_sound (heap : Heap) (data : List Byte) (hs : m.arena.Sound) :
    LeavesSound (m.allocPayload heap data) := by
  have hreclaim : LeavesSound (m.reclaimForInsert heap) := by
    rw [reclaimForInsert]
    split_ifs
    · exact leavesSound_ok hs
    · have hc := compact_sound heap hs
      cases hr : m.compact heap with
      | error f => rintro _ _ ⟨⟩
      | ok r =>
        obtain ⟨out, m₁⟩ := r
        have h₁ := hc out m₁ hr
        cases out with
        | ok stats => exact leavesSound_ok h₁
        | error e =>
          exact leavesSound_ok ⟨h₁.size_ge, h₁.size_le, h₁.size_mod, h₁.chunk, h₁.count, h₁.total, h₁.total_le,
            h₁.cap_le, h₁.gen_pos, h₁.gen_lt⟩
  rw [allocPayload]
  cases hal : m.arena.allocBlob (heap .chunk) data with
  | ok p => exact leavesSound_ok (BlobArena.allocBlob_spec hs hal).sound
  | error e =>
    cases e with
    | offsetOverflow =>
      show LeavesSound (m.allocAfterReclaim heap data)
      rw [allocAfterReclaim]
      cases hr : m.reclaimForInsert heap with
      | error f => rintro _ _ ⟨⟩
      | ok r =>
        obtain ⟨out, m₁⟩ := r
        have h₁ := hreclaim out m₁ hr
        cases out with
        | error e => exact leavesSound_ok h₁
        | ok ran =>
          cases ran with
          | false => exact leavesSound_ok h₁
          | true =>
            dsimp only
            cases hal₁ : m₁.arena.allocBlob (heap .retried) data with
            | ok p => exact leavesSound_ok (BlobArena.allocBlob_spec h₁ hal₁).sound
            | error e => exact leavesSound_ok h₁
    | _ => exact leavesSound_ok hs

theorem store_sound (hs : m.arena.Sound) (h : m.store key slot = .ok m') : m'.arena.Sound := by
  rw [store] at h
  cases hi : m.index.insert key.word (.ofNat slot) with
  | error f =>
    rw [hi] at h
    cases h
  | ok r =>
    obtain ⟨old, index⟩ := r
    rw [hi] at h
    cases h
    cases old with
    | none => exact hs
    | some raw => exact recordDeletedSlot_sound hs raw.toNat

theorem insert_sound (heap : Heap) (key : Key) (data : List Byte) (hotMeta : ℕ) (hs : m.arena.Sound) :
    LeavesSound (m.insert heap key data hotMeta) := by
  have hbind : ∀ {m₁ : ExpanseBlobMap} {slot : ℕ}, m₁.arena.Sound →
      LeavesSound ((m₁.store key slot).map fun m => ((.ok () : Except ArenaError Unit), m)) := by
    intro m₁ slot h₁
    cases hst : m₁.store key slot with
    | error f => rintro _ _ ⟨⟩
    | ok m₂ => exact leavesSound_ok (store_sound h₁ hst)
  rw [insert]
  cases slotWordValue data hotMeta with
  | some slot => exact hbind hs
  | none =>
    dsimp only
    split_ifs
    · exact leavesSound_ok hs
    · have hc := allocPayload_sound heap data hs
      cases hr : m.allocPayload heap data with
      | error f => rintro _ _ ⟨⟩
      | ok r =>
        obtain ⟨out, m₁⟩ := r
        have h₁ := hc out m₁ hr
        cases out with
        | error e => exact leavesSound_ok h₁
        | ok g =>
          dsimp only
          cases slotFromGlobal g hotMeta with
          | error e => exact leavesSound_ok h₁
          | ok slot => exact hbind h₁

theorem remove_sound (key : Key) (hs : m.arena.Sound) : LeavesSound (m.remove key) := by
  rw [remove]
  cases m.index.remove key.word with
  | error f => rintro _ _ ⟨⟩
  | ok r =>
    obtain ⟨old, index⟩ := r
    cases old with
    | none => exact leavesSound_ok hs
    | some raw => exact leavesSound_ok (recordDeletedSlot_sound hs raw.toNat)

theorem compareExchange_sound (heap : Heap) (key : Key) (expected new : Option Value) (hs : m.arena.Sound) :
    LeavesSound (m.compareExchange heap key expected new) := by
  unfold compareExchange
  dsimp only
  split_ifs
  · exact leavesSound_ok hs
  · cases new with
    | none =>
      have hr := remove_sound key hs
      cases hx : m.remove key with
      | error f => rintro _ _ ⟨⟩
      | ok r => exact leavesSound_ok (hr r.1 r.2 hx)
    | some v =>
      have hi := insert_sound heap key v.1 v.2 hs
      dsimp only
      cases hx : m.insert heap key v.1 v.2 with
      | error f => rintro _ _ ⟨⟩
      | ok r =>
        obtain ⟨out, m₁⟩ := r
        cases out with
        | ok u => exact leavesSound_ok (hi _ m₁ hx)
        | error e => exact leavesSound_ok (hi _ m₁ hx)

theorem compareExchangeMeta_sound (key : Key) (expected new : Option ℕ) (hs : m.arena.Sound) :
    LeavesSound (m.compareExchangeMeta key expected new) := by
  unfold compareExchangeMeta
  dsimp only
  split_ifs with hne hmax
  · exact leavesSound_ok hs
  · exact leavesSound_ok hs
  · cases m.index.get key.word with
    | none => cases new <;> exact leavesSound_ok hs
    | some raw =>
      cases new with
      | none =>
        dsimp only [Option.map_some]
        cases m.index.remove key.word with
        | error f => rintro _ _ ⟨⟩
        | ok r => exact leavesSound_ok (recordDeletedSlot_sound hs _)
      | some n =>
        dsimp only [Option.map_some]
        split_ifs
        · cases withArenaMetaMeta raw.toNat n with
          | none => exact leavesSound_ok hs
          | some slot =>
            dsimp only
            cases m.index.insert key.word (.ofNat slot) with
            | error f => rintro _ _ ⟨⟩
            | ok r => exact leavesSound_ok hs
        · exact leavesSound_ok hs
        · exact leavesSound_ok hs

/-- One call that returns keeps the arena sound, also across a stale hit. -/
theorem step_sound (hs : m.arena.Sound) (op : BlobMap.Op) : LeavesSound (m.step op) := by
  cases op with
  | get key => exact leavesSound_ok hs
  | insert heap key data hotMeta => exact (insert_sound heap key data hotMeta hs).map _
  | remove key => exact (remove_sound key hs).map _
  | compareExchange heap key expected new => exact (compareExchange_sound heap key expected new hs).map _
  | compareExchangeMeta key expected new => exact (compareExchangeMeta_sound key expected new hs).map _
  | compact heap => exact (compact_sound heap hs).map _
  | clear =>
    exact leavesSound_ok ⟨hs.size_ge, hs.size_le, hs.size_mod, nofun, Nat.zero_le _, (Nat.zero_mul _).symm,
      Nat.zero_le _, hs.cap_le, hs.gen_pos, hs.gen_lt⟩
  | setReclaimAtCap on => exact leavesSound_ok hs

end ExpanseBlobMap

/-- The words of an index built from entries, and those replaced on the way, over an arena: each word
left shows a value, and in 64 bits all words together are charged as the words left are. -/
structure WordsCharged (a : BlobArena) (olds : List (Option UInt64)) (index : ExpanseMap) : Prop where
  shown : ∀ e ∈ slots index.items, (value a e.2).isSome
  small : total (spans a (slots index.items)) < 2 ^ 64
  once : 2 ^ 64 ∣ chargedOld a olds

/-- Every cursor is a multiple of 16, and the entries, inserted in order into an empty index, are
charged as the index they build. -/
structure WellFormed (bytes : List Byte) : Prop where
  aligned : ∀ c ∈ chunksOf bytes, c.cursor % 16 = 0
  charged : ∀ olds index, build Store.new (entriesOf bytes) = .ok (olds, index) →
    WordsCharged (imageArena bytes) olds index

/-- The arena invariants of a map built by insertions, and what they are for: later calls that meet no
stale hit answer as on a built map, and no later read leaves a chunk. -/
structure ExpanseBlobMap.LikeBuilt (m : ExpanseBlobMap) : Prop where
  chunk : ∀ c ∈ m.arena.chunks, c.cursor % 16 = 0 ∧ c.cursor ≤ c.capacity ∧
    c.capacity = m.arena.chunkSize ∧ c.generation ≠ 0
  live : m.arena.liveBytes = total (spans m.arena (slots m.index.items))
  answers : ∀ ops outs m', m.UnstaleCalls ops → run step m ops = .ok (outs, m') →
    Traces BlobMap.Answers m.get ops outs m'.get
  inside : ∀ ops outs m', run step m ops = .ok (outs, m') → ∀ x d, m'.arena.getBlobSlice x = some d →
    ∃ c ∈ m'.arena.chunks, x % m'.arena.chunkSize + (8 + d.length) ≤ c.cursor ∧ c.cursor ≤ c.capacity

theorem BlobMap.Answers.removed_eq {f f' : BlobMap.Contents} {key : Key} {b : Bool}
    (h : BlobMap.Answers f (.remove key) (.removed b) f') : b = (f key).isSome := by
  cases h
  rfl

/-- A load that does not panic, and whose map, if there is one, is like a built map. -/
def SafeLoad (r : Except Halt ExpanseBlobMap) : Prop := Clean r ∧ ∀ m, r = .ok m → m.LikeBuilt

namespace ExpanseBlobMap

variable {m : ExpanseBlobMap} {b : BlobMap} {olds : List (Option UInt64)}

theorem live_iff {heap : ℕ → Bool} (hl : Loaded heap bytes b) (ha : m.arena = b.arena)
    (hb : build Store.new (entriesOf bytes) = .ok (olds, m.index)) :
    m.arena.liveBytes = total (spans m.arena (slots m.index.items)) ↔
      total (spans (imageArena bytes) (slots m.index.items)) < 2 ^ 64 ∧
        2 ^ 64 ∣ chargedOld (imageArena bytes) olds := by
  obtain ⟨olds', index', hb', -, hsum⟩ := build_spec (imageArena bytes) inv_new fun e he => (hl.bounded e he).2
  rw [hb] at hb'
  obtain ⟨rfl, rfl⟩ := Prod.mk.inj (Except.ok.inj hb')
  have hnone : total (spans (imageArena bytes) (slots (Store.new : ExpanseMap).items)) = 0 := rfl
  rw [ha, hl.live, ← spans_congr hl.keeps.1 hl.keeps.2, ← spans_congr hl.keeps.1 hl.keeps.2]
  omega

theorem likeBuilt_of_wellFormed {heap : ℕ → Bool} (hl : Loaded heap bytes b) (ha : m.arena = b.arena)
    (hb : build Store.new (entriesOf bytes) = .ok (olds, m.index)) (hinv : BuiltInv m.index)
    (hw : WellFormed bytes) :
    m.LikeBuilt := by
  have hc := hw.charged olds m.index hb
  have harena : m.arena.Sound := ha ▸ hl.arena_sound hw.aligned
  have hidx := hinv.indexInv
  have hs : m.flat.Sound := by
    refine ⟨harena, slots_sorted hidx.sorted, fun e he => ?_, fun e he => ?_, fun e he => ?_⟩
    · obtain ⟨x, hx, rfl⟩ := List.mem_map.mp he
      exact (hidx.bound hx).trans_le (by norm_num)
    · obtain ⟨x, -, rfl⟩ := List.mem_map.mp he
      exact x.2.toNat_lt
    · show (value m.arena e.2).isSome
      rw [ha, ← value_congr hl.keeps.1 hl.keeps.2]
      exact hc.shown e he
  refine ⟨fun c hm => ?_, (live_iff hl ha hb).mpr ⟨hc.small, hc.once⟩, fun ops outs m' hst hr => ?_,
    fun ops outs m' hr x d hx => ?_⟩
  · have hch := harena.chunk c hm
    exact ⟨hch.cursor_mod, hch.cursor_le.trans hch.capacity.ge, hch.capacity, hch.gen_pos.ne'⟩
  · obtain ⟨hinv', hflat, houts⟩ := steps_flat hidx hst hr
    rw [get_eq hidx, get_eq hinv', hflat, houts]
    exact (BlobMap.run_traces hs ops).1
  · have hsound : m'.arena.Sound :=
      run_ok_invariant (I := fun m : ExpanseBlobMap => m.arena.Sound)
        (fun m op out m' hm hr => step_sound hm op out m' hr)
        harena hr
    obtain ⟨c, hc, -, hin⟩ := BlobArena.getBlobSlice_inside hx
    have hch := hsound.chunk c (List.mem_of_getElem? hc)
    exact ⟨c, List.mem_of_getElem? hc, hin, hch.cursor_le.trans hch.capacity.ge⟩

/-- Where every removal answers whether the key has a value, every slot word shows one. -/
theorem shown_of_answers (hinv : IndexInv m.index) (ha : ∀ ops outs m', m.UnstaleCalls ops →
      run step m ops = .ok (outs, m') → Traces BlobMap.Answers m.get ops outs m'.get) :
    ∀ e ∈ slots m.index.items, (value m.arena e.2).isSome := by
  intro e he
  have hbound : e.1 < 2 ^ 64 := by
    obtain ⟨x, hx, rfl⟩ := List.mem_map.mp he
    exact (hinv.bound hx).trans_le (by norm_num)
  have hl : (slots m.index.items).lookup e.1 = some e.2 :=
    SortedAssoc.lookup_of_mem (slots_sorted hinv.sorted) he
  obtain ⟨old, index', hr, -, hold, -⟩ := index_remove hinv ⟨e.1, hbound⟩
  rw [hl] at hold
  cases old with
  | none => cases hold
  | some raw =>
    have hrun : run step m [.remove ⟨e.1, hbound⟩] =
        .ok ([.removed true], { m with index := index', arena := m.arena.recordDeletedSlot raw.toNat }) := by
      rw [run, step, remove, hr]
      rfl
    have htr := ha [.remove ⟨e.1, hbound⟩] _ _ ⟨id, by split <;> trivial⟩ hrun
    cases htr with
    | cons hans hrest =>
      have hsome := hans.removed_eq
      rw [get_eq hinv, Blob.get_eq] at hsome
      have hsome : true = ((slots m.index.items).lookup e.1 |>.bind (value m.arena)).isSome := hsome
      rw [hl, Option.bind_some] at hsome
      exact hsome.symm

/-- Loading is safe on a byte string exactly if it is refused or the image is well formed. -/
theorem loads_safely_iff (heap : ℕ → Bool) (bytes : List Byte) (maxCapacity : ℕ) :
    SafeLoad (fromBytesSliceWithMaxCapacity heap bytes maxCapacity) ↔
      ∀ m, fromBytesSliceWithMaxCapacity heap bytes maxCapacity = .ok m → WellFormed bytes := by
  rcases load_build heap bytes maxCapacity with ⟨e, he, he'⟩ | ⟨m, b, olds, hm, hb, ha, -, hbuild, hinv⟩
  · rw [he]
    have hclean := BlobMap.load_clean heap bytes maxCapacity
    rw [he'] at hclean
    refine ⟨fun _ => nofun, fun _ => ⟨?_, nofun⟩⟩
    rintro ⟨⟩
    exact hclean rfl
  · have hl := BlobMap.load_ok hb
    rw [hm]
    constructor
    · rintro ⟨-, hlike⟩ _ -
      obtain ⟨hchunk, hlive, hans, -⟩ := hlike m rfl
      obtain ⟨hsmall, honce⟩ := (live_iff hl ha hbuild).mp hlive
      refine ⟨fun c hc => ?_, fun olds' index' hb' => ?_⟩
      · rw [← hl.chunks, ← ha] at hc
        exact (hchunk c hc).1
      · rw [hbuild] at hb'
        obtain ⟨rfl, rfl⟩ := Prod.mk.inj (Except.ok.inj hb')
        refine ⟨fun e he => ?_, hsmall, honce⟩
        rw [value_congr hl.keeps.1 hl.keeps.2, ← ha]
        exact shown_of_answers hinv.indexInv hans e he
    · intro hw
      refine ⟨clean_ok m, ?_⟩
      rintro _ ⟨⟩
      exact likeBuilt_of_wellFormed hl ha hbuild hinv (hw m rfl)

/-- An image of one chunk with the single byte 0 in it. -/
def unalignedImage : List Byte :=
  BlobMapFileHeader.bytes ⟨EXPANSE_MAGIC, EXPANSE_FORMAT_VERSION, 0, 0, 64, 64, 89, 4096, 1⟩ ++
    (le 8 4096 ++ (le 8 1 ++ (le 4 1 ++ (le 4 0 ++ [0]))))

/-- The loader accepts a cursor of 1. -/
theorem unaligned_image_unsafe :
    ¬ SafeLoad (fromBytesSliceWithMaxCapacity (fun _ => true) unalignedImage 4096) := by
  rintro ⟨-, hlike⟩
  have hload : (fromBytesSliceWithMaxCapacity (fun _ => true) unalignedImage 4096).toOption.map (fun m =>
      m.arena.chunks.map ArenaChunk.cursor) = some [1] := by
    decide +kernel
  cases hr : fromBytesSliceWithMaxCapacity (fun _ => true) unalignedImage 4096 with
  | error e =>
    rw [hr] at hload
    cases hload
  | ok m =>
    rw [hr] at hload
    have hcursors : m.arena.chunks.map ArenaChunk.cursor = [1] := Option.some.inj hload
    obtain ⟨c, cs, hch, hone, -⟩ := List.map_eq_cons_iff.mp hcursors
    have h16 := ((hlike m hr).chunk c (by rw [hch]; exact List.mem_cons_self)).1
    rw [hone] at h16
    cases h16

end ExpanseBlobMap

end Expanse.Blob
