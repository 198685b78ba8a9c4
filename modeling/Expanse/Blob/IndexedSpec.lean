import Expanse.Blob.Indexed

/-!
# The blob map over a correct index

As long as the index's path is no stale hit for a key it is asked to bind, or to hand a
slot out for, each call does to the entries of the index what the map over a list does. So
does every run of such calls. Runs that compact or insert across a stale hit do not: two
keys come to share a record.
-/

namespace Expanse.Blob

open Arrays Bytes SortedAssoc ValueSlot Runs Store

variable {index index' : ExpanseMap} {key : Key} {heap : Heap} {data : List Byte}
  {slot hotMeta : ℕ}

abbrev IndexInv (index : ExpanseMap) : Prop := Inv .map (fun _ _ => 0) index

theorem word_toNat (key : Key) : key.word.toNat = key.val :=
  Nat.mod_eq_of_lt key.isLt

theorem key_lt (key : Key) : key.val < 256 ^ 8 := lt_of_lt_of_eq key.isLt (by norm_num)

theorem toNat_slot (h : slot < 2 ^ 64) : (UInt64.ofNat slot).toNat = slot := Nat.mod_eq_of_lt h

theorem slots_sorted {items : List (ℕ × UInt64)} (h : KeySorted items) : KeySorted (slots items) := by
  rw [slots, KeySorted, List.pairwise_map]
  exact h

theorem mem_slots {items : List (ℕ × UInt64)} {k : ℕ} {v : UInt64} (h : (k, v) ∈ items) :
    (k, v.toNat) ∈ slots items :=
  List.mem_map_of_mem (f := fun e : ℕ × UInt64 => (e.1, e.2.toNat)) h

theorem lookup_slots {items : List (ℕ × UInt64)} {old : Option UInt64} {k : ℕ} (hs : KeySorted items)
    (h : ∀ v, old = some v ↔ (k, v) ∈ items) : (slots items).lookup k = old.map UInt64.toNat := by
  cases old with
  | some v => exact lookup_of_mem (slots_sorted hs) (mem_slots ((h v).mp rfl))
  | none =>
    refine lookup_eq_none (slots_sorted hs) fun v hv => ?_
    obtain ⟨⟨k', w⟩, hw, he⟩ := List.mem_map.mp hv
    obtain ⟨rfl, -⟩ := Prod.mk.inj he
    cases (h w).mpr hw

theorem slots_put {items items' : List (ℕ × UInt64)} {k : ℕ} (hs : KeySorted items) (hs' : KeySorted items')
    (hslot : slot < 2 ^ 64) (h : Updated k (UInt64.ofNat slot) items items') :
    slots items' = put k slot (slots items) := by
  rw [h.eq_put hs hs', slots, map_put, toNat_slot hslot]
  rfl

theorem slots_del {items items' : List (ℕ × UInt64)} {k : ℕ} (hs : KeySorted items) (hs' : KeySorted items')
    (h : Erased k items items') : slots items' = del k (slots items) := by
  rw [h.eq_del hs hs', slots, map_del]
  rfl

theorem iterated_eq (h : IndexInv index) : iterated index = .ok (slots index.items) := by
  rw [iterated, collectIter_ok MapRangeCursor.noSet h (lastWordFull_map h)]
  rfl

theorem ranging_eq (h : IndexInv index) (lo hi : Key) :
    ranging index lo hi = .ok ((slots index.items).filter fun e => lo.val ≤ e.1 ∧ e.1 ≤ hi.val) := by
  have hslots : (slots index.items).filter (fun e => lo.val ≤ e.1 ∧ e.1 ≤ hi.val) =
      slots ((index.items.filter (lo.val ≤ ·.1)).filter (·.1 ≤ hi.val)) := by
    rw [slots, List.filter_map, List.filter_filter]
    congr 1
    refine List.filter_congr fun e _ => ?_
    simp [Bool.and_comm]
  rw [hslots, ranging]
  split_ifs with hlt
  · have hnone : (index.items.filter (lo.val ≤ ·.1)).filter (·.1 ≤ hi.val) = [] := by
      rw [List.filter_filter, List.filter_eq_nil_iff]
      intro e _
      have hlt : hi.val < lo.val := hlt
      simp only [Bool.and_eq_true, decide_eq_true_eq, not_and]
      omega
    rw [hnone]
    rfl
  · obtain ⟨it, hit, hw, hl⟩ := rangeFwdRaw_spec MapRangeCursor.noSet h lo.val
    have hsorted : KeySorted (index.items.filter (lo.val ≤ ·.1)) := h.sorted.filter _
    have htake := hsorted.takeWhile_eq_filter (hi.val + 1)
    simp only [Nat.lt_succ_iff] at htake
    have hcount : (index.items.filter (lo.val ≤ ·.1)).length < index.len + 1 := by
      rw [len_eq h]
      exact Nat.lt_succ_of_le (List.length_filter_le _ _)
    rw [hit, collectIter]
    show (drain .fuel (fun it => (Iter.next .map it).map
      fun r => (r.1.filter (·.1 ≤ hi.val), r.2)) _ it).map slots = _
    rw [drain_filter _ _ (calls_next MapRangeCursor.noSet hw hl (lastWordFull_map h) _) hcount, htake]
    rfl

theorem lookup_get (h : IndexInv index) (key : Key) :
    (slots index.items).lookup key.val = (index.get key.word).map UInt64.toNat := by
  refine lookup_slots h.sorted fun v => ?_
  rw [ExpanseMap.get, word_toNat]
  exact find_spec h (key_lt key)

theorem lookup_getSlotPtr (h : IndexInv index) (key : Key) :
    (slots index.items).lookup key.val =
      (index.getSlotPtr key.val).bind fun ptr => (index.entryAt ptr).map fun e => e.2.toNat := by
  by_cases hm : ∃ v, (key.val, v) ∈ index.items
  · obtain ⟨v, hv⟩ := hm
    obtain ⟨ptr, hptr, hat⟩ := getSlotPtr_of_mem h (key_lt key) hv
    rw [lookup_of_mem (slots_sorted h.sorted) (mem_slots hv), hptr, Option.bind_some, hat]
    rfl
  · push Not at hm
    rw [getSlotPtr_of_not_mem h (key_lt key) hm]
    refine lookup_eq_none (slots_sorted h.sorted) fun v hv => ?_
    obtain ⟨⟨k', w⟩, hw, he⟩ := List.mem_map.mp hv
    exact hm w ((Prod.mk.inj he).1 ▸ hw)

namespace ExpanseBlobMap

variable {m m' : ExpanseBlobMap}

theorem getView_eq (h : IndexInv m.index) (key : Key) : m.getView key = m.flat.getView key := by
  show _ = ((slots m.index.items).lookup key.val).bind _
  rw [lookup_getSlotPtr h, getView]
  cases hp : m.index.getSlotPtr key.val with
  | none => rfl
  | some ptr =>
    rw [Option.bind_some, Option.bind_some]
    cases m.index.entryAt ptr <;> rfl

theorem get_eq (h : IndexInv m.index) : m.get = m.flat.get := by
  funext key
  rw [get, getView_eq h]
  rfl

end ExpanseBlobMap

/-- The entries of an index that is rewritten where no hit is stale. -/
theorem rewriteIndex_eq (moves : List (ℕ × ℕ)) (h : IndexInv index)
    (hk : ∀ e ∈ moves, e.1 < 256 ^ 8 ∧ e.2 < 2 ^ 64)
    (hst : ∀ e ∈ moves, ¬ Stale index e.1) :
    IndexInv (ExpanseBlobMap.rewriteIndex index moves) ∧
      slots (ExpanseBlobMap.rewriteIndex index moves).items =
        BlobArena.rewriteIndex (slots index.items) moves ∧
      ∀ k, Stale (ExpanseBlobMap.rewriteIndex index moves) k → Stale index k := by
  induction moves generalizing index with
  | nil => exact ⟨h, rfl, fun _ => id⟩
  | cons e rest ih =>
    obtain ⟨k, raw⟩ := e
    obtain ⟨hklt, hraw⟩ := hk _ List.mem_cons_self
    have hrest := fun e he => hk e (List.mem_cons_of_mem _ he)
    have hstr := fun e he => hst e (List.mem_cons_of_mem (k, raw) he)
    have hslot := getValueSlot_eq h hklt (hst _ List.mem_cons_self)
    rw [ExpanseBlobMap.rewriteIndex, BlobArena.rewriteIndex, hslot]
    by_cases hm : ∃ v, (k, v) ∈ index.items
    · obtain ⟨v, hv⟩ := hm
      obtain ⟨ptr, hptr, hat⟩ := getSlotPtr_of_mem h hklt hv
      obtain ⟨hinv, hup, hpath, hres⟩ := writeAt_spec h hat (UInt64.ofNat raw)
      have hback : ∀ x, Stale (index.writeAt ptr (.ofNat raw)) x → Stale index x := by
        rintro x ⟨top, w, u, t, hroot, hw, hpre, hr, hne⟩
        rw [hpath] at hw
        obtain ⟨top₀, t₀, hroot₀, hr₀⟩ := hres w top u t hw hroot hr
        exact ⟨top₀, w, u, t₀, hroot₀, hw, hpre, hr₀, hne⟩
      obtain ⟨hi, hitems, hstale⟩ := ih hinv hrest fun e he hs => hstr e he (hback _ hs)
      rw [lookup_of_mem (slots_sorted h.sorted) (mem_slots hv), hptr]
      refine ⟨hi, ?_, fun x hx => hback x (hstale x hx)⟩
      show slots (ExpanseBlobMap.rewriteIndex (index.writeAt ptr (.ofNat raw)) rest).items =
        BlobArena.rewriteIndex (put k raw (slots index.items)) rest
      rw [hitems, slots_put h.sorted hinv.sorted hraw hup]
    · push Not at hm
      have hnone : (slots index.items).lookup k = none := by
        refine lookup_eq_none (slots_sorted h.sorted) fun v hv => ?_
        obtain ⟨⟨k', w⟩, hw, he⟩ := List.mem_map.mp hv
        exact hm w ((Prod.mk.inj he).1 ▸ hw)
      rw [getSlotPtr_of_not_mem h hklt hm, hnone]
      exact ih h hrest hstr

theorem slotFromGlobal_lt {global : ℕ} (h : slotFromGlobal global hotMeta = .ok slot) : slot < 2 ^ 64 := by
  have h' := h
  rw [slotFromGlobal] at h'
  split_ifs at h' with hg hmax
  obtain ⟨hmod, hlt⟩ := not_or.mp hg
  rw [slotFromGlobal_eq (not_not.mp hmod) (not_le.mp hlt) (not_lt.mp hmax)] at h
  cases h
  exact arenaWord_lt (not_lt.mp hmax) (locator_lt (not_le.mp hlt))

/-- The words a compaction writes are words, and its keys are keys of the index. -/
theorem relocate_moves {a N : BlobArena} {rest kept : List (ℕ × ℕ)} {p : PreparedCompaction}
    (h : BlobArena.relocate heap a rest N kept = .ok p) :
    ∀ e ∈ p.rewrites, e ∈ kept ∨ e.2 < 2 ^ 64 ∧ ∃ raw, (e.1, raw) ∈ rest := by
  induction rest generalizing N kept with
  | nil =>
    cases h
    exact fun e he => .inl he
  | cons x rest ih =>
    obtain ⟨k, raw⟩ := x
    rw [BlobArena.relocate] at h
    have hweak : ∀ {e : ℕ × ℕ} {kept : List (ℕ × ℕ)},
        e ∈ kept ∨ e.2 < 2 ^ 64 ∧ (∃ raw, (e.1, raw) ∈ rest) →
        e ∈ kept ∨ e.2 < 2 ^ 64 ∧ ∃ w, (e.1, w) ∈ (k, raw) :: rest := by
      rintro e kept (hm | ⟨hlt, w, hw⟩)
      · exact .inl hm
      · exact .inr ⟨hlt, w, List.mem_cons_of_mem _ hw⟩
    cases hres : a.resolveMeta (arenaMetaLocator raw) with
    | none =>
      rw [hres] at h
      exact fun e he => hweak (ih h e he)
    | some payload =>
      rw [hres] at h
      cases hal : N.allocBlob (heap (.copied N.chunks.length)) payload with
      | error err =>
        simp only [hal] at h
        cases h
      | ok r =>
        simp only [hal, ok_bind] at h
        cases hsl : slotFromGlobal r.1 (arenaMetaMeta raw) with
        | error err =>
          rw [hsl] at h
          cases h
        | ok new =>
          rw [hsl, ok_bind] at h
          intro e he
          rcases ih h e he with hm | hm
          · rcases List.mem_append.mp hm with hm | hm
            · exact .inl hm
            · obtain rfl := List.mem_singleton.mp hm
              exact .inr ⟨slotFromGlobal_lt hsl, raw, List.mem_cons_self⟩
          · exact hweak (.inr hm)

theorem relocate_keys {a N : BlobArena} {index : List (ℕ × ℕ)} {p : PreparedCompaction}
    (h : BlobArena.relocate heap a (arenaEntries index) N [] = .ok p) :
    ∀ e ∈ p.rewrites, e.2 < 2 ^ 64 ∧ ∃ raw, (e.1, raw) ∈ index ∧ tag raw = .arenaMeta := by
  intro e he
  rcases relocate_moves h e he with hm | ⟨hlt, raw, hraw⟩
  · cases hm
  · exact ⟨hlt, raw, mem_arenaEntries.mp hraw⟩

theorem allocBlob_refuses {granted : Bool} {a : BlobArena}
    (h : a.allocBlob granted data = .error .offsetOverflow) : a.allocWouldRefuseAtCap data.length = true := by
  have hlen : ¬ 8 + data.length > a.chunkSize := by
    intro hlen
    rw [BlobArena.allocBlob, if_pos hlen] at h
    cases h
  rw [BlobArena.allocBlob, if_neg hlen] at h
  rw [BlobArena.allocWouldRefuseAtCap, if_neg hlen]
  cases hroom : a.roomFor data.length with
  | some r =>
    obtain ⟨idx, c⟩ := r
    rw [hroom] at h
    dsimp only at h
    rw [ArenaChunk.alloc] at h
    split_ifs at h <;> cases h
  | none =>
    rw [hroom] at h
    rw [if_neg (by simp)]
    dsimp only at h
    rw [BlobArena.allocBlobInNewChunk] at h
    split_ifs at h with hcount htotal
    · exact decide_eq_true (.inl hcount)
    · exact decide_eq_true (.inr htotal)
    · -- the chunk itself is refused with another error
      rw [ArenaChunk.new] at h
      split_ifs at h
      · cases h
      · rw [ok_bind, ArenaChunk.alloc] at h
        split_ifs at h <;> cases h
      · cases h

namespace ExpanseBlobMap

variable {m m' : ExpanseBlobMap} {α : Type}

/-- A compaction would rewrite an arena entry through the slot of another key, or not at all. -/
def StaleRecord (m : ExpanseBlobMap) : Prop :=
  ∃ e ∈ m.index.items, tag e.2.toNat = .arenaMeta ∧ Stale m.index e.1

/-- An insertion binds its key, or rewrites the index before, across a stale hit. -/
def StaleInsert (m : ExpanseBlobMap) (key : Key) (data : List Byte) (hotMeta : ℕ) : Prop :=
  Stale m.index key.val ∨ m.insertNeedsReclaim data hotMeta = true ∧ StaleRecord m

def StaleOp (m : ExpanseBlobMap) : BlobMap.Op → Prop
  | .insert _ key data hotMeta => StaleInsert m key data hotMeta
  | .compareExchange _ key expected (some v) => m.get key = expected ∧ StaleInsert m key v.1 v.2
  | .compareExchangeMeta key _ (some _) => Stale m.index key.val
  | .compact _ => StaleRecord m
  | _ => False

instance (m : ExpanseBlobMap) : Decidable (StaleRecord m) :=
  inferInstanceAs (Decidable (∃ e ∈ m.index.items, _))

instance (m : ExpanseBlobMap) (key : Key) (data : List Byte) (hotMeta : ℕ) :
    Decidable (StaleInsert m key data hotMeta) :=
  inferInstanceAs (Decidable (_ ∨ _))

instance (m : ExpanseBlobMap) : ∀ op, Decidable (StaleOp m op)
  | .insert _ key data hotMeta => inferInstanceAs (Decidable (StaleInsert m key data hotMeta))
  | .compareExchange _ key expected (some v) =>
    inferInstanceAs (Decidable (m.get key = expected ∧ StaleInsert m key v.1 v.2))
  | .compareExchange _ _ _ none => .isFalse id
  | .compareExchangeMeta key _ (some _) => inferInstanceAs (Decidable (Stale m.index key.val))
  | .compareExchangeMeta _ _ none => .isFalse id
  | .compact _ => inferInstanceAs (Decidable (StaleRecord m))
  | .get _ => .isFalse id
  | .remove _ => .isFalse id
  | .clear => .isFalse id
  | .setReclaimAtCap _ => .isFalse id

/-- What a call that returns does to the list of entries, and that the index stays in order. -/
def Follows (r : Called α) (ref : α × BlobMap) : Prop :=
  ∀ out m', r = .ok (out, m') → IndexInv m'.index ∧ ref = (out, m'.flat)

/-- The same, and that no key becomes a stale hit. -/
def FollowsFresh (index : ExpanseMap) (r : Called α) (ref : α × BlobMap) : Prop :=
  ∀ out m', r = .ok (out, m') →
    IndexInv m'.index ∧ ref = (out, m'.flat) ∧ ∀ k, Stale m'.index k → Stale index k

theorem followsFresh_rest {out : α} (h : IndexInv m.index) {b : BlobMap} (hb : b = m.flat) :
    FollowsFresh m.index (.ok (out, m)) (out, b) := by
  rintro _ _ ⟨⟩
  exact ⟨h, by rw [hb], fun _ => id⟩

theorem prepareCompaction_eq (heap : Heap) (h : IndexInv m.index) :
    m.prepareCompaction heap = .ok (m.flat.arena.prepareCompaction heap m.flat.index) := by
  have hnil : m.index.len ≠ 0 ↔ m.flat.index ≠ [] := by
    rw [len_eq h, ← List.length_pos_iff, flat, slots, List.length_map]
    omega
  rw [prepareCompaction, BlobArena.prepareCompaction]
  by_cases hr : m.index.len ≠ 0 ∧ heap .relocations = false
  · rw [if_pos hr, if_pos (hr.imp_left hnil.mp)]
  · rw [if_neg hr, if_neg fun hc => hr (hc.imp_left hnil.mpr), iterated_eq h]
    rfl

theorem compact_follows (heap : Heap) (h : IndexInv m.index) (hst : ¬ StaleRecord m) :
    FollowsFresh m.index (m.compact heap) (m.flat.compact heap) := by
  rw [compact, prepareCompaction_eq heap h, BlobMap.compact]
  cases hp : m.flat.arena.prepareCompaction heap m.flat.index with
  | error e => exact followsFresh_rest h rfl
  | ok p =>
    rintro _ _ ⟨⟩
    have hmoves : ∀ e ∈ p.rewrites, e.2 < 2 ^ 64 ∧ ∃ raw, (e.1, raw) ∈ m.flat.index ∧ tag raw = .arenaMeta := by
      rw [BlobArena.prepareCompaction] at hp
      split_ifs at hp
      exact relocate_keys hp
    have hmem : ∀ e ∈ p.rewrites, ∃ v, (e.1, v) ∈ m.index.items ∧ tag v.toNat = .arenaMeta := by
      intro e he
      obtain ⟨-, raw, hraw, ht⟩ := hmoves e he
      obtain ⟨⟨k, v⟩, hv, heq⟩ := List.mem_map.mp hraw
      obtain ⟨hk, hr⟩ := Prod.mk.inj heq
      exact ⟨v, hk ▸ hv, hr ▸ ht⟩
    obtain ⟨hinv, hitems, hback⟩ := rewriteIndex_eq p.rewrites h
      (fun e he => ⟨h.bound (hmem e he).choose_spec.1, (hmoves e he).1⟩)
      (fun e he hs => hst ⟨_, (hmem e he).choose_spec.1, (hmem e he).choose_spec.2, hs⟩)
    refine ⟨hinv, ?_, hback⟩
    have hlist : BlobArena.rewriteIndex m.flat.index p.rewrites =
        slots (rewriteIndex m.index p.rewrites).items := hitems.symm
    show ((.ok (m.flat.applyCompaction p).1 : Except ArenaError CompactionStats),
      (⟨BlobArena.rewriteIndex m.flat.index p.rewrites, _, _⟩ : BlobMap)) = _
    rw [hlist]
    rfl

theorem reclaimForInsert_follows (heap : Heap) (h : IndexInv m.index)
    (hst : m.reclaimAtCap = true → m.arena.reclaimAllowed = true → ¬ StaleRecord m) :
    FollowsFresh m.index (m.reclaimForInsert heap) (m.flat.reclaimForInsert heap) := by
  rw [reclaimForInsert, BlobMap.reclaimForInsert]
  show FollowsFresh _ _ (if m.reclaimAtCap = false ∨ m.arena.reclaimAllowed = false then _ else _)
  split_ifs with hoff
  · exact followsFresh_rest h rfl
  · obtain ⟨hon, hall⟩ := not_or.mp hoff
    have hc := compact_follows heap h (hst (by simpa using hon) (by simpa using hall))
    cases hr : m.compact heap with
    | error f => rintro _ _ ⟨⟩
    | ok r =>
      obtain ⟨out, m₁⟩ := r
      obtain ⟨hinv, href, hback⟩ := hc out m₁ hr
      rw [href]
      cases out with
      | ok stats =>
        rintro _ _ ⟨⟩
        exact ⟨hinv, rfl, hback⟩
      | error e =>
        rintro _ _ ⟨⟩
        exact ⟨hinv, rfl, hback⟩

theorem allocAfterReclaim_follows (heap : Heap) (h : IndexInv m.index)
    (hst : m.reclaimAtCap = true → m.arena.reclaimAllowed = true → ¬ StaleRecord m) :
    FollowsFresh m.index (m.allocAfterReclaim heap data) (m.flat.allocAfterReclaim heap data) := by
  have hc := reclaimForInsert_follows heap h hst
  rw [allocAfterReclaim, BlobMap.allocAfterReclaim]
  cases hr : m.reclaimForInsert heap with
  | error f => rintro _ _ ⟨⟩
  | ok r =>
    obtain ⟨out, m₁⟩ := r
    obtain ⟨hinv, href, hback⟩ := hc out m₁ hr
    rw [href]
    cases out with
    | error e =>
      rintro _ _ ⟨⟩
      exact ⟨hinv, rfl, hback⟩
    | ok ran =>
      cases ran with
      | false =>
        rintro _ _ ⟨⟩
        exact ⟨hinv, rfl, hback⟩
      | true =>
        have harena : m₁.flat.arena = m₁.arena := rfl
        dsimp only [bind, Except.bind]
        rw [harena]
        cases m₁.arena.allocBlob (heap .retried) data with
        | ok p =>
          rintro _ _ ⟨⟩
          exact ⟨hinv, rfl, hback⟩
        | error e =>
          rintro _ _ ⟨⟩
          exact ⟨hinv, rfl, hback⟩

theorem allocPayload_follows (heap : Heap) (data : List Byte) (h : IndexInv m.index)
    (hst : m.arena.allocWouldRefuseAtCap data.length = true → m.reclaimAtCap = true →
      m.arena.reclaimAllowed = true → ¬ StaleRecord m) :
    FollowsFresh m.index (m.allocPayload heap data) (m.flat.allocPayload heap data) := by
  rw [allocPayload, BlobMap.allocPayload]
  have harena : m.flat.arena = m.arena := rfl
  rw [harena]
  cases hal : m.arena.allocBlob (heap .chunk) data with
  | ok p =>
    rintro _ _ ⟨⟩
    exact ⟨h, rfl, fun _ => id⟩
  | error e =>
    cases e with
    | offsetOverflow => exact allocAfterReclaim_follows heap h (hst (allocBlob_refuses hal))
    | _ => exact followsFresh_rest h rfl

theorem store_follows (h : IndexInv m.index) (hst : ¬ Stale m.index key.val) (hslot : slot < 2 ^ 64)
    (hs : m.store key slot = .ok m') : IndexInv m'.index ∧ m.flat.store key slot = m'.flat := by
  rw [store] at hs
  cases hi : m.index.insert key.word (.ofNat slot) with
  | error f =>
    rw [hi] at hs
    cases hs
  | ok r =>
    obtain ⟨old, index⟩ := r
    rw [hi] at hs
    cases hs
    obtain ⟨o, ho, rfl⟩ := ExpanseMap.insert_ok hi
    obtain ⟨k, hins, hk⟩ := insertInner_of_ok h (toNat_lt key.word) not_splitsAt_zero Edge.admits_zero
      (by simp) ho
    rw [word_toNat] at hk ho
    obtain rfl := hk hst
    have hold : o.old = old := by
      rw [ExpanseMap.insert, word_toNat, ho] at hi
      exact congrArg Prod.fst (Except.ok.inj hi)
    have hput := slots_put h.sorted hins.inv.sorted hslot hins.content
    refine ⟨hins.inv, ?_⟩
    have hlook : m.flat.index.lookup key.val = old.map UInt64.toNat := by
      rw [← hold]
      exact lookup_slots h.sorted hins.old
    rw [BlobMap.store, hlook]
    show (⟨_, _, _⟩ : BlobMap) = ⟨slots o.store.items, _, _⟩
    rw [hput]
    cases old <;> rfl

theorem insert_follows (heap : Heap) (key : Key) (data : List Byte) (hotMeta : ℕ) (h : IndexInv m.index)
    (hst : ¬ StaleInsert m key data hotMeta) :
    Follows (m.insert heap key data hotMeta) (m.flat.insert heap key data hotMeta) := by
  obtain ⟨hkey, hrec⟩ := not_or.mp hst
  rw [insert, BlobMap.insert]
  -- the word is bound in the map the allocation leaves
  have hbind : ∀ {m₁ : ExpanseBlobMap} {slot : ℕ}, IndexInv m₁.index → ¬ Stale m₁.index key.val → slot < 2 ^ 64 →
      Follows ((m₁.store key slot).map fun m => ((.ok () : Except ArenaError Unit), m))
        (.ok (), m₁.flat.store key slot) := by
    intro m₁ slot h₁ hk₁ hslot out m₂ hm₂
    cases hs : m₁.store key slot with
    | error f =>
      rw [hs] at hm₂
      cases hm₂
    | ok m₃ =>
      rw [hs] at hm₂
      cases hm₂
      obtain ⟨hinv, heq⟩ := store_follows h₁ hk₁ hslot hs
      exact ⟨hinv, by rw [heq]⟩
  cases hw : slotWordValue data hotMeta with
  | some slot => exact hbind h hkey (slotWordValue_holds hw).2.lt
  | none =>
    dsimp only
    split_ifs with hmax
    · rintro _ _ ⟨⟩
      exact ⟨h, rfl⟩
    · have hc := allocPayload_follows heap data h fun hcap hon hall hs => by
        refine hrec ⟨?_, hs⟩
        simp [insertNeedsReclaim, hon, hw, hcap, hall, not_lt.mp hmax]
      cases hr : m.allocPayload heap data with
      | error f => rintro _ _ ⟨⟩
      | ok r =>
        obtain ⟨out, m₁⟩ := r
        obtain ⟨hinv, href, hback⟩ := hc out m₁ hr
        rw [href]
        cases out with
        | error e =>
          rintro _ _ ⟨⟩
          exact ⟨hinv, rfl⟩
        | ok g =>
          dsimp only
          cases hsl : slotFromGlobal g hotMeta with
          | error e =>
            rintro _ _ ⟨⟩
            exact ⟨hinv, rfl⟩
          | ok slot => exact hbind hinv (fun hs => hkey (hback _ hs)) (slotFromGlobal_lt hsl)

theorem index_remove (h : IndexInv index) (key : Key) : ∃ old index', index.remove key.word = .ok (old, index') ∧
    IndexInv index' ∧ (slots index.items).lookup key.val = old.map UInt64.toNat ∧
    slots index'.items = del key.val (slots index.items) := by
  obtain ⟨old, index', hr, hrem⟩ := removeInner_spec h (toNat_lt key.word) admitsNarrow_zero
  have hold := hrem.old
  have hcont := hrem.content
  rw [word_toNat] at hold hcont
  exact ⟨old, index', hr, hrem.inv, lookup_slots h.sorted hold, slots_del h.sorted hrem.inv.sorted hcont⟩

theorem remove_follows (h : IndexInv m.index) (key : Key) : Follows (m.remove key) (m.flat.remove key) := by
  obtain ⟨old, index', hr, hinv, hl, hdel⟩ := index_remove h key
  have hl' : m.flat.index.lookup key.val = old.map UInt64.toNat := hl
  rw [remove, hr, BlobMap.remove, hl']
  cases old with
  | some raw =>
    rintro _ _ ⟨⟩
    refine ⟨hinv, ?_⟩
    show (_, (⟨_, _, _⟩ : BlobMap)) = (_, ⟨slots index'.items, _, _⟩)
    rw [hdel]
    rfl
  | none =>
    rintro _ _ ⟨⟩
    refine ⟨hinv, ?_⟩
    have hsame : slots index'.items = m.flat.index := by
      rw [hdel, del_of_not_mem]
      · rfl
      · intro v hv
        rw [lookup_of_mem (slots_sorted h.sorted) hv] at hl
        cases hl
    show (_, m.flat) = (_, (⟨slots index'.items, _, _⟩ : BlobMap))
    rw [hsame]
    rfl

theorem compareExchange_follows {expected new : Option Value} (h : IndexInv m.index)
    (hst : ¬ StaleOp m (.compareExchange heap key expected new)) :
    Follows (m.compareExchange heap key expected new) (m.flat.compareExchange heap key expected new) := by
  unfold compareExchange BlobMap.compareExchange
  dsimp only
  rw [get_eq h]
  split_ifs with hm
  · rintro _ _ ⟨⟩
    exact ⟨h, rfl⟩
  · cases new with
    | none =>
      dsimp only
      have hr := remove_follows h key
      rintro _ m' hm'
      cases hx : m.remove key with
      | error f =>
        rw [hx] at hm'
        cases hm'
      | ok r =>
        rw [hx] at hm'
        cases hm'
        obtain ⟨hinv, href⟩ := hr r.1 r.2 hx
        exact ⟨hinv, by rw [href]⟩
    | some v =>
      obtain ⟨data, hotMeta⟩ := v
      dsimp only
      have heq : m.get key = expected := by
        rw [get_eq h]
        exact (BlobMap.blobValueMatches_iff _ _).mp (by simpa using hm)
      have hi := insert_follows heap key data hotMeta h
        fun hs => hst ⟨heq, hs⟩
      cases hx : m.insert heap key data hotMeta with
      | error f => rintro _ _ ⟨⟩
      | ok r =>
        obtain ⟨out, m₁⟩ := r
        obtain ⟨hinv, href⟩ := hi out m₁ hx
        rw [href]
        cases out with
        | ok u =>
          rintro _ _ ⟨⟩
          exact ⟨hinv, rfl⟩
        | error e =>
          rintro _ _ ⟨⟩
          exact ⟨hinv, rfl⟩

theorem compareExchangeMeta_follows {expected new : Option ℕ} (h : IndexInv m.index)
    (hst : ¬ StaleOp m (.compareExchangeMeta key expected new)) :
    Follows (m.compareExchangeMeta key expected new) (m.flat.compareExchangeMeta key expected new) := by
  have hget : m.flat.index.lookup key.val = (m.index.get key.word).map UInt64.toNat := lookup_get h key
  unfold compareExchangeMeta BlobMap.compareExchangeMeta
  dsimp only
  rw [hget]
  split_ifs with hne hmax
  · rintro _ _ ⟨⟩
    exact ⟨h, rfl⟩
  · rintro _ _ ⟨⟩
    exact ⟨h, rfl⟩
  cases hl : m.index.get key.word with
  | none =>
    cases new with
    | none =>
      rintro _ _ ⟨⟩
      exact ⟨h, rfl⟩
    | some n =>
      rintro _ _ ⟨⟩
      exact ⟨h, rfl⟩
  | some raw =>
    cases new with
    | none =>
      obtain ⟨old, index', hr, hinv, -, hdel⟩ := index_remove h key
      rintro _ _ hm'
      rw [hr] at hm'
      cases hm'
      refine ⟨hinv, ?_⟩
      show (_, (⟨_, _, _⟩ : BlobMap)) = (_, ⟨slots index'.items, _, _⟩)
      rw [hdel]
      rfl
    | some n =>
      dsimp only [Option.map_some]
      split_ifs with ht hzero
      · have hn : n ≤ ARENA_META_MAX := by simpa using hmax
        rw [withArenaMetaMeta_eq ht raw.toNat_lt hn]
        rintro _ _ hm'
        cases hi : m.index.insert key.word (.ofNat (arenaWord n (arenaMetaLocator raw.toNat))) with
        | error f =>
          simp only [hi] at hm'
          cases hm'
        | ok r =>
          obtain ⟨old, index'⟩ := r
          simp only [hi] at hm'
          cases hm'
          obtain ⟨o, ho, hr⟩ := ExpanseMap.insert_ok hi
          obtain ⟨k, hins, hk⟩ := insertInner_of_ok h (toNat_lt key.word) not_splitsAt_zero Edge.admits_zero
            (by simp) ho
          rw [word_toNat] at hk
          obtain rfl := hk hst
          rw [← hr]
          refine ⟨hins.inv, ?_⟩
          have hput := slots_put h.sorted hins.inv.sorted (arenaWord_lt hn arenaMetaLocator_lt) hins.content
          show (_, (⟨_, _, _⟩ : BlobMap)) = (_, ⟨slots o.store.items, _, _⟩)
          rw [hput]
          rfl
      · rintro _ _ ⟨⟩
        exact ⟨h, rfl⟩
      · rintro _ _ ⟨⟩
        exact ⟨h, rfl⟩

theorem step_follows (h : IndexInv m.index) (op : BlobMap.Op) (hst : ¬ StaleOp m op) :
    Follows (m.step op) (m.flat.step op) := by
  -- the answer is only wrapped
  have hwrap : ∀ {α : Type} {r : Called α} {ref : α × BlobMap} (g : α → BlobMap.Out), Follows r ref →
      Follows (r.map fun x => (g x.1, x.2)) (g ref.1, ref.2) := by
    intro α r ref g hr out m' hm'
    cases hx : r with
    | error f =>
      rw [hx] at hm'
      cases hm'
    | ok x =>
      rw [hx] at hm'
      cases hm'
      obtain ⟨hinv, href⟩ := hr x.1 x.2 hx
      exact ⟨hinv, by rw [href]⟩
  cases op with
  | get key =>
    rintro _ _ ⟨⟩
    exact ⟨h, by rw [get_eq h]; rfl⟩
  | insert heap key data hotMeta => exact hwrap _ (insert_follows heap key data hotMeta h hst)
  | remove key => exact hwrap _ (remove_follows h key)
  | compareExchange heap key expected new => exact hwrap _ (compareExchange_follows h hst)
  | compareExchangeMeta key expected new => exact hwrap _ (compareExchangeMeta_follows h hst)
  | compact heap =>
    refine hwrap _ fun out m' hr => ?_
    obtain ⟨hinv, href, -⟩ := compact_follows heap h hst out m' hr
    exact ⟨hinv, href⟩
  | clear =>
    rintro _ _ ⟨⟩
    exact ⟨inv_clear.1, rfl⟩
  | setReclaimAtCap on =>
    rintro _ _ ⟨⟩
    exact ⟨h, rfl⟩

/-- No call of a run meets a stale hit. -/
def UnstaleCalls (m : ExpanseBlobMap) (ops : List BlobMap.Op) : Prop :=
  Along step (fun m op => ¬ StaleOp m op) m ops

instance (m : ExpanseBlobMap) (ops : List BlobMap.Op) : Decidable (UnstaleCalls m ops) :=
  inferInstanceAs (Decidable (Along _ _ _ _))

theorem steps_flat {m₀ : ExpanseBlobMap} {ops : List BlobMap.Op} {outs : List BlobMap.Out}
    (h : IndexInv m₀.index) (hst : UnstaleCalls m₀ ops) (hr : run step m₀ ops = .ok (outs, m)) :
    IndexInv m.index ∧ m.flat = (refRun BlobMap.step m₀.flat ops).2 ∧
      outs = (refRun BlobMap.step m₀.flat ops).1 := by
  have hsim : (refRun BlobMap.step m₀.flat ops).1 = outs ∧ IndexInv m.index ∧
      m.flat = (refRun BlobMap.step m₀.flat ops).2 := by
    refine run_simulates (R := fun (m : ExpanseBlobMap) (b : BlobMap) => IndexInv m.index ∧ m.flat = b)
      (fun m b op out m' hI hst hs => ?_) ⟨h, rfl⟩ hst hr
    obtain ⟨hinv, rfl⟩ := hI
    obtain ⟨hinv', href⟩ := step_follows hinv op hst out m' hs
    rw [href]
    exact ⟨rfl, hinv', rfl⟩
  exact ⟨hsim.2.1, hsim.2.2, hsim.1.symm⟩

end ExpanseBlobMap

end Expanse.Blob
