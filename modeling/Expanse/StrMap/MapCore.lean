import Expanse.Store.Pathless
import Expanse.StrMap.WalkSpec
import Expanse.StrMap.Tidy

/-!
# String maps over the map core

The word map of a string map is the 64-bit engine without a path. It keeps the contract
of `WordMap.Correct`, so that what holds over any correct word map holds of the string
maps as they are: the cursors stream their entries in order, and the trie is tidy.
-/

namespace Expanse.StrMap

open SortedAssoc Store Runs

/-- `MapCore`. -/
def mapCore : WordMap where
  Map := Store ℕ
  Slot := Addr
  Cursor := RawCursor ℕ
  new := Store.new
  get := find
  insert := insertPathless
  insSlot := insSlotPathless
  remove := removePathless
  getSlotPtr := getSlotPtr
  readSlot m a := (m.entryAt a).map Prod.snd
  writeSlot := writeAt
  len := len
  nextAtOrAfter := nextAtOrAfter
  prevAtOrBefore := prevAtOrBefore
  iter := iter
  rootIsTree := rootIsTree
  emptyCursor := ⟨Iter.new, .null, none⟩
  resetRawCursor m _ start := m.resetRawCursor start
  cursorNext c := c.next .map
  bytes := bytes

section

variable {m : Store ℕ} {k : ℕ} {v : ℕ}

theorem lookup_eq (h : Pathless m) {old : Option ℕ} (ho : ∀ v, old = some v ↔ (k, v) ∈ m.items) :
    old = m.items.lookup k := by
  apply Option.ext
  intro v
  rw [ho, lookup_eq_some_iff h.inv.sorted]

theorem entryAt_lookup (h : Pathless m) (hk : k < WORD) {a : Addr} (ha : m.getSlotPtr k = some a) :
    ∃ v, m.entryAt a = some (k, v) ∧ m.items.lookup k = some v := by
  cases hl : m.items.lookup k with
  | none =>
    rw [getSlotPtr_of_not_mem h.inv hk] at ha
    · cases ha
    · intro v hv
      rw [(lookup_eq_some_iff h.inv.sorted).mpr hv] at hl
      cases hl
  | some v =>
    obtain ⟨a', ha', hat⟩ := getSlotPtr_of_mem h.inv hk ((lookup_eq_some_iff h.inv.sorted).mp hl)
    rw [ha] at ha'
    cases ha'
    exact ⟨v, hat, rfl⟩

theorem items_of_updated {m' : Store ℕ} (h : Pathless m) (h' : Pathless m')
    (hu : Updated k v m.items m'.items) : m'.items = put k v m.items :=
  h'.inv.sorted.ext (h.inv.sorted.put k v) fun x w =>
    (hu x w).trans (updated_put h.inv.sorted k v x w).symm

end

def mapCoreCorrect : mapCore.Correct where
  Ok (m : Store ℕ) := Pathless m
  entries (m : Store ℕ) := m.items
  At (c : RawCursor ℕ) l := ∃ all, RawCursor.At .map all l c
  new_ok := ⟨inv_new, rfl⟩
  entries_new := rfl
  sorted h := h.inv.sorted
  lt_word h he := h.inv.bound he
  get_eq h hk := lookup_eq h fun v => find_spec h.inv hk
  insert_ok h hk heq := by
    obtain ⟨hp, hu, ho⟩ := insertPathless_of_ok h hk heq
    exact ⟨hp, items_of_updated h hp hu, lookup_eq h ho⟩
  insSlot_ok {m k a m'} h hk heq := by
    obtain ⟨old, hp, hu, ho, hat⟩ := insSlotPathless_of_ok h hk heq
    rw [lookup_eq h ho] at hu hat
    refine ⟨hp, items_of_updated h hp hu, ?_⟩
    -- the address handed out is the one a lookup finds
    have hm : (k, ((Store.items m).lookup k).getD 0) ∈ Store.items m' :=
      (hu _ _).mpr (.inl ⟨rfl, rfl⟩)
    obtain ⟨a', ha', hat'⟩ := getSlotPtr_of_mem hp.inv hk hm
    rw [entryAt_inj hp.inv hat hat']
    exact ha'
  remove_ok {m k} h hk := by
    obtain ⟨old, m', hr, hp, he, ho⟩ := removePathless_spec h hk
    refine ⟨m', by rw [← lookup_eq h ho]; exact hr, hp, ?_⟩
    refine hp.inv.sorted.ext (h.inv.sorted.del k) fun x w => (he x w).trans ?_
    rw [del, List.mem_filter, decide_eq_true_iff, and_comm]
  getSlotPtr_isSome {m k} h hk := by
    cases ha : Store.getSlotPtr m k with
    | some a =>
      obtain ⟨v, -, hl⟩ := entryAt_lookup h hk ha
      rw [hl]
      exact congrArg Option.isSome ha
    | none =>
      cases hl : (Store.items m).lookup k with
      | none => exact congrArg Option.isSome ha
      | some v =>
        obtain ⟨a, ha', -⟩ := getSlotPtr_of_mem h.inv hk ((lookup_eq_some_iff h.inv.sorted).mp hl)
        rw [ha] at ha'
        cases ha'
  readSlot_eq h hk hs := by
    obtain ⟨v, hat, hl⟩ := entryAt_lookup h hk hs
    rw [hl]
    simp only [mapCore, hat, Option.map_some]
  writeSlot_ok v h hk hs := by
    obtain ⟨w, hat, -⟩ := entryAt_lookup h hk hs
    obtain ⟨hp, hu⟩ := h.writeAt hat v
    exact ⟨hp, items_of_updated h hp hu⟩
  len_eq h := Store.len_eq h.inv
  nextAtOrAfter_eq h hk := (nextAtOrAfter_eq h hk).trans (List.head?_filter ..).symm
  prevAtOrBefore_eq h hk := (prevAtOrBefore_eq h hk).trans (by
    rw [List.getLast?_eq_head?_reverse, ← List.filter_reverse, List.head?_filter])
  iter_eq h := iter_eq h
  reset_ok _ h hk := by
    obtain ⟨c, hc, hat⟩ := resetRawCursor_spec h hk
    exact ⟨c, hc, _, hat⟩
  next_ok h := by
    obtain ⟨all, hat⟩ := h
    obtain ⟨c', hn, hat'⟩ := RawCursor.next_spec (fun hc => by cases hc) hat
    exact ⟨c', hn, all, hat'⟩
  bytes_empty h he := bytes_of_empty h he

variable {P : Placement} {s : ExpanseStrMap mapCore}

/-- In every reachable string map the cursors stream the stored entries in ascending order:
all of them, those at or after a key, and those under a common start. -/
theorem cursors_stream_entries (h : s.Reachable P) : ∃ l, Lists s l ∧ CursorsStream s l := by
  obtain ⟨kids, hrep⟩ := h.rep (C := mapCoreCorrect)
  exact ⟨entries kids, hrep.lists, hrep.cursorsStream⟩

/-- A key, its first nine bytes, and a run that stores both. -/
theorem reachable_split : ∃ s : ExpanseStrMap mapCore, s.Reachable Placement.above ∧ s.len = 2 := by
  obtain ⟨s₁, h₁⟩ : ∃ s₁, ExpanseStrMap.step (M := mapCore) Placement.above ExpanseStrMap.new
      (.insert ⟨[1, 2, 3, 4, 5, 6, 7, 8, 9, 10], by decide⟩ 5) = .ok (.value none, s₁) := ⟨_, rfl⟩
  obtain ⟨s₂, h₂, hlen⟩ : ∃ s₂, ExpanseStrMap.step Placement.above s₁
      (.insert ⟨[1, 2, 3, 4, 5, 6, 7, 8, 9], by decide⟩ 6) = .ok (.value none, s₂) ∧ s₂.len = 2 := by
    cases h₁
    exact ⟨_, rfl, rfl⟩
  exact ⟨s₂, .step (.step .new h₁) h₂, hlen⟩

theorem cursors_stream_entries_split : ∃ (s : ExpanseStrMap mapCore) (l : List (List ℕ × ℕ)),
    s.len = 2 ∧ Lists s l ∧ CursorsStream s l := by
  obtain ⟨s, hs, hlen⟩ := reachable_split
  obtain ⟨l, hl, hc⟩ := cursors_stream_entries hs
  exact ⟨s, l, hlen, hl, hc⟩

/-- Every reachable string map is tidy, and removing all of its keys, in any order and with
any others, gives back every node, every suffix and all of its memory. -/
theorem tidy_and_drains (h : s.Reachable P) :
    Tidy mapCoreCorrect s ∧ ∀ ks : List NulFreeStr, (∀ key v, s.get key = .ok (some v) → key ∈ ks) →
      ∃ outs s', run (ExpanseStrMap.step P) s (ks.map .remove) = .ok (outs, s') ∧
        s'.root = none ∧ s'.len = 0 ∧ (∀ q, q ∉ s'.alloc.cells) ∧ s'.memUsed = 0 := by
  obtain ⟨kids, hrep⟩ := h.rep (C := mapCoreCorrect)
  exact ⟨hrep.tidy, fun ks hall => hrep.drains P hall⟩

theorem tidy_and_drains_split : ∃ s : ExpanseStrMap mapCore, s.len = 2 ∧ Tidy mapCoreCorrect s := by
  obtain ⟨s, hs, hlen⟩ := reachable_split
  exact ⟨s, hlen, (tidy_and_drains hs).1⟩

end Expanse.StrMap
