import Expanse.Engine.BuildSpec
import Expanse.Store.Cursors
import Expanse.Store.Validate

/-!
# Bulk building and compaction

`from_sorted_iter` collects its input, sorts and deduplicates it unless it already
ascends, and builds the container bottom-up; `compact` does the same with the keys
that the iterator of the container hands out. What is built is the container that
inserting the items one by one leaves. A set whose last word lies in a full expanse
cannot be compacted: its iterator overflows.
-/

namespace Expanse

open Radix SortedAssoc Grouping Edge Runs

namespace Store

variable {V : Type}

/-- `from_sorted_keys_dispatch` and `from_sorted_entries_dispatch`. -/
def fromSortedDispatch (build : List (ℕ × V) → Except Fault (Edge V)) (l : List (ℕ × V)) :
    Except Fault (Store V) :=
  if l.length = 0 then .ok new
  else if l.length ≤ ROOT_LEAF_CAP then .ok ⟨.leaf (Columns.ofEntries l), 0, none⟩
  else
    match build l with
    | .ok top => .ok ⟨.tree top, l.length, none⟩
    | .error f => .error f

/-- The input of `from_sorted_iter` as the builder takes it. -/
def normalise (l : List (ℕ × V)) : List (ℕ × V) :=
  if ascending (l.map Prod.fst) then l else sortDedup l

variable [Inhabited V]

/-- Collect an iterator over all entries; its length bounds the calls that hand out one. -/
def collectIter {State α : Type} (next : State → Except Fault (Option α × State)) (s : Store V)
    (it : Except Fault State) : Except Fault (List α) :=
  match it with
  | .ok it => drain .fuel next (s.len + 1) it
  | .error f => .error f

variable {fl : Flavour} {lo : ℕ → ℕ → ℕ} {s t : Store V} {l : List (ℕ × V)}

omit [Inhabited V] in
theorem pairwise_of_ascending {keys : List ℕ} (h : ascending keys = true) : keys.Pairwise (· < ·) := by
  induction keys with
  | nil => exact .nil
  | cons x xs ih =>
    cases xs with
    | nil => exact List.pairwise_singleton _ _
    | cons y ys =>
      simp only [ascending, List.tail_cons, List.zip_cons_cons, List.all_cons, Bool.and_eq_true,
        decide_eq_true_eq] at h ih
      have hy := ih h.2
      refine List.pairwise_cons.mpr ⟨?_, hy⟩
      intro z hz
      rcases List.mem_cons.mp hz with rfl | hz
      · exact h.1
      · exact lt_trans h.1 ((List.pairwise_cons.mp hy).1 z hz)

omit [Inhabited V] in
theorem normalise_spec (l : List (ℕ × V)) :
    KeySorted (normalise l) ∧ ∀ k v, (k, v) ∈ normalise l ↔ lastValue l k = some v := by
  unfold normalise
  split_ifs with ha
  · have hs : KeySorted l := keySorted_iff.mpr (pairwise_of_ascending ha)
    exact ⟨hs, fun k v => (lastValue_of_sorted hs k v).symm⟩
  · exact sortDedup_spec l

theorem fromSortedDispatch_spec {build : List (ℕ × V) → Except Fault (Edge V)}
    (hbuild : ∀ l, Group 8 l → ∃ e, build l = .ok e ∧ Built fl lo 8 l e) (hs : KeySorted l)
    (hb : ∀ e ∈ l, e.1 < 256 ^ 8) :
    ∃ s, fromSortedDispatch build l = .ok s ∧ Inv fl lo s ∧ s.items = l := by
  unfold fromSortedDispatch
  split_ifs with h0 hcap
  · exact ⟨new, rfl, inv_new, (List.length_eq_zero_iff.mp h0).symm⟩
  · refine ⟨_, rfl, ⟨.ofEntries hs fun k v hm => hb _ hm, ?_, ?_, rfl⟩, Columns.entries_ofEntries l⟩
    · rw [size_ofEntries]
      omega
    · rwa [size_ofEntries]
  · have hne : l ≠ [] := fun hnil => h0 (by rw [hnil]; rfl)
    have hgroup : Group 8 l := by
      refine ⟨hne, hs, fun e he => ?_⟩
      obtain ⟨x, hx, hfirst⟩ := List.mem_map.mp (firstKey_mem hne)
      rw [← hfirst, Nat.div_eq_of_lt (hb e he), Nat.div_eq_of_lt (hb x hx)]
    have hsuffix : suffix 8 l = l := by
      rw [suffix, List.map_congr_left (g := id) fun e he => by rw [low_of_lt (hb e he)]; rfl,
        List.map_id]
    obtain ⟨top, htop, hbuilt⟩ := hbuild l hgroup
    have hent : entries 8 top = l := by rw [hbuilt.content, hsuffix]
    refine ⟨⟨.tree top, l.length, none⟩, by simp only [htop], ?_, hent⟩
    exact TreeInv.of_wf hbuilt.wf (by rw [hent]) (by rw [hent]; omega) (by simp) (by simp)

theorem items_ext (hs : Inv fl lo s) {lo' : ℕ → ℕ → ℕ} (ht : Inv fl lo' t)
    (h : ∀ k v, k < 256 ^ 8 → ((k, v) ∈ s.items ↔ (k, v) ∈ t.items)) : s.items = t.items := by
  refine hs.sorted.ext ht.sorted fun k v => ⟨fun hm => ?_, fun hm => ?_⟩
  · exact (h k v (hs.bound hm)).mp hm
  · exact (h k v (ht.bound hm)).mpr hm

section Drain

variable (hV : fl = .set → ∀ v : V, v = default)

include hV

theorem collectIter_ok (h : Inv fl lo s) (hf : s.lastWordFull = false) :
    collectIter (Iter.next fl) s (s.iterFwdRaw fl) = .ok s.items := by
  have hseed := iterFwdRaw_spec hV h
  have hdraw := hseed.draw_ok hV hf (s.len + 1)
  obtain ⟨it, hit, -⟩ := hseed
  rw [hit] at hdraw ⊢
  exact drain_of_calls _ hdraw (by rw [len_eq h]; omega)

theorem collectIter_overflow (h : Inv fl lo s) (hf : s.lastWordFull = true) :
    collectIter (Iter.next fl) s (s.iterFwdRaw fl) = .error .overflow := by
  obtain ⟨it, hit, hw, hleft⟩ := iterFwdRaw_spec hV h
  rw [hit, collectIter]
  rw [hf] at hw
  refine drain_fault_at _ (Iter.left .forward) (fun x => x.1 = 256 ^ 8 - 1) ?_ ?_ hw
    (x := (256 ^ 8 - 1, default)) ?_ rfl ?_
  · intro it hw hb
    refine Iter.nextBy_spec hV hw (fun _ _ x xs hl => ?_) 7
    exact hb x (by rw [hl]; rfl)
  · intro it x hw hx hb
    obtain ⟨xs, hl⟩ := List.head?_eq_some_iff.mp hx
    exact Iter.nextBy_overflow hV hw hl hb 7
  · rw [hleft]
    exact (mem_of_lastWordFull h hf).2
  · rw [hleft, len_eq h]
    omega

end Drain

end Store

open Store

namespace ExpanseSet

/-- `from_sorted_keys`. -/
def fromSortedKeys (keys : List ℕ) : Except Fault ExpanseSet :=
  fromSortedDispatch (fun l => buildSubtree FUEL l 8) (keys.map fun k => (k, ()))

/-- `from_sorted_iter`. -/
def fromSortedIter (keys : List UInt64) : Except Fault ExpanseSet :=
  fromSortedKeys ((normalise (keys.map fun k => (k.toNat, ()))).map Prod.fst)

def compact (s : ExpanseSet) : Except Fault ExpanseSet :=
  match collectIter SetIter.next s s.iter with
  | .ok keys => fromSortedKeys keys
  | .error f => .error f

variable {s : ExpanseSet}

theorem map_unit (l : List (ℕ × Unit)) : (l.map Prod.fst).map (fun k => (k, ())) = l := by
  rw [List.map_map]
  exact List.map_id l

theorem fromSortedKeys_spec {l : List (ℕ × Unit)} (hs : KeySorted l) (hb : ∀ e ∈ l, e.1 < 256 ^ 8) :
    ∃ s, fromSortedKeys (l.map Prod.fst) = .ok s ∧ Inv .set (Edge.floor .set) s ∧ s.items = l := by
  unfold fromSortedKeys
  rw [map_unit]
  exact fromSortedDispatch_spec (fun l hl => buildSubtree_spec (fun _ _ => le_rfl) (fun _ => rfl) hl
    (by decide) le_rfl (by decide)) hs hb

theorem fromSortedIter_spec (keys : List UInt64) :
    ∃ s, fromSortedIter keys = .ok s ∧ Inv .set (Edge.floor .set) s ∧ Holds s keys.toFinset := by
  obtain ⟨hs, hm⟩ := normalise_spec (keys.map fun k => (k.toNat, ()))
  have hmem : ∀ k, (k, ()) ∈ normalise (keys.map fun k => (k.toNat, ())) ↔
      ∃ w ∈ keys, w.toNat = k := by
    intro k
    rw [hm, lastValue]
    constructor
    · intro h
      obtain ⟨e, he, -⟩ := Option.map_eq_some_iff.mp h
      obtain ⟨h1, h2⟩ := List.mem_filter.mp (List.mem_of_mem_getLast? he)
      obtain ⟨w, hw, rfl⟩ := List.mem_map.mp h1
      exact ⟨w, hw, by simpa using h2⟩
    · rintro ⟨w, hw, rfl⟩
      rw [Option.map_eq_some_iff]
      have hne : (keys.map fun k => (k.toNat, ())).filter (fun e => e.1 = w.toNat) ≠ [] :=
        List.ne_nil_of_mem (List.mem_filter.mpr ⟨List.mem_map.mpr ⟨w, hw, rfl⟩, by simp⟩)
      exact ⟨_, List.getLast?_eq_some_getLast hne, rfl⟩
  obtain ⟨s, hs', hinv, hitems⟩ := fromSortedKeys_spec hs (by
    rintro ⟨k, ⟨⟩⟩ hk
    obtain ⟨w, -, rfl⟩ := (hmem k).mp hk
    exact toNat_lt w)
  refine ⟨s, hs', hinv, fun k => ?_⟩
  rw [hitems, hmem, List.mem_toFinset]
  constructor
  · exact fun hk => ⟨k, hk, rfl⟩
  · rintro ⟨w, hw, hwk⟩
    rwa [← UInt64.toNat_inj.mp hwk]

theorem refRun_inserts (keys : List UInt64) (S : Finset UInt64) :
    (refRun refStep S (keys.map .insert)).2 = S ∪ keys.toFinset := by
  induction keys generalizing S with
  | nil => simp [refRun]
  | cons k keys ih =>
    rw [List.map_cons, refRun, refStep, ih, List.toFinset_cons, Finset.insert_union,
      Finset.union_insert]

theorem run_inserts (keys : List UInt64) {lo : ℕ → ℕ → ℕ} (hinv : Inv .set lo s)
    (hS : Holds s keys.toFinset)
    (h : Along step (fun s op => ¬ StaleOp s op) Store.new (keys.map .insert)) :
    ∃ outs t, run step Store.new (keys.map .insert) = .ok (outs, t) ∧ t.items = s.items ∧
      t.len = s.len := by
  obtain ⟨t, hr, ht, hT⟩ := run_refines (R := fun s S => Inv .set (fun _ _ => 0) s ∧ Holds s S)
    (fun s S op hs hst => step_refines hs.1 hs.2 op hst (cleanOp_zero s op) admits_zero
      admitsNarrow_zero) ⟨inv_new, holds_new⟩ h
  rw [refRun_inserts, Finset.empty_union] at hT
  have hitems : t.items = s.items := items_ext ht hinv fun k v hk => by
    obtain ⟨w, rfl⟩ := exists_word hk
    exact (hT w).symm.trans (hS w)
  exact ⟨_, t, hr, hitems, by rw [len_eq ht, len_eq hinv, hitems]⟩

theorem collect_keys (s : ExpanseSet) :
    collectIter SetIter.next s s.iter = (collectIter (Iter.next .set) s s.iter).map
      (List.map Prod.fst) := by
  unfold collectIter
  cases s.iter with
  | error f => rfl
  | ok it => exact drain_map _ _ _ _

theorem compact_overflow {lo : ℕ → ℕ → ℕ} (h : Inv .set lo s) (hf : s.lastWordFull = true) :
    s.compact = .error .overflow := by
  have hover := collectIter_overflow (fun _ _ => rfl) h hf
  change collectIter (Iter.next .set) s s.iter = _ at hover
  rw [compact, collect_keys, hover]
  rfl

theorem compact_iff {lo : ℕ → ℕ → ℕ} (h : Inv .set lo s) :
    (∃ s', s.compact = .ok s' ∧ s'.items = s.items ∧ Valid .set s') ↔ s.lastWordFull = false := by
  constructor
  · rintro ⟨s', hs', -⟩
    by_contra hf
    rw [Bool.not_eq_false] at hf
    rw [compact_overflow h hf] at hs'
    cases hs'
  · intro hf
    have hok := collectIter_ok (fun _ _ => rfl) h hf
    change collectIter (Iter.next .set) s s.iter = _ at hok
    obtain ⟨s', hs', hinv, hitems⟩ := fromSortedKeys_spec h.sorted fun e he => h.bound (v := e.2) he
    refine ⟨s', ?_, hitems, valid_of_inv hinv⟩
    rw [compact, collect_keys, hok]
    exact hs'

end ExpanseSet

namespace ExpanseMap

/-- `from_sorted_entries`. -/
def fromSortedEntries (l : List (ℕ × UInt64)) : Except Fault ExpanseMap :=
  fromSortedDispatch (fun l => buildMapSubtree FUEL l 8) l

/-- `from_sorted_iter`. -/
def fromSortedIter (items : List (UInt64 × UInt64)) : Except Fault ExpanseMap :=
  fromSortedEntries (normalise (items.map fun e => (e.1.toNat, e.2)))

/-- `iter`, whose entries `compact` collects. -/
def iter (s : ExpanseMap) : Except Fault (Iter UInt64) := s.iterFwdRaw .map

def compact (s : ExpanseMap) : Except Fault ExpanseMap :=
  match collectIter (Iter.next .map) s s.iter with
  | .ok l => fromSortedEntries l
  | .error f => .error f

/-- The value that the last entry of a key in the input has. -/
def lastBinding (items : List (UInt64 × UInt64)) (k : UInt64) : Option UInt64 :=
  lastValue (items.map fun e => (e.1.toNat, e.2)) k.toNat

variable {s : ExpanseMap}

theorem fromSortedEntries_spec {l : List (ℕ × UInt64)} (hs : KeySorted l)
    (hb : ∀ e ∈ l, e.1 < 256 ^ 8) :
    ∃ s, fromSortedEntries l = .ok s ∧ Inv .map (Edge.floor .map) s ∧ s.items = l :=
  fromSortedDispatch_spec (fun l hl => buildMapSubtree_spec (fun _ _ => le_rfl) hl (by decide) le_rfl
    (by decide)) hs hb

theorem fromSortedIter_spec (items : List (UInt64 × UInt64)) :
    ∃ s, fromSortedIter items = .ok s ∧ Inv .map (Edge.floor .map) s ∧
      Holds s (lastBinding items) := by
  obtain ⟨hs, hm⟩ := normalise_spec (items.map fun e => (e.1.toNat, e.2))
  obtain ⟨s, hs', hinv, hitems⟩ := fromSortedEntries_spec hs (by
    rintro ⟨k, v⟩ hk
    rw [hm, lastValue] at hk
    obtain ⟨e, he, -⟩ := Option.map_eq_some_iff.mp hk
    obtain ⟨h1, h2⟩ := List.mem_filter.mp (List.mem_of_mem_getLast? he)
    obtain ⟨w, hw, rfl⟩ := List.mem_map.mp h1
    simp only [decide_eq_true_eq] at h2
    rw [← h2]
    exact toNat_lt w.1)
  refine ⟨s, hs', hinv, fun k v => ?_⟩
  rw [hitems, hm, lastBinding]

theorem refRun_inserts (items : List (UInt64 × UInt64)) (m : UInt64 → Option UInt64) (k : UInt64) :
    (refRun refStep m (items.map fun e => .insert e.1 e.2)).2 k = (lastBinding items k).or (m k) := by
  induction items generalizing m with
  | nil => simp [refRun, lastBinding, lastValue]
  | cons e items ih =>
    rw [List.map_cons, refRun, refStep, ih, lastBinding, lastBinding, List.map_cons, lastValue_cons]
    cases lastValue (items.map fun e => (e.1.toNat, e.2)) k.toNat with
    | some v => rfl
    | none =>
      by_cases hk : k = e.1
      · subst hk
        simp
      · have hne : e.1.toNat ≠ k.toNat := fun he => hk (UInt64.toNat_inj.mp he).symm
        simp [Function.update_of_ne hk, hne]

theorem run_inserts (items : List (UInt64 × UInt64)) {lo : ℕ → ℕ → ℕ} (hinv : Inv .map lo s)
    (hS : Holds s (lastBinding items)) (h : Along step (fun s op => ¬ FaultyOp s op) Store.new
      (items.map fun e => .insert e.1 e.2)) :
    ∃ outs t, run step Store.new (items.map fun e => .insert e.1 e.2) = .ok (outs, t) ∧
      t.items = s.items ∧ t.len = s.len := by
  obtain ⟨t, hr, ht, hT⟩ := run_refines (R := fun s m => Inv .map (fun _ _ => 0) s ∧ Holds s m)
    (fun s m op hs hf => step_refines hs.1 hs.2 op hf) ⟨inv_new, holds_new⟩ h
  have hitems : t.items = s.items := items_ext ht hinv fun k v hk => by
    obtain ⟨w, rfl⟩ := ExpanseSet.exists_word hk
    rw [← hT w v, ← hS w v, refRun_inserts, Option.or_none]
  exact ⟨_, t, hr, hitems, by rw [len_eq ht, len_eq hinv, hitems]⟩

/-- The entries are as many as the distinct keys of the input. -/
theorem Holds.len_eq_card {items : List (UInt64 × UInt64)} {lo : ℕ → ℕ → ℕ} (h : Inv .map lo s)
    (hS : Holds s (lastBinding items)) : s.len = (items.map Prod.fst).toFinset.card := by
  have hinj : Function.Injective UInt64.toNat := fun a b hab => UInt64.toNat_inj.mp hab
  rw [len_eq h, h.sorted.length_eq_card, ← Finset.card_image_of_injective _ hinj]
  congr 1
  ext k
  simp only [List.mem_toFinset, List.mem_map, Finset.mem_image, Prod.exists, exists_and_right,
    exists_eq_right]
  constructor
  · rintro ⟨v, hm⟩
    obtain ⟨w, rfl⟩ := ExpanseSet.exists_word (h.bound hm)
    have hlast := (hS w v).mpr hm
    rw [lastBinding, lastValue] at hlast
    obtain ⟨e, he, -⟩ := Option.map_eq_some_iff.mp hlast
    obtain ⟨h1, h2⟩ := List.mem_filter.mp (List.mem_of_mem_getLast? he)
    obtain ⟨x, hx, rfl⟩ := List.mem_map.mp h1
    simp only [decide_eq_true_eq] at h2
    exact ⟨x.1, ⟨x.2, hx⟩, h2⟩
  · rintro ⟨w, ⟨v, hw⟩, rfl⟩
    have hne : (items.map fun e => (e.1.toNat, e.2)).filter (fun e => e.1 = w.toNat) ≠ [] :=
      List.ne_nil_of_mem (List.mem_filter.mpr ⟨List.mem_map.mpr ⟨(w, v), hw, rfl⟩, by simp⟩)
    obtain ⟨u, hu⟩ : ∃ u, lastBinding items w = some u := by
      rw [lastBinding, lastValue, List.getLast?_eq_some_getLast hne]
      exact ⟨_, rfl⟩
    exact ⟨u, (hS w u).mp hu⟩

theorem compact_spec {lo : ℕ → ℕ → ℕ} (h : Inv .map lo s) :
    ∃ s', s.compact = .ok s' ∧ s'.items = s.items ∧ Valid .map s' := by
  have hok := collectIter_ok MapRangeCursor.noSet h (lastWordFull_map h)
  change collectIter (Iter.next .map) s s.iter = _ at hok
  obtain ⟨s', hs', hinv, hitems⟩ := fromSortedEntries_spec h.sorted fun e he => h.bound (v := e.2) he
  refine ⟨s', ?_, hitems, valid_of_inv hinv⟩
  rw [compact, hok]
  exact hs'

end ExpanseMap

/-- What the bulk builders return: a valid container with the items of the input, the last value of
each key, one entry for each distinct key; inserting the items one by one gives the same container if
no insert goes through a stale path. Compaction keeps every entry of a map, and of a set exactly where
the last word is not stored in a full expanse. -/
theorem bulk_builds (keys : List UInt64) (items : List (UInt64 × UInt64)) (s : ExpanseSet)
    (hs : ExpanseSet.Reachable s) (m : ExpanseMap) (hm : ExpanseMap.Reachable m) :
    (∃ s, ExpanseSet.fromSortedIter keys = .ok s ∧ Valid .set s ∧
      ExpanseSet.Holds s keys.toFinset ∧ s.len = keys.toFinset.card ∧
      (Along ExpanseSet.step (fun s op => ¬ ExpanseSet.StaleOp s op) Store.new (keys.map .insert) →
        ∃ outs t, run ExpanseSet.step Store.new (keys.map .insert) = .ok (outs, t) ∧
          t.items = s.items ∧ t.len = s.len)) ∧
    (∃ m, ExpanseMap.fromSortedIter items = .ok m ∧ Valid .map m ∧
      ExpanseMap.Holds m (ExpanseMap.lastBinding items) ∧
      m.len = (items.map Prod.fst).toFinset.card ∧
      (Along ExpanseMap.step (fun m op => ¬ ExpanseMap.FaultyOp m op) Store.new
          (items.map fun e => .insert e.1 e.2) →
        ∃ outs t, run ExpanseMap.step Store.new (items.map fun e => .insert e.1 e.2) = .ok (outs, t) ∧
          t.items = m.items ∧ t.len = m.len)) ∧
    ((∃ s', s.compact = .ok s' ∧ s'.items = s.items ∧ Valid .set s') ↔ s.lastWordFull = false) ∧
    ∃ m', m.compact = .ok m' ∧ m'.items = m.items ∧ Valid .map m' := by
  refine ⟨?_, ?_, ExpanseSet.compact_iff hs.inv, ExpanseMap.compact_spec hm.inv⟩
  · obtain ⟨s, hs, hinv, hS⟩ := ExpanseSet.fromSortedIter_spec keys
    exact ⟨s, hs, valid_of_inv hinv, hS, by rw [len_eq hinv, hS.card hinv],
      ExpanseSet.run_inserts keys hinv hS⟩
  · obtain ⟨m, hm, hinv, hS⟩ := ExpanseMap.fromSortedIter_spec items
    exact ⟨m, hm, valid_of_inv hinv, hS, ExpanseMap.Holds.len_eq_card hinv hS,
      ExpanseMap.run_inserts items hinv hS⟩

/-- Forty words out of order, one of them twice. -/
def shuffled : List UInt64 :=
  9 :: (List.range 40).map fun i => UInt64.ofNat (39 - i)

/-- Shuffled input, and the set and the map after their `warmOps`. -/
theorem bulk_builds_shuffled :
    (∃ s outs t, ExpanseSet.fromSortedIter shuffled = .ok s ∧ Valid .set s ∧ s.len = 40 ∧
      run ExpanseSet.step Store.new (shuffled.map .insert) = .ok (outs, t) ∧ t.items = s.items) ∧
    (∃ m outs t, ExpanseMap.fromSortedIter (shuffled.map fun k => (k, k)) = .ok m ∧ Valid .map m ∧
      run ExpanseMap.step Store.new ((shuffled.map fun k => (k, k)).map fun e => .insert e.1 e.2) =
        .ok (outs, t) ∧ t.items = m.items) ∧
    (∃ s s' : ExpanseSet, ExpanseSet.Reachable s ∧ s.compact = .ok s' ∧ s'.items = s.items) ∧
    ∃ m m' : ExpanseMap, ExpanseMap.Reachable m ∧ m.compact = .ok m' ∧ m'.items = m.items := by
  obtain ⟨s₀, hs₀, -, hf⟩ := ExpanseSet.warmOps_reach
  obtain ⟨m₀, hm₀, -⟩ := ExpanseMap.warmOps_reach
  obtain ⟨⟨s, hs1, hs2, -, hs3, hs4⟩, ⟨m, hm1, hm2, -, -, hm3⟩, hcs, m', hcm, him, -⟩ :=
    bulk_builds shuffled (shuffled.map fun k => (k, k)) s₀ hs₀ m₀ hm₀
  obtain ⟨outs, t, ht, hti, -⟩ := hs4 (by decide +kernel)
  obtain ⟨outs', t', ht', hti', -⟩ := hm3 (by decide +kernel)
  obtain ⟨s', hc, his, -⟩ := hcs.mpr hf
  exact ⟨⟨s, outs, t, hs1, hs2, by rw [hs3]; decide +kernel, ht, hti⟩,
    ⟨m, outs', t', hm1, hm2, ht', hti'⟩, ⟨s₀, s', hs₀, hc, his⟩, m₀, m', hm₀, hcm, him⟩

/-- A set whose last word lies in a full expanse cannot be compacted, and after a cascade an insert
of `0x120` stores another word than the builder does. -/
theorem compact_overflows_past_last_word :
    (¬ ∀ s : ExpanseSet, ExpanseSet.Reachable s → ∃ s', s.compact = .ok s' ∧ s'.items = s.items) ∧
    ¬ ∀ keys : List UInt64, ∃ s outs t, ExpanseSet.fromSortedIter keys = .ok s ∧
      run ExpanseSet.step Store.new (keys.map .insert) = .ok (outs, t) ∧ t.items = s.items := by
  constructor
  · intro h
    obtain ⟨s, hs, -, hf⟩ := ExpanseSet.lastGroup_reach
    obtain ⟨s', hs', -⟩ := h s hs
    rw [ExpanseSet.compact_overflow hs.inv hf] at hs'
    cases hs'
  · intro h
    obtain ⟨s, outs, t, hs, hr, hitems⟩ := h (ExpanseSet.cascadeKeys ++ [0x120])
    have hbuilt : ((ExpanseSet.fromSortedIter (ExpanseSet.cascadeKeys ++ [0x120])).toOption.map
        fun s => decide ((0x120, ()) ∈ s.items)) = some true := by
      decide +kernel
    have hrun : ((run ExpanseSet.step Store.new ((ExpanseSet.cascadeKeys ++ [0x120]).map
        .insert)).toOption.map fun r => decide ((0x120, ()) ∈ r.2.items)) = some false := by
      decide +kernel
    simp only [hs, Except.toOption, Option.map_some, Option.some.injEq] at hbuilt
    simp only [hr, Except.toOption, Option.map_some, Option.some.injEq, hitems, hbuilt] at hrun
    cases hrun

end Expanse
