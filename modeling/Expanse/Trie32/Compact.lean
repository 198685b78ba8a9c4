import Expanse.Trie32.Build
import Expanse.Trie32.Range

/-!
# Bulk loading and compaction of the 32-bit containers

`from_sorted_iter` lays its input out in a new arena, `compact` does the same with the entries that
the iterator of the container hands out, and `clone` inserts those one by one. Entries determine the
tree that each of them leaves: a compacted container costs what insertions of its entries cost, in
any order.
-/

namespace Expanse.Trie32

open Grouping SortedAssoc Trie32.Tree Runs

namespace ExpanseMap32

def fromSortedIter (items : List (ℕ × ℕ)) : Except Fault ExpanseMap32 := do
  let l := Store.normalise items
  let (root, a) ← buildSubtree .map FUEL Arena.new l KEY_BYTES
  pure ⟨a, root, l.length, Finger.new⟩

/-- What `iter` hands out in all. -/
def collect (m : ExpanseMap32) : Except Fault (List (ℕ × ℕ)) :=
  drain .outOfFuel (RangeIter32.next .map m.alloc m.root) (m.len + 1) m.iter

def compact (m : ExpanseMap32) : Except Fault ExpanseMap32 :=
  if m.alloc.deferred then .ok m
  else do
    let l ← m.collect
    let compacted ← fromSortedIter l
    if compacted.liveAllocs = compacted.alloc.allocs then pure compacted else .error .assertion

def extend (m : ExpanseMap32) : List (ℕ × ℕ) → Except Fault ExpanseMap32
  | [] => .ok m
  | (k, v) :: items => do
    let (_, m) ← m.insert k v
    m.extend items

def fromIter (items : List (ℕ × ℕ)) : Except Fault ExpanseMap32 := new.extend items

def clone (m : ExpanseMap32) : Except Fault ExpanseMap32 := do
  let l ← m.collect
  fromIter l

end ExpanseMap32

namespace ExpanseSet32

def keyed (keys : List ℕ) : List (ℕ × ℕ) := keys.map fun k => (k, 0)

def fromSortedIter (keys : List ℕ) : Except Fault ExpanseSet32 := do
  let l := Store.normalise (keyed keys)
  let (root, a) ← buildSubtree .set FUEL Arena.new l KEY_BYTES
  pure ⟨a, root, l.length⟩

/-- What `iter` hands out in all. -/
def collect (s : ExpanseSet32) : Except Fault (List ℕ) :=
  (drain .outOfFuel (RangeIter32.next .set s.alloc s.root) (s.len + 1) s.iter).map (List.map Prod.fst)

def compact (s : ExpanseSet32) : Except Fault ExpanseSet32 :=
  if s.alloc.deferred then .ok s
  else do
    let keys ← s.collect
    let compacted ← fromSortedIter keys
    if compacted.liveAllocs = compacted.alloc.allocs then pure compacted else .error .assertion

def extend (s : ExpanseSet32) : List ℕ → Except Fault ExpanseSet32
  | [] => .ok s
  | k :: keys => do
    let (_, s) ← s.insert k
    s.extend keys

def fromIter (keys : List ℕ) : Except Fault ExpanseSet32 := new.extend keys

def clone (s : ExpanseSet32) : Except Fault ExpanseSet32 := do
  let keys ← s.collect
  fromIter keys

end ExpanseSet32

variable {fl : Flavour} {t t' : Tree} {e : Edge32} {a : Arena} {C : Cells} {l items : List (ℕ × ℕ)} {lo hi : ℕ}

/-- Insert entries in turn. -/
def putAll (l items : List (ℕ × ℕ)) : List (ℕ × ℕ) := items.foldl (fun m e => put e.1 e.2 m) l

theorem putAll_sorted (hs : KeySorted l) (items : List (ℕ × ℕ)) : KeySorted (putAll l items) := by
  induction items generalizing l with
  | nil => exact hs
  | cons e items ih => exact ih (hs.put e.1 e.2)

theorem lookup_putAll (hs : KeySorted l) (items : List (ℕ × ℕ)) (k : ℕ) :
    (putAll l items).lookup k = (lastValue items k).or (l.lookup k) := by
  induction items generalizing l with
  | nil => rfl
  | cons e items ih =>
    have hcons := ih (hs.put e.1 e.2)
    rw [lookup_put hs] at hcons
    rw [lastValue_cons, Option.or_assoc]
    refine hcons.trans (congrArg _ ?_)
    by_cases he : k = e.1
    · rw [if_pos he, if_pos he.symm]
      rfl
    · rw [if_neg he, if_neg fun h => he h.symm]
      rfl

/-- The sorted input, each key with its last value, is what insertions in turn leave. -/
theorem normalise_eq_putAll (items : List (ℕ × ℕ)) : Store.normalise items = putAll [] items := by
  obtain ⟨hs, hm⟩ := Store.normalise_spec items
  refine hs.ext (putAll_sorted .nil items) fun k v => ?_
  rw [hm, ← lookup_eq_some_iff (putAll_sorted .nil items), lookup_putAll .nil, List.lookup_nil, Option.or_none]

theorem putAll_self (hs : KeySorted l) : putAll [] l = l := foldl_put (l := []) hs

/-- Entries that fit a container. -/
def Fitting (fl : Flavour) (items : List (ℕ × ℕ)) : Prop := ∀ e ∈ items, e.1 < 2 ^ 32 ∧ e.2 < 256 ^ valueWidth fl

theorem fitting_entries (h : Ok fl KEY_BYTES t) : Fitting fl (entries KEY_BYTES t) := fun e he => by
  obtain ⟨hk, hv⟩ := h.held.1.fit e he
  exact ⟨lt_of_lt_of_eq hk (by decide), hv⟩

theorem fitting_putAll (hl : Fitting fl l) (hs : KeySorted l) (hi : Fitting fl items) :
    Fitting fl (putAll l items) := by
  induction items generalizing l with
  | nil => exact hl
  | cons e items ih =>
    refine ih (fun x hx => ?_) (hs.put e.1 e.2) fun x hx => hi x (List.mem_cons_of_mem e hx)
    rcases (mem_put hs).mp hx with ⟨h1, h2⟩ | ⟨-, hx⟩
    · rw [h1, h2]
      exact hi e List.mem_cons_self
    · exact hl x hx

/-- Whole keys: nothing is cut off, and they have all bytes above in common. -/
theorem cluster_whole (hs : KeySorted l) (hl : Fitting fl l) :
    Cluster fl KEY_BYTES l ∧ truncated KEY_BYTES l = l := by
  have hb : ∀ e ∈ l, e.1 < 256 ^ KEY_BYTES := fun e he => lt_of_lt_of_eq (hl e he).1 (by decide)
  refine ⟨⟨hs, fun x hx y hy => ?_, fun e he => (hl e he).2⟩, ?_⟩
  · rw [Nat.div_eq_of_lt (hb x hx), Nat.div_eq_of_lt (hb y hy)]
  · rw [truncated]
    refine (List.map_congr_left fun e he => ?_).trans (List.map_id l)
    exact Prod.ext (Radix.low_of_lt (hb e he)) rfl

/-- A new arena takes the tree that the entries grow, and nothing else. -/
theorem build_new (hs : KeySorted l) (hl : Fitting fl l) :
    ∃ e a t C, buildSubtree fl FUEL Arena.new l KEY_BYTES = .ok (e, a) ∧
    Rep fl KEY_BYTES e t C ∧ Owned a C ∧ GrownOf fl KEY_BYTES l t ∧ Plain a ∧ a.liveAllocs = a.allocs := by
  obtain ⟨hc, htrunc⟩ := cluster_whole hs hl
  obtain ⟨e, a, t, C, hr, hrep, ho, ht, hlaid⟩ := @buildSubtree_spec _ _ FUEL _ _ 0 hc plain_new owned_new
    (by decide) (by decide)
  rw [htrunc] at ht
  rw [add_zero] at ho
  refine ⟨e, a, t, C, hr, hrep, ho, ht, hlaid.plain plain_new, ?_⟩
  rw [(hrep.footprint ho).2, hlaid.allocs]
  exact (Nat.zero_add _).symm

/-- A range iterator stands before the entries of its range. -/
theorem open_between {empty : Bool} (he : empty = true → l = []) (hhi : hi ≤ KEY_MAX) :
    Open a fl l ⟨⟨lo, hi, hi < lo || empty⟩, none⟩ (between lo hi l) where
  left := by
    rw [Bounds.left]
    dsimp only
    split_ifs with hd
    · rcases (Bool.or_eq_true _ _).mp hd with hlt | hemp
      · exact between_empty (of_decide_eq_true hlt)
      · rw [he hemp]
        rfl
    · rfl
  fit hd := by
    obtain ⟨h1, -⟩ := (Bool.or_eq_false_iff).mp hd
    exact ⟨not_lt.mp (of_decide_eq_false h1), hhi⟩
  walk _ _ hr := absurd hr (by simp)

theorem between_all (h : Stored a fl KEY_BYTES e t) :
    between 0 KEY_MAX (entries KEY_BYTES t) = entries KEY_BYTES t :=
  List.filter_eq_self.mpr fun x hx => decide_eq_true ⟨Nat.zero_le _, key_le h x hx⟩

/-- Calls at the front alone hand out everything. -/
theorem drain_open (h : Stored a fl KEY_BYTES e t) {it : RangeIter32}
    (ho : Open a fl (entries KEY_BYTES t) it l) {n : ℕ}
    (hn : l.length < n) : drain .outOfFuel (RangeIter32.next fl a e) n it = .ok l := by
  have hdraw : ∀ n, calls (RangeIter32.next fl a e) it n = .ok (drawn l n) := by
    intro n
    induction n generalizing it l with
    | zero => rfl
    | succ n ih =>
      obtain ⟨it', hnext, ho'⟩ := next_open h ho
      rw [calls_succ hnext, drawn_succ]
      cases l with
      | nil =>
        rw [ih ho' (by simpa using hn)]
        rfl
      | cons x xs =>
        rw [ih ho' (Nat.lt_of_succ_lt hn)]
        rfl
  exact drain_of_calls _ (hdraw n) hn

/-- What a map and a set keep alike: the arena stores the tree at the root, and the length counts its
entries. -/
structure Counted (fl : Flavour) (a : Arena) (e : Edge32) (n : ℕ) (t : Tree) (C : Cells) : Prop where
  owned : Owned a C
  rep : Rep fl KEY_BYTES e t C
  ok : Ok fl KEY_BYTES t
  len : n = (entries KEY_BYTES t).length

namespace Counted

variable {a' : Arena} {e' : Edge32} {n n' : ℕ} {C' : Cells}

theorem stored (h : Counted fl a e n t C) : Stored a fl KEY_BYTES e t :=
  ⟨h.ok, C, 0, h.rep, by rw [add_zero]; exact h.owned⟩

theorem open_range (h : Counted fl a e n t C) (hhi : hi ≤ KEY_MAX) :
    Open a fl (entries KEY_BYTES t) ⟨⟨lo, hi, hi < lo || n == 0⟩, none⟩
      (between lo hi (entries KEY_BYTES t)) := by
  refine open_between (fun he => ?_) hhi
  rw [beq_iff_eq, h.len] at he
  exact List.length_eq_zero_iff.mp he

theorem open_iter (h : Counted fl a e n t C) :
    Open a fl (entries KEY_BYTES t) ⟨⟨0, KEY_MAX, n == 0⟩, none⟩ (entries KEY_BYTES t) := by
  have hopen : Open a fl (entries KEY_BYTES t) ⟨⟨0, KEY_MAX, KEY_MAX < 0 || n == 0⟩, none⟩
      (between 0 KEY_MAX (entries KEY_BYTES t)) := h.open_range le_rfl
  rwa [between_all h.stored] at hopen

theorem drains (h : Counted fl a e n t C) :
    drain .outOfFuel (RangeIter32.next fl a e) (n + 1) ⟨⟨0, KEY_MAX, n == 0⟩, none⟩ =
      .ok (entries KEY_BYTES t) :=
  drain_open h.stored h.open_iter (by rw [h.len]; exact Nat.lt_succ_self _)

theorem counters (h : Counted fl a e n t C) : a.bytes = a.slotBytes ∧ a.bytes = t.bytes fl KEY_BYTES ∧
    a.liveAllocs = t.nodes KEY_BYTES ∧ (n = 0 → a.bytes = 0 ∧ a.liveAllocs = 0) := by
  obtain ⟨hb, hn⟩ := h.rep.footprint h.owned
  refine ⟨h.owned.slotBytes.symm, hb, hn, fun hz => ?_⟩
  have hlen := h.len
  rw [hz] at hlen
  obtain rfl := Tree.eq_null h.ok (List.length_eq_zero_iff.mp hlen.symm)
  exact ⟨hb, hn⟩

theorem alike (h : Counted fl a e n t C) (h' : Counted fl a' e' n' t C') :
    (∃ t, Stored a fl KEY_BYTES e t ∧ Stored a' fl KEY_BYTES e' t) ∧
      n = n' ∧ a.bytes = a'.bytes ∧ a.liveAllocs = a'.liveAllocs := by
  obtain ⟨-, hb, hn, -⟩ := h.counters
  obtain ⟨-, hb', hn', -⟩ := h'.counters
  exact ⟨⟨t, h.stored, h'.stored⟩, h.len.trans h'.len.symm, hb.trans hb'.symm, hn.trans hn'.symm⟩

/-- Entries determine the tree of a container that only grew. -/
theorem alike_of_grown (h : Counted fl a e n t C) (h' : Counted fl a' e' n' t' C') (hg : Grown fl KEY_BYTES t)
    (hg' : Grown fl KEY_BYTES t') (he : entries KEY_BYTES t' = entries KEY_BYTES t) :
    (∃ t, Stored a fl KEY_BYTES e t ∧ Stored a' fl KEY_BYTES e' t) ∧
      n = n' ∧ a.bytes = a'.bytes ∧ a.liveAllocs = a'.liveAllocs := by
  obtain rfl := Grown.unique h.ok h'.ok hg hg' he.symm (by decide)
  exact h.alike h'

end Counted

theorem build_counted (hi : Fitting fl items) :
    ∃ e a t C, buildSubtree fl FUEL Arena.new (Store.normalise items) KEY_BYTES = .ok (e, a) ∧
      Counted fl a e (Store.normalise items).length t C ∧ Grown fl KEY_BYTES t ∧
      entries KEY_BYTES t = putAll [] items ∧ Plain a ∧ a.liveAllocs = a.allocs := by
  have hs : KeySorted (putAll [] items) := putAll_sorted .nil items
  obtain ⟨e, a, t, C, hr, hrep, ho, ht, hp, hl⟩ := build_new hs (fitting_putAll (by simp [Fitting]) .nil hi)
  rw [normalise_eq_putAll]
  exact ⟨e, a, t, C, hr, ⟨ho, hrep, ht.ok, by rw [ht.entries]⟩, ht.grown, ht.entries, hp, hl⟩

namespace ExpanseMap32

variable {m : ExpanseMap32}

theorem Sound.counted (h : Sound m t C) : Counted .map m.alloc m.root m.len t C := ⟨h.owned, h.rep, h.ok, h.len⟩

theorem Sound.stored (h : Sound m t C) : Stored m.alloc .map KEY_BYTES m.root t := h.counted.stored

theorem open_range (h : Sound m t C) (hhi : hi ≤ KEY_MAX) :
    Open m.alloc .map (entries KEY_BYTES t) (m.range lo hi) (between lo hi (entries KEY_BYTES t)) :=
  h.counted.open_range hhi

theorem open_iter (h : Sound m t C) : Open m.alloc .map (entries KEY_BYTES t) m.iter (entries KEY_BYTES t) :=
  h.counted.open_iter

theorem collect_spec (h : Sound m t C) : m.collect = .ok (entries KEY_BYTES t) := h.counted.drains

/-- A plain map whose tree is the one that the entries `l` grow. -/
def Grew (m : ExpanseMap32) (l : List (ℕ × ℕ)) : Prop :=
  ∃ t C, Sound m t C ∧ Grown .map KEY_BYTES t ∧ entries KEY_BYTES t = l ∧ Plain m.alloc

theorem grew_new : Grew new [] := ⟨null, 0, sound_new, grown_null, entries_null, plain_new⟩

theorem Grew.insert (h : Grew m l) {e : ℕ × ℕ} (he : e.1 < 2 ^ 32 ∧ e.2 < 256 ^ valueWidth .map) :
    ∃ m', m.insert e.1 e.2 = .ok (l.lookup e.1, m') ∧ Grew m' (put e.1 e.2 l) := by
  obtain ⟨t, C, hs, hg, rfl, hp⟩ := h
  obtain ⟨m', C', hr, hs', hspent⟩ := insertMode_spec hs he.1 (lt_of_lt_of_eq he.2 (by decide))
    (hp.room _ _) hp.deferred
  exact ⟨m', hr, _, C', hs', insert_grown hs.ok hg (by decide) (key_lt he.1) he.2,
    (insert_spec hs.ok (by decide) (key_lt he.1) he.2).entries, hspent.plain hp⟩

theorem Grew.extend (h : Grew m l) (hi : Fitting .map items) :
    ∃ m', m.extend items = .ok m' ∧ Grew m' (putAll l items) :=
  each_carries (fun _ => rfl) (fun _ _ _ => rfl) (fun _ _ _ he h => ⟨_, h.insert he⟩) hi h

theorem fromIter_spec (hi : Fitting .map items) : ∃ m, fromIter items = .ok m ∧ Grew m (putAll [] items) :=
  grew_new.extend hi

theorem fromSortedIter_spec (hi : Fitting .map items) :
    ∃ m, fromSortedIter items = .ok m ∧ Grew m (putAll [] items) ∧ m.liveAllocs = m.alloc.allocs := by
  obtain ⟨e, a, t, C, hr, hc, hg, he, hp, hl⟩ := build_counted hi
  refine ⟨⟨a, e, (Store.normalise items).length, Finger.new⟩, by rw [fromSortedIter, hr]; rfl,
    ⟨t, C, ⟨hc.owned, hc.rep, hc.ok, hc.len, fun _ h => absurd h Bool.false_ne_true⟩, hg, he, hp⟩, hl⟩

/-- Compaction leaves the map that its entries grow. -/
theorem compact_spec (h : Sound m t C) (hd : m.alloc.deferred = false) :
    ∃ m', m.compact = .ok m' ∧ Grew m' (entries KEY_BYTES t) := by
  obtain ⟨m', hr, hg, hl⟩ := fromSortedIter_spec (fitting_entries h.ok)
  rw [putAll_self h.ok.sorted] at hg
  refine ⟨m', ?_, hg⟩
  rw [compact, hd, if_neg Bool.false_ne_true, collect_spec h, ok_bind, hr, ok_bind, if_pos hl]
  rfl

theorem clone_spec (h : Sound m t C) : ∃ m', m.clone = .ok m' ∧ Grew m' (entries KEY_BYTES t) := by
  obtain ⟨m', hr, hg⟩ := fromIter_spec (fitting_entries h.ok)
  rw [putAll_self h.ok.sorted] at hg
  exact ⟨m', by rw [clone, collect_spec h, ok_bind, hr], hg⟩

end ExpanseMap32

namespace ExpanseSet32

variable {s : ExpanseSet32} {keys : List ℕ}

theorem Sound.counted (h : Sound s t C) : Counted .set s.alloc s.root s.len t C := ⟨h.owned, h.rep, h.ok, h.len⟩

theorem Sound.stored (h : Sound s t C) : Stored s.alloc .set KEY_BYTES s.root t := h.counted.stored

theorem open_range (h : Sound s t C) (hhi : hi ≤ KEY_MAX) :
    Open s.alloc .set (entries KEY_BYTES t) (s.range lo hi) (between lo hi (entries KEY_BYTES t)) :=
  h.counted.open_range hhi

theorem open_iter (h : Sound s t C) : Open s.alloc .set (entries KEY_BYTES t) s.iter (entries KEY_BYTES t) :=
  h.counted.open_iter

def keysOf (t : Tree) : List ℕ := (entries KEY_BYTES t).map Prod.fst

theorem collect_spec (h : Sound s t C) : s.collect = .ok (keysOf t) := by
  rw [collect, ExpanseSet32.iter, isEmpty, h.counted.drains]
  rfl

theorem keyed_keysOf (h : Ok .set KEY_BYTES t) : keyed (keysOf t) = entries KEY_BYTES t := by
  rw [keyed, keysOf, List.map_map]
  refine (List.map_congr_left fun e he => ?_).trans (List.map_id _)
  have hv := (h.held.1.fit e he).2
  exact Prod.ext rfl (Nat.lt_one_iff.mp hv).symm

theorem fitting_keyed (hk : ∀ k ∈ keys, k < 2 ^ 32) : Fitting .set (keyed keys) := fun e he => by
  obtain ⟨k, hmem, rfl⟩ := List.mem_map.mp he
  exact ⟨hk k hmem, zero_fits⟩

theorem keysOf_lt (h : Ok .set KEY_BYTES t) : ∀ k ∈ keysOf t, k < 2 ^ 32 := fun k hk => by
  obtain ⟨e, he, rfl⟩ := List.mem_map.mp hk
  exact (fitting_entries h e he).1

/-- A plain set whose tree is the one that the entries `l` grow. -/
def Grew (s : ExpanseSet32) (l : List (ℕ × ℕ)) : Prop :=
  ∃ t C, Sound s t C ∧ Grown .set KEY_BYTES t ∧ entries KEY_BYTES t = l ∧ Plain s.alloc

theorem grew_new : Grew new [] := ⟨null, 0, sound_new, grown_null, entries_null, plain_new⟩

theorem Grew.insert (h : Grew s l) {k : ℕ} (hk : k < 2 ^ 32) :
    ∃ s', s.insert k = .ok ((l.lookup k).isNone, s') ∧ Grew s' (put k 0 l) := by
  obtain ⟨t, C, hs, hg, rfl, hp⟩ := h
  obtain ⟨s', C', hr, hs', hspent⟩ := insertMode_spec hs hk (hp.room _ _) hp.deferred
  exact ⟨s', hr, _, C', hs', insert_grown hs.ok hg (by decide) (key_lt hk) zero_fits,
    (insert_spec hs.ok (by decide) (key_lt hk) zero_fits).entries, hspent.plain hp⟩

theorem Grew.extend (h : Grew s l) (hk : ∀ k ∈ keys, k < 2 ^ 32) :
    ∃ s', s.extend keys = .ok s' ∧ Grew s' (putAll l (keyed keys)) := by
  rw [putAll, keyed, List.foldl_map]
  exact each_carries (fun _ => rfl) (fun _ _ _ => rfl) (fun _ _ _ hk h => ⟨_, h.insert hk⟩) hk h

theorem fromIter_spec (hk : ∀ k ∈ keys, k < 2 ^ 32) :
    ∃ s, fromIter keys = .ok s ∧ Grew s (putAll [] (keyed keys)) :=
  grew_new.extend hk

theorem fromSortedIter_spec (hk : ∀ k ∈ keys, k < 2 ^ 32) :
    ∃ s, fromSortedIter keys = .ok s ∧ Grew s (putAll [] (keyed keys)) ∧ s.liveAllocs = s.alloc.allocs := by
  obtain ⟨e, a, t, C, hr, hc, hg, he, hp, hl⟩ := build_counted (fitting_keyed hk)
  exact ⟨⟨a, e, (Store.normalise (keyed keys)).length⟩, by rw [fromSortedIter, hr]; rfl,
    ⟨t, C, ⟨hc.owned, hc.rep, hc.ok, hc.len⟩, hg, he, hp⟩, hl⟩

/-- Compaction leaves the set that its keys grow. -/
theorem compact_spec (h : Sound s t C) (hd : s.alloc.deferred = false) :
    ∃ s', s.compact = .ok s' ∧ Grew s' (entries KEY_BYTES t) := by
  obtain ⟨s', hr, hg, hl⟩ := fromSortedIter_spec (keysOf_lt h.ok)
  rw [keyed_keysOf h.ok, putAll_self h.ok.sorted] at hg
  refine ⟨s', ?_, hg⟩
  rw [compact, hd, if_neg Bool.false_ne_true, collect_spec h, ok_bind, hr, ok_bind, if_pos hl]
  rfl

theorem clone_spec (h : Sound s t C) : ∃ s', s.clone = .ok s' ∧ Grew s' (entries KEY_BYTES t) := by
  obtain ⟨s', hr, hg⟩ := fromIter_spec (keysOf_lt h.ok)
  rw [keyed_keysOf h.ok, putAll_self h.ok.sorted] at hg
  exact ⟨s', by rw [clone, collect_spec h, ok_bind, hr], hg⟩

end ExpanseSet32

end Expanse.Trie32
