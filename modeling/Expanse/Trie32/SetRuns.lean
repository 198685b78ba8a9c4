import Mathlib.Data.Finset.Sort
import Expanse.Library.Assoc
import Expanse.Trie32.MapRuns

/-!
# Runs of a 32-bit set

A plain set answers as a finite set of numbers does. What it hands out in order is that set in
ascending order.
-/

namespace Expanse.Trie32

open SortedAssoc Trie32.Tree Runs

/-- A finite set in ascending order. -/
def asc (F : Finset ℕ) : List ℕ := F.sort (· ≤ ·)

/-- The part of a finite set in a range. -/
def within (lo hi : ℕ) (F : Finset ℕ) : Finset ℕ := F.filter fun x => lo ≤ x ∧ x ≤ hi

theorem eq_asc {F : Finset ℕ} {l : List ℕ} (hl : l.Pairwise (· < ·)) (h : ∀ x, x ∈ l ↔ x ∈ F) : l = asc F := by
  have hF : l.toFinset = F := Finset.ext fun x => by rw [List.mem_toFinset, h]
  rw [← hF, asc, (List.toFinset_sort (· ≤ ·) (hl.imp ne_of_lt)).mpr (hl.imp le_of_lt)]

theorem asc_sorted (F : Finset ℕ) : (asc F).Pairwise (· < ·) := (Finset.sortedLT_sort F).pairwise

theorem mem_asc {F : Finset ℕ} {x : ℕ} : x ∈ asc F ↔ x ∈ F := Finset.mem_sort _

theorem length_asc (F : Finset ℕ) : (asc F).length = F.card := Finset.length_sort _

theorem asc_filter (F : Finset ℕ) (p : ℕ → Prop) [DecidablePred p] :
    asc (F.filter p) = (asc F).filter fun x => decide (p x) :=
  (eq_asc ((asc_sorted F).filter _) fun x => by
    rw [List.mem_filter, Finset.mem_filter, mem_asc, decide_eq_true_eq]).symm

namespace ExpanseSet32

/-- What a caller can ask of a plain set. -/
inductive Op where
  | insert (key : UInt32)
  | remove (key : UInt32)
  | removeRange (lo hi : UInt32)
  | extend (keys : List UInt32)
  | fromSortedIter (keys : List UInt32)
  | clone
  | compact
  | clear
  | shrinkToFit
  | contains (key : UInt32)
  | len
  | first
  | last
  | next (key : UInt32)
  | prev (key : UInt32)
  | nextAtOrAfter (bound : UInt32)
  | prevAtOrBefore (bound : UInt32)
  | countRange (lo hi : UInt32)
  | range (lo hi : UInt32) (sides : List End)
  | rangeRev (lo hi : UInt32) (sides : List End)
  | iter (sides : List End)

inductive Out where
  | done
  | flag (b : Bool)
  | count (n : ℕ)
  | key (k : Option ℕ)
  | gone (keys : List ℕ) (n : ℕ)
  | handed (outs : List (Option ℕ))
deriving DecidableEq

def reads (s : ExpanseSet32) {α : Type} (out : α → Out) (r : Except Fault α) :
    Except Fault (Out × ExpanseSet32) :=
  r.map fun x => (out x, s)

def keysOut {State : Type} (r : List (Option (ℕ × ℕ)) × State) : List (Option ℕ) := r.1.map keyOf

def step (s : ExpanseSet32) : Op → Except Fault (Out × ExpanseSet32)
  | .insert k => answered .flag (s.insert k.toNat)
  | .remove k => answered .flag (s.remove k.toNat)
  | .removeRange lo hi => answered (fun r => .gone r.1 r.2) (s.removeRange lo.toNat hi.toNat)
  | .extend keys => (s.extend (keys.map UInt32.toNat)).map fun s => (.done, s)
  | .fromSortedIter keys => (fromSortedIter (keys.map UInt32.toNat)).map fun s => (.done, s)
  | .clone => s.clone.map fun s => (.done, s)
  | .compact => s.compact.map fun s => (.done, s)
  | .clear => .ok (.done, s.clear)
  | .shrinkToFit => .ok (.done, s.shrinkToFit)
  | .contains k => s.reads .flag (s.contains k.toNat)
  | .len => .ok (.count s.len, s)
  | .first => s.reads .key s.first
  | .last => s.reads .key s.last
  | .next k => s.reads .key (s.next k.toNat)
  | .prev k => s.reads .key (s.prev k.toNat)
  | .nextAtOrAfter k => s.reads .key (s.nextAtOrAfter k.toNat)
  | .prevAtOrBefore k => s.reads .key (s.prevAtOrBefore k.toNat)
  | .countRange lo hi => s.reads .count (s.countRange lo.toNat hi.toNat)
  | .range lo hi sides =>
    s.reads .handed ((run (RangeIter32.call .set s.alloc s.root) (s.range lo.toNat hi.toNat) sides).map keysOut)
  | .rangeRev lo hi sides =>
    s.reads .handed ((run (Bounds.call .set s.alloc s.root) (s.rangeRev lo.toNat hi.toNat) sides).map keysOut)
  | .iter sides => s.reads .handed ((run (RangeIter32.call .set s.alloc s.root) s.iter sides).map keysOut)

def refStep (F : Finset ℕ) : Op → Out × Finset ℕ
  | .insert k => (.flag (k.toNat ∉ F), Insert.insert k.toNat F)
  | .remove k => (.flag (k.toNat ∈ F), F.erase k.toNat)
  | .removeRange lo hi => (.gone (asc (within lo.toNat hi.toNat F)) (within lo.toNat hi.toNat F).card,
      F \ within lo.toNat hi.toNat F)
  | .extend keys => (.done, F ∪ (keys.map UInt32.toNat).toFinset)
  | .fromSortedIter keys => (.done, (keys.map UInt32.toNat).toFinset)
  | .clone => (.done, F)
  | .compact => (.done, F)
  | .clear => (.done, ∅)
  | .shrinkToFit => (.done, F)
  | .contains k => (.flag (k.toNat ∈ F), F)
  | .len => (.count F.card, F)
  | .first => (.key (asc F).head?, F)
  | .last => (.key (asc F).getLast?, F)
  | .next k => (.key (asc (F.filter (k.toNat < ·))).head?, F)
  | .prev k => (.key (asc (F.filter (· < k.toNat))).getLast?, F)
  | .nextAtOrAfter k => (.key (asc (F.filter (k.toNat ≤ ·))).head?, F)
  | .prevAtOrBefore k => (.key (asc (F.filter (· ≤ k.toNat))).getLast?, F)
  | .countRange lo hi => (.count (within lo.toNat hi.toNat F).card, F)
  | .range lo hi sides => (.handed (refRun takeEnd (asc (within lo.toNat hi.toNat F)) sides).1, F)
  | .rangeRev lo hi sides => (.handed (refRun takeEnd (asc (within lo.toNat hi.toNat F)).reverse sides).1, F)
  | .iter sides => (.handed (refRun takeEnd (asc F) sides).1, F)

/-- A plain set that stores the keys `F`. -/
def Holds (s : ExpanseSet32) (F : Finset ℕ) : Prop := ∃ t C, Sound s t C ∧ Plain s.alloc ∧ keysOf t = asc F

variable {s : ExpanseSet32} {F : Finset ℕ} {t : Tree} {C : Cells} {l : List (ℕ × ℕ)}

theorem holds_of (h : Sound s t C) (hp : Plain s.alloc) (hF : ∀ x, x ∈ keysOf t ↔ x ∈ F) : Holds s F :=
  ⟨t, C, h, hp, eq_asc (List.pairwise_map.mpr h.ok.sorted) hF⟩

theorem mem_keysOf {x : ℕ} : x ∈ keysOf t ↔ ((entries KEY_BYTES t).lookup x).isSome = true := by
  rw [Assoc.isSome_lookup]
  rfl

theorem mem_iff (h : keysOf t = asc F) {x : ℕ} : ((entries KEY_BYTES t).lookup x).isSome = true ↔ x ∈ F := by
  rw [← mem_keysOf, h, mem_asc]

theorem isSome_eq (h : keysOf t = asc F) (x : ℕ) : ((entries KEY_BYTES t).lookup x).isSome = decide (x ∈ F) := by
  rw [Bool.eq_iff_iff, mem_iff h, decide_eq_true_eq]

theorem isNone_eq (h : keysOf t = asc F) (x : ℕ) : ((entries KEY_BYTES t).lookup x).isNone = decide (x ∉ F) := by
  rw [← Option.not_isSome, isSome_eq h, decide_not]

theorem keysOf_null : keysOf null = asc ∅ := by
  rw [keysOf, entries_null, asc, Finset.sort_empty]
  rfl

theorem holds_new : Holds new ∅ := ⟨null, 0, sound_new, plain_new, keysOf_null⟩

theorem keysOf_insert {k : ℕ} (h : Sound s t C) (hF : keysOf t = asc F) (hk : k < 2 ^ 32) :
    keysOf (t.insert .set KEY_BYTES k 0).2 = asc (Insert.insert k F) := by
  obtain ⟨-, hok, -, hent⟩ := Tree.insert_spec h.ok (by decide) (key_lt hk) zero_fits
  refine eq_asc (List.pairwise_map.mpr hok.sorted) fun x => ?_
  rw [mem_keysOf, hent, lookup_put h.ok.sorted, Finset.mem_insert]
  split_ifs with hx
  · simp [hx]
  · simp [hx, mem_iff hF]

theorem keysOf_remove {k : ℕ} (h : Sound s t C) (hF : keysOf t = asc F) (hk : k < 2 ^ 32) :
    keysOf (t.remove .set KEY_BYTES k).2 = asc (F.erase k) := by
  obtain ⟨-, hok, hent⟩ := Tree.remove_spec h.ok (by decide) (key_lt hk)
  refine eq_asc (List.pairwise_map.mpr hok.sorted) fun x => ?_
  rw [mem_keysOf, hent, lookup_del h.ok.sorted, Finset.mem_erase]
  split_ifs with hx
  · simp [hx]
  · simp [hx, mem_iff hF]

theorem Grew.holds (h : Grew s l) (hF : l.map Prod.fst = asc F) : Holds s F := by
  obtain ⟨t, C, hs, -, rfl, hp⟩ := h
  exact ⟨t, C, hs, hp, hF⟩

theorem Holds.insert (h : Holds s F) {k : ℕ} (hk : k < 2 ^ 32) :
    ∃ s', s.insert k = .ok (decide (k ∉ F), s') ∧ Holds s' (Insert.insert k F) := by
  obtain ⟨t, C, hs, hp, hF⟩ := h
  obtain ⟨s', C', hr, hs', hspent⟩ := insertMode_spec hs hk (hp.room _ _) hp.deferred
  rw [isNone_eq hF] at hr
  exact ⟨s', hr, _, C', hs', hspent.plain hp, keysOf_insert hs hF hk⟩

theorem Holds.remove (h : Holds s F) {k : ℕ} (hk : k < 2 ^ 32) :
    ∃ s', s.remove k = .ok (decide (k ∈ F), s') ∧ Holds s' (F.erase k) := by
  obtain ⟨t, C, hs, hp, hF⟩ := h
  obtain ⟨s', C', hr, hs', hspent⟩ := removeMode_spec hs hk (hp.room _ _) hp.deferred
  rw [isSome_eq hF] at hr
  exact ⟨s', hr, _, C', hs', hspent.plain hp, keysOf_remove hs hF hk⟩

theorem Holds.extend (h : Holds s F) {keys : List ℕ} (hk : ∀ k ∈ keys, k < 2 ^ 32) :
    ∃ s', s.extend keys = .ok s' ∧ Holds s' (F ∪ keys.toFinset) := by
  induction keys generalizing s F with
  | nil => exact ⟨s, rfl, by simpa using h⟩
  | cons k keys ih =>
    obtain ⟨s₁, hr₁, h₁⟩ := h.insert (hk k List.mem_cons_self)
    obtain ⟨s₂, hr₂, h₂⟩ := ih h₁ fun x hx => hk x (List.mem_cons_of_mem k hx)
    refine ⟨s₂, ?_, ?_⟩
    · rw [ExpanseSet32.extend, hr₁, ok_bind]
      exact hr₂
    · rwa [List.toFinset_cons, Finset.union_insert, ← Finset.insert_union]

theorem filter_keys (h : keysOf t = asc F) (p : ℕ → Prop) [DecidablePred p] :
    ((entries KEY_BYTES t).filter fun x => decide (p x.1)).map Prod.fst = asc (F.filter p) := by
  have hmap : ((entries KEY_BYTES t).filter fun x => decide (p x.1)).map Prod.fst =
      (keysOf t).filter fun x => decide (p x) := by
    rw [keysOf, List.filter_map]
    rfl
  rw [hmap, h, asc_filter]

theorem first_key (h : keysOf t = asc F) (p : ℕ → Prop) [DecidablePred p] :
    keyOf ((entries KEY_BYTES t).filter fun x => decide (p x.1)).head? = (asc (F.filter p)).head? := by
  rw [keyOf, ← List.head?_map, filter_keys h]

theorem last_key (h : keysOf t = asc F) (p : ℕ → Prop) [DecidablePred p] :
    keyOf ((entries KEY_BYTES t).filter fun x => decide (p x.1)).getLast? = (asc (F.filter p)).getLast? := by
  rw [keyOf, ← List.getLast?_map, filter_keys h]

theorem between_keys (h : keysOf t = asc F) (lo hi : ℕ) :
    (between lo hi (entries KEY_BYTES t)).map Prod.fst = asc (within lo hi F) :=
  filter_keys h fun x => lo ≤ x ∧ x ≤ hi

theorem Holds.removeRange (h : Holds s F) (lo : ℕ) {hi : ℕ} (hhi : hi ≤ KEY_MAX) :
    ∃ s', s.removeRange lo hi = .ok ((asc (within lo hi F), (within lo hi F).card), s') ∧
      Holds s' (F \ within lo hi F) := by
  obtain ⟨t, C, hs, hp, hF⟩ := h
  obtain ⟨s', C', hr, hs', hp'⟩ := @removeRange_spec lo hi _ _ _ hs hp hhi
  have hkeys := between_keys hF lo hi
  have hlen : (between lo hi (entries KEY_BYTES t)).length = (within lo hi F).card := by
    rw [← length_asc, ← hkeys, List.length_map]
  rw [hkeys, hlen] at hr
  refine ⟨s', hr, holds_of hs' hp' fun x => ?_⟩
  have hsub : (between lo hi (entries KEY_BYTES t)).Sublist (entries KEY_BYTES t) := List.filter_sublist
  have hout := (removeAll_spec hs.ok (by decide) fun e he => (hs.ok.held.1.fit e (hsub.subset he)).1).2
  have hstay : (outside lo hi (entries KEY_BYTES t)).map Prod.fst =
      (keysOf t).filter fun x => !decide (lo ≤ x ∧ x ≤ hi) := by
    rw [keysOf, List.filter_map]
    rfl
  rw [delAll_between hs.ok.sorted] at hout
  rw [keysOf, hout, hstay, hF, List.mem_filter, mem_asc, Finset.mem_sdiff, within, Finset.mem_filter,
    Bool.not_eq_true', decide_eq_false_iff_not]
  constructor
  · rintro ⟨hx, hn⟩
    exact ⟨hx, fun h => hn h.2⟩
  · rintro ⟨hx, hn⟩
    exact ⟨hx, fun h => hn ⟨hx, h⟩⟩

theorem reads_ok {α : Type} (out : α → Out) {r : Except Fault α} {x : α} (h : r = .ok x) :
    s.reads out r = .ok (out x, s) := by
  rw [h]
  rfl

theorem refRun_keys (l : List (ℕ × ℕ)) (sides : List End) :
    (refRun takeEnd l sides).1.map keyOf = (refRun takeEnd (l.map Prod.fst) sides).1 := by
  induction sides generalizing l with
  | nil => rfl
  | cons side sides ih =>
    rw [refRun, refRun, List.map_cons]
    cases side with
    | front =>
      rw [takeEnd, takeEnd]
      dsimp only
      rw [ih, List.map_tail, List.head?_map, keyOf]
    | back =>
      rw [takeEnd, takeEnd]
      dsimp only
      rw [ih, List.map_dropLast, List.getLast?_map, keyOf]

theorem lt_of_mem_map {keys : List UInt32} : ∀ k ∈ keys.map UInt32.toNat, k < 2 ^ 32 := fun k hk => by
  obtain ⟨x, -, rfl⟩ := List.mem_map.mp hk
  exact x.toNat_lt

theorem putAll_keyed (keys : List ℕ) : (putAll [] (keyed keys)).map Prod.fst = asc keys.toFinset := by
  have hs := putAll_sorted (l := []) .nil (keyed keys)
  refine eq_asc (List.pairwise_map.mpr hs) fun x => ?_
  rw [← Assoc.isSome_lookup, lookup_putAll .nil, List.lookup_nil, Option.or_none, List.mem_toFinset]
  clear hs
  induction keys with
  | nil => simp [keyed, Grouping.lastValue]
  | cons k keys ih =>
    rw [keyed, List.map_cons, Grouping.lastValue_cons, Option.isSome_or, List.mem_cons, Bool.or_eq_true,
      ← keyed, ih]
    by_cases hk : x = k
    · simp [hk]
    · simp [hk, Ne.symm hk]

theorem Holds.step (h : Holds s F) (op : Op) :
    ∃ s', s.step op = .ok ((refStep F op).1, s') ∧ Holds s' (refStep F op).2 := by
  have h₀ := h
  obtain ⟨t, C, hs, hp, hF⟩ := h
  have hst := hs.stored
  cases op with
  | insert k =>
    obtain ⟨s', hr, h'⟩ := h₀.insert k.toNat_lt
    exact ⟨s', answered_ok Out.flag hr, h'⟩
  | remove k =>
    obtain ⟨s', hr, h'⟩ := h₀.remove k.toNat_lt
    exact ⟨s', answered_ok Out.flag hr, h'⟩
  | removeRange lo hi =>
    obtain ⟨s', hr, h'⟩ := h₀.removeRange lo.toNat (toNat_le_max hi)
    exact ⟨s', answered_ok (fun r : List ℕ × ℕ => Out.gone r.1 r.2) hr, h'⟩
  | extend keys =>
    obtain ⟨s', hr, h'⟩ := h₀.extend (@lt_of_mem_map keys)
    exact ⟨s', by rw [ExpanseSet32.step, hr]; rfl, h'⟩
  | fromSortedIter keys =>
    obtain ⟨s', hr, hg, -⟩ := fromSortedIter_spec (@lt_of_mem_map keys)
    exact ⟨s', by rw [ExpanseSet32.step, hr]; rfl, hg.holds (putAll_keyed _)⟩
  | clone =>
    obtain ⟨s', hr, hg⟩ := clone_spec hs
    exact ⟨s', by rw [ExpanseSet32.step, hr]; rfl, hg.holds hF⟩
  | compact =>
    obtain ⟨s', hr, hg⟩ := compact_spec hs hp.deferred
    exact ⟨s', by rw [ExpanseSet32.step, hr]; rfl, hg.holds hF⟩
  | clear => exact ⟨_, rfl, holds_new⟩
  | shrinkToFit => exact ⟨_, rfl, t, C, shrinkToFit_spec hs, hp.shrinkToFit, hF⟩
  | contains k => exact ⟨s, reads_ok _ (by rw [contains_spec hs k.toNat_lt, isSome_eq hF]), h₀⟩
  | len =>
    have hlen : s.len = F.card := by rw [hs.len, ← length_asc, ← hF, keysOf, List.length_map]
    exact ⟨s, by rw [ExpanseSet32.step, hlen]; rfl, h₀⟩
  | first => exact ⟨s, reads_ok _ (by rw [first, firstEntry_eq hst, ← hF, keysOf, List.head?_map]; rfl), h₀⟩
  | last => exact ⟨s, reads_ok _ (by rw [last, lastEntry_eq hst, ← hF, keysOf, List.getLast?_map]; rfl), h₀⟩
  | next k =>
    have hread := first_key hF (k.toNat < ·)
    exact ⟨s, reads_ok _ (by rw [next, nextEntry_eq hst k.toNat_lt]; exact congrArg Except.ok hread), h₀⟩
  | prev k =>
    have hread := last_key hF (· < k.toNat)
    exact ⟨s, reads_ok _ (by rw [prev, prevEntry_eq hst k.toNat_lt]; exact congrArg Except.ok hread), h₀⟩
  | nextAtOrAfter k =>
    have hread := first_key hF (k.toNat ≤ ·)
    exact ⟨s, reads_ok _ (by rw [nextAtOrAfter, firstGe_eq hst k.toNat_lt]; exact congrArg Except.ok hread), h₀⟩
  | prevAtOrBefore k =>
    have hread := last_key hF (· ≤ k.toNat)
    exact ⟨s, reads_ok _ (by rw [prevAtOrBefore, lastLe_eq hst k.toNat_lt]; exact congrArg Except.ok hread), h₀⟩
  | countRange lo hi =>
    have hlen : (between lo.toNat hi.toNat (entries KEY_BYTES t)).length =
        (within lo.toNat hi.toNat F).card := by
      rw [← length_asc, ← between_keys hF, List.length_map]
    exact ⟨s, reads_ok _ (by rw [countRange, countRange_eq hst lo.toNat_lt hi.toNat_lt, hlen]), h₀⟩
  | range lo hi sides =>
    obtain ⟨it, hr, -⟩ := open_run hst (@open_range _ _ lo.toNat hi.toNat _ hs (toNat_le_max hi)) sides
    exact ⟨s, reads_ok _ (by rw [hr, ← between_keys hF, ← refRun_keys]; rfl), h₀⟩
  | rangeRev lo hi sides =>
    have ho := @open_range _ _ lo.toNat hi.toNat _ hs (toNat_le_max hi)
    obtain ⟨b, hr⟩ := bounds_run hst ho.fit sides
    rw [← ho.left, ← refRun_reverse] at hr
    refine ⟨s, reads_ok _ ?_, h₀⟩
    rw [← between_keys hF, ← List.map_reverse, ← refRun_keys]
    exact congrArg (Except.map keysOut) hr
  | iter sides =>
    obtain ⟨it, hr, -⟩ := open_run hst (open_iter hs) sides
    exact ⟨s, reads_ok _ (by rw [hr, ← hF, keysOf, ← refRun_keys]; rfl), h₀⟩

/-- Every run from the empty set answers as the finite set does. -/
theorem set_runs_refine (ops : List Op) :
    ∃ s, run step new ops = .ok ((refRun refStep ∅ ops).1, s) ∧ Holds s (refRun refStep ∅ ops).2 :=
  run_refines (fun _ _ op h _ => h.step op) holds_new (along_trivial _ _ _)

/-- The counters of the arena count the nodes in its slots, and those are the nodes of the tree at the
root. -/
theorem set_counters_exact (ops : List Op) :
    ∃ outs s t, run step new ops = .ok (outs, s) ∧ Stored s.alloc .set KEY_BYTES s.root t ∧
      s.memUsed = s.alloc.slotBytes ∧ s.memUsed = t.bytes .set KEY_BYTES ∧ s.liveAllocs = t.nodes KEY_BYTES ∧
      (s.len = 0 → s.memUsed = 0 ∧ s.liveAllocs = 0) := by
  obtain ⟨s, hr, t, C, hs, -, -⟩ := set_runs_refine ops
  exact ⟨_, s, t, hr, hs.stored, hs.counted.counters⟩

/-- Two sets store the same tree, apart from their handles, at the same cost. -/
def Alike (s s' : ExpanseSet32) : Prop :=
  (∃ t, Stored s.alloc .set KEY_BYTES s.root t ∧ Stored s'.alloc .set KEY_BYTES s'.root t) ∧
    s.len = s'.len ∧ s.memUsed = s'.memUsed ∧ s.liveAllocs = s'.liveAllocs

theorem Grew.alike {s' : ExpanseSet32} (h : Grew s l) (h' : Grew s' l) : Alike s s' := by
  obtain ⟨t, C, hs, hg, rfl, -⟩ := h
  obtain ⟨t', C', hs', hg', he, -⟩ := h'
  exact hs.counted.alike_of_grown hs'.counted hg hg' he

/-- A set that only grew stores its keys and nothing beside them. -/
theorem Grew.keyed (h : Grew s l) : l = keyed (l.map Prod.fst) := by
  obtain ⟨t, C, hs, -, rfl, -⟩ := h
  exact (keyed_keysOf hs.ok).symm

/-- The keys alone determine the tree: inserted in any order, loaded in bulk, or compacted. -/
theorem sets_canonical {ops : List Op} {keys : List UInt32}
    (h : (refRun refStep ∅ ops).2 = (keys.map UInt32.toNat).toFinset) :
    ∃ outs s s₁ s₂ s₃, run step new ops = .ok (outs, s) ∧ s.compact = .ok s₁ ∧
      fromIter (keys.map UInt32.toNat) = .ok s₂ ∧
      fromSortedIter (keys.map UInt32.toNat) = .ok s₃ ∧ Alike s₁ s₂ ∧ Alike s₁ s₃ ∧
        s₃.liveAllocs = s₃.alloc.allocs := by
  obtain ⟨s, hr, t, C, hs, hp, hF⟩ := set_runs_refine ops
  obtain ⟨s₁, hr₁, hg₁⟩ := compact_spec hs hp.deferred
  obtain ⟨s₂, hr₂, hg₂⟩ := fromIter_spec (@lt_of_mem_map keys)
  obtain ⟨s₃, hr₃, hg₃, hall⟩ := fromSortedIter_spec (@lt_of_mem_map keys)
  have hsame : putAll [] (ExpanseSet32.keyed (keys.map UInt32.toNat)) = entries KEY_BYTES t := by
    rw [hg₂.keyed, hg₁.keyed, putAll_keyed, ← h]
    exact congrArg ExpanseSet32.keyed hF.symm
  rw [hsame] at hg₂ hg₃
  exact ⟨_, s, s₁, s₂, s₃, hr, hr₁, hr₂, hr₃, hg₁.alike hg₂, hg₁.alike hg₃, hall⟩

theorem sets_canonical_descending : ∃ outs s s₁ s₂ s₃,
    run step new [.insert 7, .insert 300, .insert 70000, .removeRange 8 65535] = .ok (outs, s) ∧
      s.compact = .ok s₁ ∧
      fromIter ([70000, 7, 70000].map UInt32.toNat) = .ok s₂ ∧
        fromSortedIter ([70000, 7, 70000].map UInt32.toNat) = .ok s₃ ∧
      Alike s₁ s₂ ∧ Alike s₁ s₃ ∧ s₃.liveAllocs = s₃.alloc.allocs :=
  sets_canonical (by decide)

def removeEach (s : ExpanseSet32) : List ℕ → Except Fault ExpanseSet32
  | [] => .ok s
  | k :: ks => do
    let (_, s) ← s.remove k
    s.removeEach ks

theorem removeEach_spec {ks : List (ℕ × ℕ)} (h : Sound s t C) (hp : Plain s.alloc)
    (hk : ∀ e ∈ ks, e.1 < 2 ^ 32) :
    ∃ s', s.removeEach (ks.map Prod.fst) = .ok s' ∧
      ∃ C', Sound s' (removeAll .set KEY_BYTES t ks) C' ∧ Plain s'.alloc :=
  removeEach_carries Sound alloc (fun _ => rfl) (fun _ _ _ => rfl)
    (fun h hk hroom hd => ⟨_, removeMode_spec h hk hroom hd⟩) h hp hk

/-- The removal of a range hands out its keys in order and leaves the set that removals of those keys, one
by one, leave. -/
theorem set_removeRange_each (ops : List Op) (lo hi : UInt32) :
    ∃ outs s gone s₁ s₂, run step new ops = .ok (outs, s) ∧
      s.removeRange lo.toNat hi.toNat = .ok ((gone, gone.length), s₁) ∧
      gone = asc (within lo.toNat hi.toNat (refRun refStep ∅ ops).2) ∧ s.removeEach gone = .ok s₂ ∧
        Alike s₁ s₂ := by
  obtain ⟨s, hr, t, C, hs, hp, hF⟩ := set_runs_refine ops
  obtain ⟨s₁, C₁, hr₁, hs₁, -⟩ := @removeRange_spec lo.toNat hi.toNat _ _ _ hs hp (toNat_le_max hi)
  have hsub : (between lo.toNat hi.toNat (entries KEY_BYTES t)).Sublist (entries KEY_BYTES t) :=
    List.filter_sublist
  obtain ⟨s₂, hr₂, C₂, hs₂, -⟩ := removeEach_spec hs hp fun e he => (fitting_entries hs.ok e (hsub.subset he)).1
  rw [← List.length_map Prod.fst] at hr₁
  exact ⟨_, s, _, s₁, s₂, hr, hr₁, between_keys hF _ _, hr₂, hs₁.counted.alike hs₂.counted⟩

end ExpanseSet32

end Expanse.Trie32
