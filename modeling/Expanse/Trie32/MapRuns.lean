import Expanse.Trie32.RemoveRangeSpec

/-!
# Runs of a 32-bit map

Whatever a caller does to a plain map, in any order, the map answers as a sorted list of entries
does. The state of the run is the map with its arena: an operation that read a freed node, or that
counted below zero, would fault, and none does.
-/

namespace Expanse.Trie32

open SortedAssoc Trie32.Tree Runs

def pairOf (x : UInt32 × UInt32) : ℕ × ℕ := (x.1.toNat, x.2.toNat)

theorem pairOf_fits (items : List (UInt32 × UInt32)) : Fitting .map (items.map pairOf) := fun e he => by
  obtain ⟨x, -, rfl⟩ := List.mem_map.mp he
  exact ⟨x.1.toNat_lt, lt_of_lt_of_eq x.2.toNat_lt (by decide)⟩

theorem toNat_le_max (k : UInt32) : k.toNat ≤ KEY_MAX := Nat.le_pred_of_lt k.toNat_lt

/-- Forget what an operation leaves beside its answer. -/
def answered {α β State : Type} (out : α → β) (r : Except Fault (α × State)) : Except Fault (β × State) :=
  r.map fun x => (out x.1, x.2)

theorem answered_ok {α β State : Type} (out : α → β) {r : Except Fault (α × State)} {x : α} {s : State}
    (h : r = .ok (x, s)) : answered out r = .ok (out x, s) := by
  rw [h]
  rfl

/-- Removals of keys one by one, from a plain container, are those from its tree. -/
theorem removeEach_carries {S Out : Type} {fl : Flavour} (Sound : S → Tree → Cells → Prop) (alloc : S → Arena)
    {remove : S → ℕ → Except Fault (Out × S)} {each : S → List ℕ → Except Fault S}
    (hnil : ∀ s, each s [] = .ok s)
    (hcons : ∀ s k ks, each s (k :: ks) = (do let (_, s) ← remove s k; each s ks))
    (hremove : ∀ {s t C k}, Sound s t C → k < 2 ^ 32 → Room (alloc s) 4 8 → (alloc s).deferred = false →
      ∃ out s' C', remove s k = .ok (out, s') ∧ Sound s' (t.remove fl KEY_BYTES k).2 C' ∧
        Spent (alloc s) (alloc s') 4 8)
    {s : S} {t : Tree} {C : Cells} (h : Sound s t C) (hp : Plain (alloc s)) {ks : List (ℕ × ℕ)}
    (hk : ∀ e ∈ ks, e.1 < 2 ^ 32) :
    ∃ s', each s (ks.map Prod.fst) = .ok s' ∧
      ∃ C', Sound s' (removeAll fl KEY_BYTES t ks) C' ∧ Plain (alloc s') := by
  have hfit : ∀ k ∈ ks.map Prod.fst, k < 2 ^ 32 := List.forall_mem_map.mpr hk
  have hfold : removeAll fl KEY_BYTES t ks =
      (ks.map Prod.fst).foldl (fun t k => (Tree.remove fl KEY_BYTES t k).2) t := by
    rw [List.foldl_map]
    rfl
  have hstep : ∀ s t k, k < 2 ^ 32 → (∃ C, Sound s t C ∧ Plain (alloc s)) →
      ∃ out s', remove s k = .ok (out, s') ∧
        ∃ C', Sound s' (Tree.remove fl KEY_BYTES t k).2 C' ∧ Plain (alloc s') := by
    rintro s t k hk ⟨C, h, hp⟩
    obtain ⟨out, s', C', hr, h', hspent⟩ := hremove h hk (hp.room _ _) hp.deferred
    exact ⟨out, s', hr, C', h', hspent.plain hp⟩
  rw [hfold]
  exact each_carries hnil hcons hstep hfit ⟨C, h, hp⟩

namespace ExpanseMap32

/-- What a caller can ask of a plain map. A visitor keeps what it has seen as a list. -/
inductive Op where
  | insert (key value : UInt32)
  | remove (key : UInt32)
  | removeRange (lo hi : UInt32)
  | extend (items : List (UInt32 × UInt32))
  | fromSortedIter (items : List (UInt32 × UInt32))
  | clone
  | compact
  | clear
  | shrinkToFit
  | get (key : UInt32)
  | len
  | first
  | last
  | next (key : UInt32)
  | prev (key : UInt32)
  | nextAtOrAfter (bound : UInt32)
  | prevAtOrBefore (bound : UInt32)
  | countRange (lo hi : UInt32)
  | range (lo hi : UInt32) (sides : List End)
  | rangeRev (lo hi : UInt32) (sides : List End)
  | iter (sides : List End)
  | tryForEachRange (lo hi : UInt32) (visit : List (ℕ × ℕ) → ℕ × ℕ → Bool × List (ℕ × ℕ))

inductive Out where
  | done
  | value (v : Option ℕ)
  | count (n : ℕ)
  | entry (e : Option (ℕ × ℕ))
  | gone (l : List (ℕ × ℕ)) (n : ℕ)
  | handed (outs : List (Option (ℕ × ℕ)))
  | seen (whole : Bool) (l : List (ℕ × ℕ))

def reads (m : ExpanseMap32) {α : Type} (out : α → Out) (r : Except Fault α) :
    Except Fault (Out × ExpanseMap32) :=
  r.map fun x => (out x, m)

def step (m : ExpanseMap32) : Op → Except Fault (Out × ExpanseMap32)
  | .insert k v => answered .value (m.insert k.toNat v.toNat)
  | .remove k => answered .value (m.remove k.toNat)
  | .removeRange lo hi => answered (fun r => .gone r.1 r.2) (m.removeRange lo.toNat hi.toNat)
  | .extend items => (m.extend (items.map pairOf)).map fun m => (.done, m)
  | .fromSortedIter items => (fromSortedIter (items.map pairOf)).map fun m => (.done, m)
  | .clone => m.clone.map fun m => (.done, m)
  | .compact => m.compact.map fun m => (.done, m)
  | .clear => .ok (.done, m.clear)
  | .shrinkToFit => .ok (.done, m.shrinkToFit)
  | .get k => m.reads .value (m.get k.toNat)
  | .len => .ok (.count m.len, m)
  | .first => m.reads .entry m.first
  | .last => m.reads .entry m.last
  | .next k => m.reads .entry (m.next k.toNat)
  | .prev k => m.reads .entry (m.prev k.toNat)
  | .nextAtOrAfter k => m.reads .entry (m.nextAtOrAfter k.toNat)
  | .prevAtOrBefore k => m.reads .entry (m.prevAtOrBefore k.toNat)
  | .countRange lo hi => m.reads .count (m.countRange lo.toNat hi.toNat)
  | .range lo hi sides => m.reads .handed ((run (RangeIter32.call .map m.alloc m.root)
      (m.range lo.toNat hi.toNat) sides).map Prod.fst)
  | .rangeRev lo hi sides => m.reads .handed ((run (Bounds.call .map m.alloc m.root)
      (m.rangeRev lo.toNat hi.toNat) sides).map Prod.fst)
  | .iter sides => m.reads .handed ((run (RangeIter32.call .map m.alloc m.root) m.iter sides).map Prod.fst)
  | .tryForEachRange lo hi visit => m.reads (fun r => .seen r.1 r.2)
      (m.tryForEachRange lo.toNat hi.toNat visit [])

def refStep (l : List (ℕ × ℕ)) : Op → Out × List (ℕ × ℕ)
  | .insert k v => (.value (l.lookup k.toNat), put k.toNat v.toNat l)
  | .remove k => (.value (l.lookup k.toNat), del k.toNat l)
  | .removeRange lo hi =>
    (.gone (between lo.toNat hi.toNat l) (between lo.toNat hi.toNat l).length, outside lo.toNat hi.toNat l)
  | .extend items => (.done, putAll l (items.map pairOf))
  | .fromSortedIter items => (.done, putAll [] (items.map pairOf))
  | .clone => (.done, l)
  | .compact => (.done, l)
  | .clear => (.done, [])
  | .shrinkToFit => (.done, l)
  | .get k => (.value (l.lookup k.toNat), l)
  | .len => (.count l.length, l)
  | .first => (.entry l.head?, l)
  | .last => (.entry l.getLast?, l)
  | .next k => (.entry (l.filter fun e => k.toNat < e.1).head?, l)
  | .prev k => (.entry (l.filter fun e => e.1 < k.toNat).getLast?, l)
  | .nextAtOrAfter k => (.entry (l.filter fun e => k.toNat ≤ e.1).head?, l)
  | .prevAtOrBefore k => (.entry (l.filter fun e => e.1 ≤ k.toNat).getLast?, l)
  | .countRange lo hi => (.count (between lo.toNat hi.toNat l).length, l)
  | .range lo hi sides => (.handed (refRun takeEnd (between lo.toNat hi.toNat l) sides).1, l)
  | .rangeRev lo hi sides => (.handed (refRun takeEnd (between lo.toNat hi.toNat l).reverse sides).1, l)
  | .iter sides => (.handed (refRun takeEnd l sides).1, l)
  | .tryForEachRange lo hi visit =>
    (.seen (visitAll visit [] (between lo.toNat hi.toNat l)).1
      (visitAll visit [] (between lo.toNat hi.toNat l)).2, l)

/-- A plain map that stores the entries `l`. -/
def Holds (m : ExpanseMap32) (l : List (ℕ × ℕ)) : Prop :=
  ∃ t C, Sound m t C ∧ Plain m.alloc ∧ entries KEY_BYTES t = l

variable {m : ExpanseMap32} {l : List (ℕ × ℕ)} {t : Tree} {C : Cells}

theorem holds_new : Holds new [] := ⟨null, 0, sound_new, plain_new, entries_null⟩

theorem Grew.holds (h : Grew m l) : Holds m l := by
  obtain ⟨t, C, hs, -, he, hp⟩ := h
  exact ⟨t, C, hs, hp, he⟩

theorem reads_ok {α : Type} (out : α → Out) {r : Except Fault α} {x : α} (h : r = .ok x) :
    m.reads out r = .ok (out x, m) := by
  rw [h]
  rfl

theorem Holds.insert (h : Holds m l) (k v : UInt32) :
    ∃ m', m.insert k.toNat v.toNat = .ok (l.lookup k.toNat, m') ∧ Holds m' (put k.toNat v.toNat l) := by
  obtain ⟨t, C, hs, hp, rfl⟩ := h
  obtain ⟨m', C', hr, hs', hspent⟩ := insertMode_spec hs k.toNat_lt v.toNat_lt (hp.room _ _) hp.deferred
  exact ⟨m', hr, _, C', hs', hspent.plain hp,
    (insert_spec hs.ok (by decide) (key_lt k.toNat_lt) (val_lt v.toNat_lt)).entries⟩

theorem Holds.remove (h : Holds m l) (k : UInt32) :
    ∃ m', m.remove k.toNat = .ok (l.lookup k.toNat, m') ∧ Holds m' (del k.toNat l) := by
  obtain ⟨t, C, hs, hp, rfl⟩ := h
  obtain ⟨m', C', hr, hs', hspent⟩ := removeMode_spec hs k.toNat_lt (hp.room _ _) hp.deferred
  exact ⟨m', hr, _, C', hs', hspent.plain hp, (remove_spec hs.ok (by decide) (key_lt k.toNat_lt)).entries⟩

theorem Holds.removeRange (h : Holds m l) (lo hi : UInt32) :
    ∃ m', m.removeRange lo.toNat hi.toNat = .ok ((between lo.toNat hi.toNat l,
      (between lo.toNat hi.toNat l).length), m') ∧
      Holds m' (outside lo.toNat hi.toNat l) := by
  obtain ⟨t, C, hs, hp, rfl⟩ := h
  obtain ⟨m', C', hr, hs', hp'⟩ := @removeRange_spec lo.toNat hi.toNat _ _ _ hs hp (toNat_le_max hi)
  refine ⟨m', hr, _, C', hs', hp', ?_⟩
  have hsub : (between lo.toNat hi.toNat (entries KEY_BYTES t)).Sublist (entries KEY_BYTES t) :=
    List.filter_sublist
  rw [(removeAll_spec hs.ok (by decide) fun e he => (hs.ok.held.1.fit e (hsub.subset he)).1).2,
    delAll_between hs.ok.sorted]

theorem Holds.extend (h : Holds m l) (items : List (UInt32 × UInt32)) :
    ∃ m', m.extend (items.map pairOf) = .ok m' ∧ Holds m' (putAll l (items.map pairOf)) := by
  induction items generalizing m l with
  | nil => exact ⟨m, rfl, h⟩
  | cons x items ih =>
    obtain ⟨m₁, hr₁, h₁⟩ := h.insert x.1 x.2
    obtain ⟨m₂, hr₂, h₂⟩ := ih h₁
    refine ⟨m₂, ?_, h₂⟩
    rw [List.map_cons, pairOf, ExpanseMap32.extend, hr₁, ok_bind]
    exact hr₂

/-- The visitor goes through the range until it stops. -/
theorem tryForEachRange_spec {σ : Type} {lo hi : ℕ} (h : Sound m t C) (hlo : lo < 2 ^ 32) (hhi : hi < 2 ^ 32)
    (visit : σ → ℕ × ℕ → Bool × σ) (s : σ) :
    m.tryForEachRange lo hi visit s = .ok (visitAll visit s (between lo hi (entries KEY_BYTES t))) := by
  rw [tryForEachRange]
  split_ifs with hempty
  · rw [between_empty hempty]
    rfl
  · exact mapForEachRange_eq visit s h.stored (by decide) (by decide) (key_lt hlo) (key_lt hhi) (by decide)

theorem Holds.step (h : Holds m l) (op : Op) :
    ∃ m', m.step op = .ok ((refStep l op).1, m') ∧ Holds m' (refStep l op).2 := by
  have h₀ := h
  obtain ⟨t, C, hs, hp, rfl⟩ := h
  have hst := hs.stored
  cases op with
  | insert k v =>
    obtain ⟨m', hr, h'⟩ := h₀.insert k v
    exact ⟨m', answered_ok Out.value hr, h'⟩
  | remove k =>
    obtain ⟨m', hr, h'⟩ := h₀.remove k
    exact ⟨m', answered_ok Out.value hr, h'⟩
  | removeRange lo hi =>
    obtain ⟨m', hr, h'⟩ := h₀.removeRange lo hi
    exact ⟨m', answered_ok (fun r : List (ℕ × ℕ) × ℕ => Out.gone r.1 r.2) hr, h'⟩
  | extend items =>
    obtain ⟨m', hr, h'⟩ := h₀.extend items
    exact ⟨m', by rw [ExpanseMap32.step, hr]; rfl, h'⟩
  | fromSortedIter items =>
    obtain ⟨m', hr, hg, -⟩ := fromSortedIter_spec (pairOf_fits items)
    exact ⟨m', by rw [ExpanseMap32.step, hr]; rfl, hg.holds⟩
  | clone =>
    obtain ⟨m', hr, hg⟩ := clone_spec hs
    exact ⟨m', by rw [ExpanseMap32.step, hr]; rfl, hg.holds⟩
  | compact =>
    obtain ⟨m', hr, hg⟩ := compact_spec hs hp.deferred
    exact ⟨m', by rw [ExpanseMap32.step, hr]; rfl, hg.holds⟩
  | clear => exact ⟨_, rfl, null, 0, clear_spec m, plain_new, entries_null⟩
  | shrinkToFit => exact ⟨_, rfl, t, C, shrinkToFit_spec hs, hp.shrinkToFit, rfl⟩
  | get k => exact ⟨m, reads_ok _ (get_spec hs k.toNat_lt), h₀⟩
  | len => exact ⟨m, by rw [ExpanseMap32.step, hs.len]; rfl, h₀⟩
  | first => exact ⟨m, reads_ok _ (firstEntry_eq hst), h₀⟩
  | last => exact ⟨m, reads_ok _ (lastEntry_eq hst), h₀⟩
  | next k => exact ⟨m, reads_ok _ (nextEntry_eq hst k.toNat_lt), h₀⟩
  | prev k => exact ⟨m, reads_ok _ (prevEntry_eq hst k.toNat_lt), h₀⟩
  | nextAtOrAfter k => exact ⟨m, reads_ok _ (firstGe_eq hst k.toNat_lt), h₀⟩
  | prevAtOrBefore k => exact ⟨m, reads_ok _ (lastLe_eq hst k.toNat_lt), h₀⟩
  | countRange lo hi => exact ⟨m, reads_ok _ (countRange_eq hst lo.toNat_lt hi.toNat_lt), h₀⟩
  | range lo hi sides =>
    obtain ⟨it, hr, -⟩ := open_run hst (@open_range _ _ lo.toNat hi.toNat _ hs (toNat_le_max hi)) sides
    exact ⟨m, reads_ok _ (by rw [hr]; rfl), h₀⟩
  | rangeRev lo hi sides =>
    have ho := @open_range _ _ lo.toNat hi.toNat _ hs (toNat_le_max hi)
    obtain ⟨b, hr⟩ := bounds_run hst ho.fit sides
    rw [← ho.left, ← refRun_reverse] at hr
    exact ⟨m, reads_ok _ (by rw [rangeRev]; exact congrArg (Except.map Prod.fst) hr), h₀⟩
  | iter sides =>
    obtain ⟨it, hr, -⟩ := open_run hst (open_iter hs) sides
    exact ⟨m, reads_ok _ (by rw [hr]; rfl), h₀⟩
  | tryForEachRange lo hi visit => exact ⟨m, reads_ok _
      (tryForEachRange_spec hs lo.toNat_lt hi.toNat_lt visit []), h₀⟩

/-- Every run from the empty map answers as the sorted list does. -/
theorem map_runs_refine (ops : List Op) :
    ∃ m, run step new ops = .ok ((refRun refStep [] ops).1, m) ∧ Holds m (refRun refStep [] ops).2 :=
  run_refines (fun _ _ op h _ => h.step op) holds_new (along_trivial _ _ _)

/-- The iterator of a range, called at its two ends in any order, takes the range apart. -/
theorem map_range_hands_out (ops : List Op) (lo hi : UInt32) (sides : List End) :
    ∃ outs m handed' it, run step new ops = .ok (outs, m) ∧
      run (RangeIter32.call .map m.alloc m.root) (m.range lo.toNat hi.toNat) sides = .ok (handed', it) ∧
      handed .front sides handed' ++ it.bounds.left (refRun refStep [] ops).2 ++
        (handed .back sides handed').reverse =
        between lo.toNat hi.toNat (refRun refStep [] ops).2 := by
  obtain ⟨m, hr, t, C, hs, -, hl⟩ := map_runs_refine ops
  rw [← hl]
  obtain ⟨it, hrun, ho⟩ := open_run hs.stored (@open_range _ _ lo.toNat hi.toNat _ hs (toNat_le_max hi)) sides
  refine ⟨_, m, _, it, hr, hrun, ?_⟩
  rw [← ho.left]
  exact handed_join _ sides

/-- The insertion that goes through the finger is the one that descends from the root. -/
theorem finger_agrees (ops : List Op) (k v : UInt32) :
    ∃ outs m, run step new ops = .ok (outs, m) ∧ m.insert k.toNat v.toNat = descend false m k.toNat v.toNat := by
  obtain ⟨m, hr, t, C, hs, hp, -⟩ := map_runs_refine ops
  exact ⟨_, m, hr, insertMode_eq_descend hs hp.deferred⟩

/-- The counters of the arena count the nodes in its slots, and those are the nodes of the tree at the
root. -/
theorem map_counters_exact (ops : List Op) :
    ∃ outs m t, run step new ops = .ok (outs, m) ∧ Stored m.alloc .map KEY_BYTES m.root t ∧
      m.memUsed = m.alloc.slotBytes ∧ m.memUsed = t.bytes .map KEY_BYTES ∧ m.liveAllocs = t.nodes KEY_BYTES ∧
      (m.len = 0 → m.memUsed = 0 ∧ m.liveAllocs = 0) := by
  obtain ⟨m, hr, t, C, hs, -, -⟩ := map_runs_refine ops
  exact ⟨_, m, t, hr, hs.stored, hs.counted.counters⟩

/-- Two maps store the same tree, apart from their handles, at the same cost. -/
def Alike (m m' : ExpanseMap32) : Prop :=
  (∃ t, Stored m.alloc .map KEY_BYTES m.root t ∧ Stored m'.alloc .map KEY_BYTES m'.root t) ∧
    m.len = m'.len ∧ m.memUsed = m'.memUsed ∧ m.liveAllocs = m'.liveAllocs

theorem Grew.alike {m' : ExpanseMap32} (h : Grew m l) (h' : Grew m' l) : Alike m m' := by
  obtain ⟨t, C, hs, hg, rfl, -⟩ := h
  obtain ⟨t', C', hs', hg', he, -⟩ := h'
  exact hs.counted.alike_of_grown hs'.counted hg hg' he

/-- Entries that leave the same contents leave the same tree, inserted in turn or loaded in bulk. The bulk
load frees nothing. -/
theorem load_canonical {items items' : List (UInt32 × UInt32)}
    (h : putAll [] (items.map pairOf) = putAll [] (items'.map pairOf)) :
    ∃ m m' m'', fromIter (items.map pairOf) = .ok m ∧ fromIter (items'.map pairOf) = .ok m' ∧
      fromSortedIter (items'.map pairOf) = .ok m'' ∧ Alike m m' ∧ Alike m m'' ∧
        m''.liveAllocs = m''.alloc.allocs := by
  obtain ⟨m, hr, hg⟩ := fromIter_spec (pairOf_fits items)
  obtain ⟨m', hr', hg'⟩ := fromIter_spec (pairOf_fits items')
  obtain ⟨m'', hr'', hg'', hall⟩ := fromSortedIter_spec (pairOf_fits items')
  rw [h] at hg
  exact ⟨m, m', m'', hr, hr', hr'', hg.alike hg', hg.alike hg'', hall⟩

theorem load_canonical_swapped : ∃ m m' m'', fromIter ([(7, 1), (70000, 2), (7, 3)].map pairOf) = .ok m ∧
    fromIter ([(70000, 2), (7, 3)].map pairOf) = .ok m' ∧
      fromSortedIter ([(70000, 2), (7, 3)].map pairOf) = .ok m'' ∧
      Alike m m' ∧ Alike m m'' ∧ m''.liveAllocs = m''.alloc.allocs :=
  load_canonical (by decide)

/-- A compacted map stores the tree that insertions of its entries leave, in any order. -/
theorem compact_canonical {ops : List Op} {items : List (UInt32 × UInt32)}
    (h : (refRun refStep [] ops).2 = putAll [] (items.map pairOf)) :
    ∃ outs m m' m'', run step new ops = .ok (outs, m) ∧ m.compact = .ok m' ∧
      fromIter (items.map pairOf) = .ok m'' ∧ Alike m' m'' := by
  obtain ⟨m, hr, t, C, hs, hp, hl⟩ := map_runs_refine ops
  obtain ⟨m', hc, hg⟩ := compact_spec hs hp.deferred
  obtain ⟨m'', hi, hg'⟩ := fromIter_spec (pairOf_fits items)
  rw [hl, h] at hg
  exact ⟨_, m, m', m'', hr, hc, hi, hg.alike hg'⟩

theorem compact_canonical_descending : ∃ outs m m' m'',
    run step new [.insert 7 1, .insert 300 2, .insert 70000 3, .remove 300] = .ok (outs, m) ∧
      m.compact = .ok m' ∧ fromIter ([(70000, 3), (7, 1)].map pairOf) = .ok m'' ∧ Alike m' m'' :=
  compact_canonical (by decide)

def removeEach (m : ExpanseMap32) : List ℕ → Except Fault ExpanseMap32
  | [] => .ok m
  | k :: ks => do
    let (_, m) ← m.remove k
    m.removeEach ks

theorem removeEach_spec {ks : List (ℕ × ℕ)} (h : Sound m t C) (hp : Plain m.alloc)
    (hk : ∀ e ∈ ks, e.1 < 2 ^ 32) :
    ∃ m', m.removeEach (ks.map Prod.fst) = .ok m' ∧
      ∃ C', Sound m' (removeAll .map KEY_BYTES t ks) C' ∧ Plain m'.alloc :=
  removeEach_carries Sound alloc (fun _ => rfl) (fun _ _ _ => rfl)
    (fun h hk hroom hd => ⟨_, removeMode_spec h hk hroom hd⟩) h hp hk

/-- The removal of a range hands out its entries in key order and leaves the map that removals of those keys,
one by one, leave. -/
theorem map_removeRange_each (ops : List Op) (lo hi : UInt32) :
    ∃ outs m gone m₁ m₂, run step new ops = .ok (outs, m) ∧
      m.removeRange lo.toNat hi.toNat = .ok ((gone, gone.length), m₁) ∧
      gone = between lo.toNat hi.toNat (refRun refStep [] ops).2 ∧ m.removeEach (gone.map Prod.fst) = .ok m₂ ∧
      Alike m₁ m₂ := by
  obtain ⟨m, hr, t, C, hs, hp, hl⟩ := map_runs_refine ops
  obtain ⟨m₁, C₁, hr₁, hs₁, -⟩ := @removeRange_spec lo.toNat hi.toNat _ _ _ hs hp (toNat_le_max hi)
  have hsub : (between lo.toNat hi.toNat (entries KEY_BYTES t)).Sublist (entries KEY_BYTES t) :=
    List.filter_sublist
  obtain ⟨m₂, hr₂, C₂, hs₂, -⟩ := removeEach_spec hs hp fun e he => (fitting_entries hs.ok e (hsub.subset he)).1
  exact ⟨_, m, _, m₁, m₂, hr, hr₁, by rw [hl], hr₂, hs₁.counted.alike hs₂.counted⟩

end ExpanseMap32

end Expanse.Trie32
