import Expanse.StrMap.Container

/-!
# Every operation of the string map keeps the trie and updates one binding

One contract per operation, then the run: the results of any sequence of calls are those
of a partial map.
-/

namespace Expanse.StrMap

open SortedAssoc BigEndian NodeAlloc Runs

section Bindings

variable {k : List ℕ} {v w x : ℕ} {l l' : List (List ℕ × ℕ)}

/-- The keys ascend strictly. -/
def Ordered (l : List (List ℕ × ℕ)) : Prop := l.Pairwise fun e f => e.1 < f.1

theorem Ordered.cut {l₁ l₂ : List (List ℕ × ℕ)} (h : Ordered (l₁ ++ (k, v) :: l₂)) :
    ∀ e ∈ l₁ ++ l₂, e.1 ≠ k := by
  obtain ⟨-, h₂, h₁₂⟩ := List.pairwise_append.mp h
  intro e he
  rcases List.mem_append.mp he with he | he
  · exact ne_of_lt (h₁₂ e he (k, v) List.mem_cons_self)
  · exact ne_of_gt ((List.pairwise_cons.mp h₂).1 e he)

theorem Inserted.mem_iff (h : Inserted k v l l') (ho : Ordered l') (j : List ℕ) :
    (j, x) ∈ l' ↔ j = k ∧ x = v ∨ j ≠ k ∧ (j, x) ∈ l := by
  obtain ⟨l₁, l₂, rfl, rfl⟩ := h
  have hne : (j, x) ∈ l₁ ++ l₂ → j ≠ k := ho.cut (j, x)
  simp only [List.mem_append, List.mem_cons, Prod.mk.injEq] at hne ⊢
  tauto

theorem Replaced.mem_iff (h : Replaced k w v l l') (ho : Ordered l') (j : List ℕ) :
    (j, x) ∈ l' ↔ j = k ∧ x = v ∨ j ≠ k ∧ (j, x) ∈ l := by
  obtain ⟨l₁, l₂, rfl, rfl⟩ := h
  have hne : (j, x) ∈ l₁ ++ l₂ → j ≠ k := ho.cut (j, x)
  simp only [List.mem_append, List.mem_cons, Prod.mk.injEq] at hne ⊢
  tauto

theorem Ordered.value_unique (h : Ordered l) (hv : (k, v) ∈ l) (hw : (k, w) ∈ l) : v = w := by
  obtain ⟨l₁, l₂, rfl⟩ := List.append_of_mem hv
  rcases List.mem_append.mp hw with hw | hw
  · exact absurd rfl (h.cut _ (List.mem_append_left _ hw))
  · rcases List.mem_cons.mp hw with heq | hw
    · exact (Prod.mk.inj heq).2.symm
    · exact absurd rfl (h.cut _ (List.mem_append_right _ hw))

def Graph (m : List ℕ → Option ℕ) (l : List (List ℕ × ℕ)) : Prop :=
  ∀ k v, m k = some v ↔ (k, v) ∈ l

variable {m : List ℕ → Option ℕ}

theorem Graph.none_iff (h : Graph m l) : m k = none ↔ ∀ v, (k, v) ∉ l := by
  rw [Option.eq_none_iff_forall_ne_some]
  exact forall_congr' fun v => not_congr (h k v)

theorem Graph.of_mem_iff (h : Graph m l)
    (hm : ∀ j x, (j, x) ∈ l' ↔ j = k ∧ x = v ∨ j ≠ k ∧ (j, x) ∈ l) :
    Graph (Function.update m k (some v)) l' := by
  intro j x
  rw [hm, ← h]
  by_cases hj : j = k
  · subst hj
    simp [eq_comm]
  · simp [hj]

theorem Graph.inserted (h : Graph m l) (hi : Inserted k v l l') (ho : Ordered l') :
    Graph (Function.update m k (some v)) l' := h.of_mem_iff fun j _ => hi.mem_iff ho j

theorem Graph.replaced (h : Graph m l) (hr : Replaced k w v l l') (ho : Ordered l') :
    Graph (Function.update m k (some v)) l' := h.of_mem_iff fun j _ => hr.mem_iff ho j

theorem Graph.removed (h : Graph m l) (hi : Inserted k v l' l) (ho : Ordered l) :
    Graph (Function.update m k none) l' := by
  intro j x
  have hj' := hi.mem_iff ho (x := x) j
  have hm := h j x
  by_cases hj : j = k
  · subst hj
    simp only [Function.update_self, reduceCtorEq, false_iff]
    intro hin
    obtain ⟨l₁, l₂, rfl, rfl⟩ := hi
    exact ho.cut _ hin rfl
  · rw [Function.update_of_ne hj, hm, hj']
    tauto

theorem Graph.ncard (h : Graph m l) (ho : Ordered l) : {k | (m k).isSome}.ncard = l.length := by
  have hset : {k | (m k).isSome} = ((l.map Prod.fst).toFinset : Set (List ℕ)) := by
    ext k
    simp only [Set.mem_ofPred_eq, List.coe_toFinset, List.mem_map, Prod.exists, exists_and_right,
      exists_eq_right, Option.isSome_iff_exists]
    exact exists_congr fun v => h k v
  have hnd : (l.map Prod.fst).Nodup := by
    rw [List.Nodup, List.pairwise_map]
    exact ho.imp fun hlt => ne_of_lt hlt
  rw [hset, Set.ncard_coe_finset, List.toFinset_card_of_nodup hnd, List.length_map]

end Bindings

variable {M : WordMap} {C : M.Correct} {s : ExpanseStrMap M} {kids kids' : Kids} {p v : ℕ}
  {a : NodeAlloc M} {m : List ℕ → Option ℕ} (P : Placement)

/-- The live blocks are exactly those of the trie below the root. -/
def RootHolds (C : M.Correct) (s : ExpanseStrMap M) (kids : Kids) : Prop :=
  match s.root with
  | none => kids = [] ∧ ∀ q, q ∉ s.alloc.cells
  | some p => kids ≠ [] ∧ Node C s.alloc p kids ∧ ∀ q, q ∈ s.alloc.cells ↔ q ∈ p :: addrs kids

structure Rep (C : M.Correct) (s : ExpanseStrMap M) (kids : Kids) : Prop where
  sound : s.alloc.Sound
  pop : s.pop = (entries kids).length
  tree : RootHolds C s kids

theorem Rep.wf (h : Rep C s kids) : Wf kids := by
  have ht := h.tree
  unfold RootHolds at ht
  split at ht
  · rw [ht.1]
    trivial
  · exact ht.2.1.wf

theorem Rep.ordered (h : Rep C s kids) : Ordered (entries kids) := entries_sorted kids h.wf

theorem rep_new : Rep C (ExpanseStrMap.new : ExpanseStrMap M) [] where
  sound := ⟨rfl, fun _ hq => absurd hq (AList.notMem_empty _)⟩
  pop := by rw [entries]; rfl
  tree := ⟨rfl, fun _ => AList.notMem_empty _⟩

theorem rep_some {n : ℕ} (hs : a.Sound) (h : Node C a p kids) (hne : entries kids ≠ [])
    (hl : ∀ q, q ∈ a.cells ↔ q ∈ p :: addrs kids) (hn : n = (entries kids).length) :
    Rep C ⟨some p, n, a⟩ kids where
  sound := hs
  pop := hn
  tree := ⟨by rintro rfl; exact hne (by rw [entries]), h, hl⟩

theorem Rep.node (h : Rep C s kids) (hr : s.root = some p) :
    Node C s.alloc p kids ∧ ∀ q, q ∈ s.alloc.cells ↔ q ∈ p :: addrs kids := by
  have ht := h.tree
  unfold RootHolds at ht
  rw [hr] at ht
  exact ht.2

theorem Rep.nil (h : Rep C s kids) (hr : s.root = none) : kids = [] := by
  have ht := h.tree
  unfold RootHolds at ht
  rw [hr] at ht
  exact ht.1

theorem live_of_edits {a' : NodeAlloc M} {F F' : List ℕ} (h : Edits a a' F F')
    (hl : ∀ q, q ∈ a.cells ↔ q ∈ F) (q : ℕ) : q ∈ a'.cells ↔ q ∈ F' := by
  have := hl q
  rw [h.mem]
  tauto

theorem ensureRoot_spec (h : Rep C s kids) :
    ∃ p a, s.ensureRoot P = (p, a) ∧ Node C a p kids ∧ a.Sound ∧
      ∀ q, q ∈ a.cells ↔ q ∈ p :: addrs kids := by
  unfold ExpanseStrMap.ensureRoot
  cases hr : s.root with
  | some p => exact ⟨p, s.alloc, rfl, (h.node hr).1, h.sound, (h.node hr).2⟩
  | none =>
    obtain ⟨p, a, halloc, hl, hE, -, hs⟩ := alloc_spec P s.alloc (.shell M.new)
    have hno : ∀ q, q ∈ s.alloc.cells ↔ q ∈ ([] : List ℕ) := by
      have ht := h.tree
      unfold RootHolds at ht
      rw [hr] at ht
      simpa using ht.2
    have hk := h.nil hr
    subst hk
    have hnil : addrs [] = [] := by rw [addrs]
    refine ⟨p, a, halloc, ⟨⟨M.new, hl, C.new_ok, C.entries_new⟩, trivial, by simp [hnil], trivial⟩,
      hs h.sound, fun q => ?_⟩
    rw [live_of_edits hE hno q, hnil]

/-- One binding was written: an old value replaced, or a new binding made. -/
def Wrote (key : List ℕ) (v : ℕ) (old : Option ℕ) (l l' : List (List ℕ × ℕ)) : Prop :=
  (∃ w, old = some w ∧ Replaced key w v l l') ∨ old = none ∧ Inserted key v l l'

theorem Wrote.graph {key : List ℕ} {old : Option ℕ} {l l' : List (List ℕ × ℕ)}
    (h : Wrote key v old l l') (hg : Graph m l) (ho' : Ordered l') :
    m key = old ∧ Graph (Function.update m key (some v)) l' := by
  rcases h with ⟨w, rfl, hr⟩ | ⟨rfl, hi⟩
  · refine ⟨(hg key w).mpr ?_, hg.replaced hr ho'⟩
    obtain ⟨l₁, l₂, rfl, -⟩ := hr
    simp
  · refine ⟨hg.none_iff.mpr fun w hw => ?_, hg.inserted hi ho'⟩
    obtain ⟨l₁, l₂, rfl, rfl⟩ := hi
    exact ho'.cut _ hw rfl

theorem Wrote.ne_nil {key : List ℕ} {old : Option ℕ} {l l' : List (List ℕ × ℕ)}
    (h : Wrote key v old l l') : l' ≠ [] := by
  rcases h with ⟨w, -, l₁, l₂, -, rfl⟩ | ⟨-, hi⟩
  · simp
  · exact hi.ne_nil

theorem Wrote.length {key : List ℕ} {old : Option ℕ} {l l' : List (List ℕ × ℕ)}
    (h : Wrote key v old l l') : l'.length = if old.isNone then l.length + 1 else l.length := by
  rcases h with ⟨w, rfl, hr⟩ | ⟨rfl, hi⟩
  · exact hr.length
  · exact hi.length

/-- A store through a slot writes the binding of the key the slot was found for. -/
def SlotOf (C : M.Correct) (s : ExpanseStrMap M) (kids : Kids) (key : List ℕ) (slot : ValueSlot M) :
    Prop :=
  ∃ w, (key, w) ∈ entries kids ∧ s.alloc.readSlot slot = some w ∧
    ∀ v, ∃ s' kids', s.writeSlot slot v = .ok s' ∧ Rep C s' kids' ∧
      Replaced key w v (entries kids) (entries kids')

section Slots

variable {key : List ℕ} {q c : ℕ}

theorem slotOf_terminal {slot : M.Slot} {mq : M.Map} (h : Rep C s kids) (hr : s.root = some p)
    (hpl : Place C s.alloc p kids key (.terminal q c)) (hl : s.alloc.cells.lookup q = some (.shell mq))
    (hslot : M.getSlotPtr mq c = some slot) : SlotOf C s kids key (.word q slot) := by
  obtain ⟨m, hm, hok, hc, hiff, hupd⟩ := hpl
  obtain rfl : mq = m := by
    rw [hl] at hm
    cases hm
    rfl
  have hsome : ((C.entries mq).lookup c).isSome := by
    rw [← C.getSlotPtr_isSome hok hc, hslot]
    rfl
  obtain ⟨w, hw⟩ := Option.isSome_iff_exists.mp hsome
  refine ⟨w, (hiff w).mpr hw, ?_, fun v => ?_⟩
  · simp only [readSlot, hl]
    rw [C.readSlot_eq hok hc hslot, hw]
  · obtain ⟨hok', hent'⟩ := C.writeSlot_ok v hok hc hslot
    obtain ⟨a', hst, hl', hE, hs'⟩ := store_spec hl (.shell (M.writeSlot mq slot v))
    obtain ⟨kids', hnode, hE', hcase⟩ := hupd a' _ v hE hl' hok' hent'
    rcases hcase with ⟨w', hw', hrep⟩ | ⟨hnone, -⟩
    · obtain rfl : w = w' := by
        rw [hw] at hw'
        cases hw'
        rfl
      refine ⟨⟨s.root, s.pop, a'⟩, kids', ?_, ?_, hrep⟩
      · rw [ExpanseStrMap.writeSlot, NodeAlloc.writeSlot, shell_eq hl, ok_bind, hst]
        rfl
      · rw [hr]
        refine rep_some (hs' h.sound) hnode ?_ (live_of_edits hE' (h.node hr).2) ?_
        · obtain ⟨l₁, l₂, -, heq⟩ := hrep
          simp [heq]
        · rw [hrep.length, h.pop]
    · rw [hw] at hnone
      cases hnone

theorem slotOf_suffix (h : Rep C s kids) (hr : s.root = some p)
    (hpl : Place C s.alloc p kids key (.suffix q)) : SlotOf C s kids key (.suffix q) := by
  obtain ⟨bs, w, hl, hw, hupd⟩ := hpl
  refine ⟨w, hw, by simp only [readSlot, hl], fun v => ?_⟩
  obtain ⟨a', hst, hl', hE, hs'⟩ := store_spec hl (.suffix bs v)
  obtain ⟨kids', hnode, hE', hrep⟩ := hupd a' v hE hl'
  refine ⟨⟨s.root, s.pop, a'⟩, kids', ?_, ?_, hrep⟩
  · rw [ExpanseStrMap.writeSlot, NodeAlloc.writeSlot, suffix_eq hl, ok_bind]
    simp only [hst, ok_bind]
    rfl
  · rw [hr]
    refine rep_some (hs' h.sound) hnode ?_ (live_of_edits hE' (h.node hr).2) ?_
    · obtain ⟨l₁, l₂, -, heq⟩ := hrep
      simp [heq]
    · rw [hrep.length, h.pop]

end Slots

variable (key : NulFreeStr)

theorem get_spec (h : Rep C s kids) : ∃ r, s.get key = .ok r ∧ ∀ v, r = some v ↔
    (key.bytes, v) ∈ entries kids := by
  unfold ExpanseStrMap.get
  cases hr : s.root with
  | none =>
    refine ⟨none, rfl, fun v => ?_⟩
    rw [h.nil hr, entries]
    simp
  | some p =>
    obtain ⟨hnode, -⟩ := h.node hr
    obtain ⟨f, hloc, hpl⟩ := locateKey_spec (enough_turns key.bytes) hnode h.sound key.nulFree
    rw [List.drop_zero] at hpl
    simp only [hloc, ok_bind]
    cases f with
    | absent => exact ⟨none, rfl, fun v => by simpa using hpl v⟩
    | suffix q =>
      obtain ⟨bs, w, hl, hw, -⟩ := hpl
      refine ⟨some w, by simp only [suffix_eq hl, ok_bind, pure_eq_ok], fun v => ?_⟩
      constructor
      · rintro ⟨⟩
        exact hw
      · intro hv
        rw [h.ordered.value_unique hw hv]
    | terminal q c =>
      obtain ⟨mq, hl, hok, hc, hiff, -⟩ := hpl
      refine ⟨M.get mq c, by simp only [shell_eq hl, ok_bind, pure_eq_ok], fun v => ?_⟩
      rw [C.get_eq hok hc, ← hiff]

theorem getValueSlot_spec (h : Rep C s kids) :
    ∃ r, s.getValueSlot key = .ok r ∧ (r = none ↔ ∀ v, (key.bytes, v) ∉ entries kids) ∧
      ∀ slot, r = some slot → SlotOf C s kids key.bytes slot := by
  unfold ExpanseStrMap.getValueSlot
  cases hr : s.root with
  | none =>
    refine ⟨none, rfl, ?_, by simp⟩
    rw [h.nil hr, entries]
    simp
  | some p =>
    obtain ⟨hnode, -⟩ := h.node hr
    obtain ⟨f, hloc, hpl⟩ := locateKey_spec (enough_turns key.bytes) hnode h.sound key.nulFree
    rw [List.drop_zero] at hpl
    simp only [hloc, ok_bind]
    cases f with
    | absent => exact ⟨none, rfl, iff_of_true rfl hpl, by simp⟩
    | suffix q =>
      have hslot := slotOf_suffix h hr hpl
      refine ⟨_, rfl, ?_, by rintro _ ⟨⟩; exact hslot⟩
      obtain ⟨w, hw, -⟩ := hslot
      simpa using ⟨w, hw⟩
    | terminal q c =>
      have hpl' := hpl
      obtain ⟨mq, hl, hok, hc, hiff, -⟩ := hpl
      refine ⟨(M.getSlotPtr mq c).map (.word q), by simp only [shell_eq hl, ok_bind, pure_eq_ok], ?_, ?_⟩
      · have hsome := C.getSlotPtr_isSome hok hc
        rw [Option.map_eq_none_iff, ← Option.not_isSome_iff_eq_none, hsome,
          Option.not_isSome_iff_eq_none, Option.eq_none_iff_forall_ne_some]
        exact forall_congr' fun v => not_congr (hiff v).symm
      · intro slot hslot
        rw [Option.map_eq_some_iff] at hslot
        obtain ⟨t, ht, rfl⟩ := hslot
        exact slotOf_terminal h hr hpl' hl ht

theorem insert_spec (h : Rep C s kids) (val : ℕ) :
    Ensures C.Total (s.insert P key val) fun r => ∃ kids', Rep C r.2 kids' ∧
      Wrote key.bytes val r.1 (entries kids) (entries kids') := by
  obtain ⟨p, a, hroot, hnode, hs, hlive⟩ := ensureRoot_spec P h
  unfold ExpanseStrMap.insert
  simp only [hroot]
  refine (reachKey_spec P (enough_turns key.bytes) hnode hs key.nulFree).bind fun r hr => ?_
  obtain ⟨spot, a₁⟩ := r
  obtain ⟨kids₁, hr⟩ := hr
  have hkeeps := hr.keeps
  rw [List.drop_zero] at hkeeps
  have hlive₁ := live_of_edits hr.edits hlive
  obtain ⟨f, hloc, hpl⟩ := locateKey_spec (enough_turns key.bytes) hr.node hr.sound key.nulFree
  rw [hr.located] at hloc
  obtain rfl : spot.found = f := Except.ok.inj hloc
  rw [List.drop_zero] at hpl
  cases spot with
  | fresh q =>
    have hw : Wrote key.bytes val none (entries kids) (entries kids₁) := .inr ⟨rfl, hkeeps⟩
    refine ⟨kids₁, rep_some hr.sound hr.node hw.ne_nil hlive₁ ?_, hw⟩
    rw [hw.length, h.pop]
    rfl
  | hit q =>
    obtain ⟨bs, w, hl, hw, hupd⟩ := hpl
    obtain ⟨a₂, hst, hl₂, hE₂, hs₂⟩ := store_spec hl (.suffix bs val)
    obtain ⟨kids₂, hnode₂, hE₂', hrep⟩ := hupd a₂ val hE₂ hl₂
    have hsame : entries kids₁ = entries kids := hkeeps
    rw [hsame] at hrep
    have hw : Wrote key.bytes val (some w) (entries kids) (entries kids₂) := .inl ⟨w, rfl, hrep⟩
    simp only [suffix_eq hl, hst, ok_bind, pure_eq_ok, ensures_ok]
    refine ⟨kids₂, rep_some (hs₂ hr.sound) hnode₂ hw.ne_nil (live_of_edits hE₂' hlive₁) ?_, hw⟩
    rw [hw.length, h.pop]
    rfl
  | terminal q c =>
    obtain ⟨mq, hl, hok, hc, hiff, hupd⟩ := hpl
    simp only [shell_eq hl, ok_bind]
    refine (C.ensures_insert hok hc val).bind fun r hr' => ?_
    obtain ⟨prev, m'⟩ := r
    obtain ⟨hok', hent', hprev⟩ := hr'
    replace hprev : prev = (C.entries mq).lookup c := hprev
    obtain ⟨a₂, hst, hl₂, hE₂, hs₂⟩ := store_spec hl (.shell m')
    obtain ⟨kids₂, hnode₂, hE₂', hcase⟩ := hupd a₂ m' val hE₂ hl₂ hok' hent'
    have hsame : entries kids₁ = entries kids := hkeeps
    rw [hsame, ← hprev] at hcase
    have hw : Wrote key.bytes val prev (entries kids) (entries kids₂) := hcase
    simp only [hst, ok_bind, pure_eq_ok, ensures_ok]
    refine ⟨kids₂, rep_some (hs₂ hr.sound) hnode₂ hw.ne_nil (live_of_edits hE₂' hlive₁) ?_, hw⟩
    rw [hw.length, h.pop]

theorem Ordered.cut_unique {k : List ℕ} {x y : ℕ} {l₁ l₂ r₁ r₂ : List (List ℕ × ℕ)}
    (h : Ordered (l₁ ++ (k, x) :: l₂)) (heq : l₁ ++ (k, x) :: l₂ = r₁ ++ (k, y) :: r₂) :
    l₁ = r₁ ∧ l₂ = r₂ := by
  have hcut : ∀ {l₁ l₂ : List (List ℕ × ℕ)} {x : ℕ}, Ordered (l₁ ++ (k, x) :: l₂) →
      (l₁ ++ (k, x) :: l₂).filter (·.1 < k) = l₁ ∧ (l₁ ++ (k, x) :: l₂).filter (k < ·.1) = l₂ := by
    intro l₁ l₂ x h
    obtain ⟨-, h₂, h₁₂⟩ := List.pairwise_append.mp h
    have hlo : ∀ e ∈ l₁, e.1 < k := fun e he => h₁₂ e he (k, x) List.mem_cons_self
    have hhi : ∀ e ∈ l₂, k < e.1 := (List.pairwise_cons.mp h₂).1
    constructor
    · rw [List.filter_append, List.filter_cons_of_neg (by simp),
        List.filter_eq_self.mpr fun e he => decide_eq_true (hlo e he),
        List.filter_eq_nil_iff.mpr fun e he => by simpa using le_of_lt (hhi e he), List.append_nil]
    · rw [List.filter_append, List.filter_cons_of_neg (by simp),
        List.filter_eq_self.mpr fun e he => decide_eq_true (hhi e he),
        List.filter_eq_nil_iff.mpr fun e he => by simpa using le_of_lt (hlo e he), List.nil_append]
  have hl := hcut h
  rw [heq] at hl h
  exact ⟨hl.1.symm.trans (hcut h).1, hl.2.symm.trans (hcut h).2⟩

theorem Inserted.replaced {k : List ℕ} {x v : ℕ} {l l' l'' : List (List ℕ × ℕ)}
    (h : Inserted k x l l') (ho : Ordered l') (hr : Replaced k x v l' l'') : Inserted k v l l'' := by
  obtain ⟨l₁, l₂, rfl, rfl⟩ := h
  obtain ⟨r₁, r₂, heq, rfl⟩ := hr
  obtain ⟨rfl, rfl⟩ := ho.cut_unique heq
  exact ⟨l₁, l₂, rfl, rfl⟩

theorem length_put {l : List (ℕ × ℕ)} (hs : KeySorted l) (k v : ℕ) :
    (put k v l).length = if (l.lookup k).isNone then l.length + 1 else l.length := by
  cases hl : l.lookup k with
  | none =>
    obtain ⟨l₁, l₂, rfl, hcut⟩ := exists_cut_of_not_mem (k := k) hs fun w hw => by
      rw [← lookup_eq_some_iff hs, hl] at hw
      cases hw
    rw [put_cut_new hcut]
    simp only [List.length_append, List.length_cons, Option.isNone_none, if_true]
    omega
  | some w =>
    obtain ⟨l₁, l₂, rfl, hcut⟩ := exists_cut_of_mem hs ((lookup_eq_some_iff hs).mp hl)
    rw [put_cut_mem hcut]
    simp

theorem put_put {l : List (ℕ × ℕ)} (hs : KeySorted l) (k v w : ℕ) : put k v (put k w l) = put k v l := by
  by_cases hm : ∃ u, (k, u) ∈ l
  · obtain ⟨u, hu⟩ := hm
    obtain ⟨l₁, l₂, rfl, hcut⟩ := exists_cut_of_mem hs hu
    rw [put_cut_mem hcut, put_cut_mem hcut, put_cut_mem hcut]
  · obtain ⟨l₁, l₂, rfl, hcut⟩ := exists_cut_of_not_mem hs fun u hu => hm ⟨u, hu⟩
    rw [put_cut_new hcut, put_cut_new hcut, put_cut_mem hcut]

/-- What `ins_slot` leaves: the key bound (to 0 if it is new), and a slot through which a
store binds the key. -/
def Slotted (C : M.Correct) (kids : Kids) (key : List ℕ) (r : ValueSlot M × ExpanseStrMap M) : Prop :=
  ∃ kids' old, Rep C r.2 kids' ∧ Wrote key (old.getD 0) old (entries kids) (entries kids') ∧
    r.2.alloc.readSlot r.1 = some (old.getD 0) ∧
    ∀ v, ∃ s'' kids'', r.2.writeSlot r.1 v = .ok s'' ∧ Rep C s'' kids'' ∧
      Wrote key v old (entries kids) (entries kids'')

theorem insSlot_spec (h : Rep C s kids) :
    Ensures C.Total (s.insSlot P key) (Slotted C kids key.bytes) := by
  obtain ⟨p, a, hroot, hnode, hs, hlive⟩ := ensureRoot_spec P h
  unfold ExpanseStrMap.insSlot
  simp only [hroot]
  refine (reachKey_spec P (enough_turns key.bytes) hnode hs key.nulFree).bind fun r hr => ?_
  obtain ⟨spot, a₁⟩ := r
  obtain ⟨kids₁, hr⟩ := hr
  have hkeeps := hr.keeps
  rw [List.drop_zero] at hkeeps
  have hlive₁ := live_of_edits hr.edits hlive
  obtain ⟨f, hloc, hpl⟩ := locateKey_spec (enough_turns key.bytes) hr.node hr.sound key.nulFree
  rw [hr.located] at hloc
  obtain rfl : spot.found = f := Except.ok.inj hloc
  rw [List.drop_zero] at hpl
  cases spot with
  | fresh q =>
    have hw : Wrote key.bytes 0 none (entries kids) (entries kids₁) := .inr ⟨rfl, hkeeps⟩
    have hrep : Rep C ⟨some p, s.pop + 1, a₁⟩ kids₁ :=
      rep_some hr.sound hr.node hw.ne_nil hlive₁ (by rw [hw.length, h.pop]; rfl)
    obtain ⟨w, hmem, hread, hwrite⟩ := slotOf_suffix hrep rfl hpl
    obtain rfl : w = 0 := by
      have hin : (key.bytes, 0) ∈ entries kids₁ := by
        obtain ⟨l₁, l₂, -, heq⟩ := hkeeps
        simp [heq]
      exact hrep.ordered.value_unique hmem hin
    refine ⟨kids₁, none, hrep, hw, hread, fun v => ?_⟩
    obtain ⟨s'', kids'', hwr, hrep'', hrepl⟩ := hwrite v
    exact ⟨s'', kids'', hwr, hrep'', .inr ⟨rfl, Inserted.replaced hkeeps hrep.ordered hrepl⟩⟩
  | hit q =>
    have hsame : entries kids₁ = entries kids := hkeeps
    have hpl' := hpl
    obtain ⟨bs, w, hl, hw, -⟩ := hpl
    have hwrote : Wrote key.bytes w (some w) (entries kids) (entries kids₁) := by
      rw [hsame] at hw ⊢
      obtain ⟨l₁, l₂, heq⟩ := List.append_of_mem hw
      exact .inl ⟨w, rfl, l₁, l₂, heq, heq⟩
    have hrep : Rep C ⟨some p, s.pop, a₁⟩ kids₁ :=
      rep_some hr.sound hr.node hwrote.ne_nil hlive₁ (by rw [hsame, h.pop])
    obtain ⟨w', hmem, hread, hwrite⟩ := slotOf_suffix hrep rfl hpl'
    obtain rfl : w' = w := hrep.ordered.value_unique hmem hw
    refine ⟨kids₁, some w', hrep, hwrote, hread, fun v => ?_⟩
    obtain ⟨s'', kids'', hwr, hrep'', hrepl⟩ := hwrite v
    exact ⟨s'', kids'', hwr, hrep'', .inl ⟨w', rfl, hsame ▸ hrepl⟩⟩
  | terminal q c =>
    obtain ⟨mq, hl, hok, hc, hiff, hupd⟩ := hpl
    simp only [shell_eq hl, ok_bind]
    refine (C.ensures_insSlot hok hc).bind fun r hr' => ?_
    obtain ⟨slot, m'⟩ := r
    obtain ⟨hok', hent', hslot⟩ := hr'
    replace hslot : M.getSlotPtr m' c = some slot := hslot
    replace hent' : C.entries m' = put c (((C.entries mq).lookup c).getD 0) (C.entries mq) := hent'
    replace hok' : C.Ok m' := hok'
    obtain ⟨a₂, hst, hl₂, hE₂, hs₂⟩ := store_spec hl (.shell m')
    obtain ⟨kids₂, hnode₂, hE₂', hcase⟩ := hupd a₂ m' _ hE₂ hl₂ hok' hent'
    have hsame : entries kids₁ = entries kids := hkeeps
    rw [hsame] at hcase
    have hw : Wrote key.bytes _ ((C.entries mq).lookup c) (entries kids) (entries kids₂) := hcase
    simp only [hst, ok_bind, pure_eq_ok, ensures_ok]
    have hpop : (if M.len mq < M.len m' then s.pop + 1 else s.pop) = (entries kids₂).length := by
      rw [hw.length, C.len_eq hok, C.len_eq hok', hent', length_put (C.sorted hok), h.pop]
      cases (C.entries mq).lookup c with
      | none => simp
      | some w => simp
    refine ⟨kids₂, (C.entries mq).lookup c,
      rep_some (hs₂ hr.sound) hnode₂ hw.ne_nil (live_of_edits hE₂' hlive₁) hpop, hw, ?_, fun v => ?_⟩
    · simp only [readSlot, hl₂]
      rw [C.readSlot_eq hok' hc hslot, hent']
      exact (lookup_eq_some_iff ((C.sorted hok).put _ _)).mpr
        ((updated_put (C.sorted hok) _ _ _ _).mpr (.inl ⟨rfl, rfl⟩))
    · obtain ⟨hok'', hent''⟩ := C.writeSlot_ok v hok' hc hslot
      obtain ⟨a₃, hst₃, hl₃, hE₃, hs₃⟩ := store_spec hl₂ (.shell (M.writeSlot m' slot v))
      obtain ⟨kids₃, hnode₃, hE₃', hcase₃⟩ := hupd a₃ _ v (hE₂.trans hE₃) hl₃ hok''
        (by rw [hent'', hent', put_put (C.sorted hok)])
      rw [hsame] at hcase₃
      have hw₃ : Wrote key.bytes v ((C.entries mq).lookup c) (entries kids) (entries kids₃) := hcase₃
      refine ⟨⟨some p, if M.len mq < M.len m' then s.pop + 1 else s.pop, a₃⟩, kids₃, ?_,
        rep_some (hs₃ (hs₂ hr.sound)) hnode₃ hw₃.ne_nil (live_of_edits hE₃' hlive₁) ?_, hw₃⟩
      · rw [ExpanseStrMap.writeSlot, NodeAlloc.writeSlot, shell_eq hl₂, ok_bind, hst₃]
        rfl
      · rw [hpop, hw.length, hw₃.length]

theorem remove_spec (h : Rep C s kids) :
    Ensures True (s.remove key) fun r =>
      (r = (none, s) ∧ ∀ v, (key.bytes, v) ∉ entries kids) ∨
        ∃ v kids', r.1 = some v ∧ Rep C r.2 kids' ∧ Inserted key.bytes v (entries kids') (entries kids) := by
  unfold ExpanseStrMap.remove
  cases hr : s.root with
  | none =>
    refine .inl ⟨rfl, fun v => ?_⟩
    rw [h.nil hr, entries]
    simp
  | some p =>
    obtain ⟨hnode, hlive⟩ := h.node hr
    refine (removeImpl_spec hnode h.sound key.nulFree).bind fun r hr' => ?_
    cases r with
    | none => exact .inl ⟨rfl, hr'⟩
    | some r =>
      obtain ⟨v, a'⟩ := r
      obtain ⟨kids', ht⟩ := hr'
      obtain ⟨m, hm, hok, hent⟩ := ht.node.shell
      have hpos : s.pop ≠ 0 := by
        rw [h.pop, ht.without.length]
        omega
      have hlen : s.pop - 1 = (entries kids').length := by
        rw [h.pop, ht.without.length, Nat.add_sub_cancel]
      have hlive' := live_of_edits ht.edits hlive
      simp only [if_neg hpos, shell_eq hm, ok_bind]
      by_cases hempty : M.isEmpty m = true
      · have hk : kids' = [] := by
          rw [C.isEmpty_iff hok, hent, words_eq_nil] at hempty
          exact hempty
        subst hk
        obtain ⟨a'', hfr, hE, hs''⟩ := free_spec hm
        have hnil : addrs [] = [] := by rw [addrs]
        simp only [if_pos hempty, hfr, ok_bind, pure_eq_ok, ensures_ok]
        refine .inr ⟨v, [], rfl, ⟨hs'' ht.sound, hlen, rfl, fun q => ?_⟩, ht.without⟩
        have := live_of_edits hE (fun q => by rw [hlive' q, hnil]) q
        simpa using this
      · simp only [if_neg hempty, pure_eq_ok, ensures_ok]
        refine .inr ⟨v, kids', rfl, rep_some ht.sound ht.node ?_ hlive' hlen, ht.without⟩
        refine entries_ne_nil kids' ht.node.wf fun hk => hempty ?_
        rw [C.isEmpty_iff hok, hent, hk]
        rfl

theorem entries_of_no_cells (h : ∀ q, q ∉ a.cells) : a.cells.entries = [] := by
  cases he : a.cells.entries with
  | nil => rfl
  | cons e l =>
    refine absurd (AList.mem_keys.mpr ?_) (h e.1)
    rw [AList.keys, he]
    exact List.mem_cons_self

theorem bytesInUse_of_no_cells (hs : a.Sound) (h : ∀ q, q ∉ a.cells) : a.bytesInUse = 0 := by
  rw [hs.bytes, total, entries_of_no_cells h]
  rfl

theorem clear_spec (h : Rep C s kids) : ∃ n s', s.clear = .ok (n, s') ∧ Rep C s' [] := by
  unfold ExpanseStrMap.clear
  cases hr : s.root with
  | none =>
    have hk := h.nil hr
    subst hk
    have ht := h.tree
    unfold RootHolds at ht
    rw [hr] at ht
    exact ⟨0, _, rfl, h.sound, by rw [entries]; rfl, ht⟩
  | some p =>
    obtain ⟨hnode, hlive⟩ := h.node hr
    have hone : forestAddrs [(p, kids)] = p :: addrs kids := by simp [forestAddrs]
    have hfuel : (forestAddrs [(p, kids)]).length ≤ s.alloc.cells.keys.length := by
      rw [hone]
      exact (hnode.nodup.subperm fun q hq => AList.mem_keys.mp (hnode.mem q hq)).length_le
    obtain ⟨a', hd, hs', hE⟩ := disposeTree_spec h.sound (by simpa using hnode)
      (by rw [hone]; exact hnode.nodup) hfuel
    rw [hone] at hE
    have hno : ∀ q, q ∉ a'.cells := fun q hq => by
      have := (live_of_edits hE hlive q).mp hq
      simp at this
    have hzero := bytesInUse_of_no_cells hs' hno
    replace hd : disposeTree s.alloc.cells.keys.length s.alloc [p] = .ok a' := hd
    refine ⟨s.alloc.bytesInUse, ⟨none, 0, a'⟩, ?_, hs', by rw [entries]; rfl, rfl, hno⟩
    simp only [hd, ok_bind, if_pos hzero]
    rfl

/-- The map holds exactly the bindings of `m`. -/
def Holds (C : M.Correct) (s : ExpanseStrMap M) (m : List ℕ → Option ℕ) : Prop :=
  ∃ kids, Rep C s kids ∧ Graph m (entries kids)

theorem graph_nil : Graph (fun _ => none) (entries []) := by
  intro k v
  rw [entries]
  simp

theorem Rep.get_eq (h : Rep C s kids) (hg : Graph m (entries kids)) : s.get key = .ok (m key.bytes) := by
  obtain ⟨r, hget, hr⟩ := get_spec key h
  rw [hget]
  congr 1
  apply Option.ext
  intro v
  rw [hr v, hg]

theorem insert_holds (h : Holds C s m) (val : ℕ) :
    Ensures C.Total (s.insert P key val) fun r =>
      r.1 = m key.bytes ∧ Holds C r.2 (Function.update m key.bytes (some val)) := by
  obtain ⟨kids, hrep, hg⟩ := h
  refine (insert_spec P key hrep val).mono fun r hr => ?_
  obtain ⟨kids', hrep', hw⟩ := hr
  obtain ⟨hold, hg'⟩ := hw.graph hg hrep'.ordered
  exact ⟨hold.symm, kids', hrep', hg'⟩

theorem remove_holds (h : Holds C s m) :
    Ensures True (s.remove key) fun r =>
      r.1 = m key.bytes ∧ Holds C r.2 (Function.update m key.bytes none) := by
  obtain ⟨kids, hrep, hg⟩ := h
  refine (remove_spec key hrep).mono fun r hr => ?_
  rcases hr with ⟨rfl, hno⟩ | ⟨v, kids', hv, hrep', hins⟩
  · have hnone := hg.none_iff.mpr hno
    refine ⟨hnone.symm, kids, hrep, ?_⟩
    rwa [← hnone, Function.update_eq_self]
  · refine ⟨hv.trans ((hg _ _).mpr ?_).symm, kids', hrep', hg.removed hins hrep.ordered⟩
    obtain ⟨l₁, l₂, -, heq⟩ := hins
    simp [heq]

/-- One call answers as the reference and keeps the bindings of the reference. -/
theorem step_holds (h : Holds C s m) (op : ExpanseStrMap.Op) :
    Ensures C.Total (s.step P op) fun r => r.1 = (refStep m op).1 ∧ Holds C r.2 (refStep m op).2 := by
  cases op with
  | insert key val =>
    refine (insert_holds P key h val).bind fun r hr => ?_
    exact ⟨congrArg ExpanseStrMap.Out.value hr.1, hr.2⟩
  | insSlot key val =>
    obtain ⟨kids, hrep, hg⟩ := h
    refine (insSlot_spec P key hrep).bind fun r hr => ?_
    obtain ⟨kids', old, hrep', hw, hread, hwrite⟩ := hr
    obtain ⟨s'', kids'', hwr, hrep'', hw''⟩ := hwrite val
    obtain ⟨hold, hg''⟩ := hw''.graph hg hrep''.ordered
    simp only [hread, hwr, ok_bind, pure_eq_ok, ensures_ok]
    exact ⟨by rw [refStep, hold], kids'', hrep'', hg''⟩
  | get key =>
    obtain ⟨kids, hrep, hg⟩ := h
    simp only [ExpanseStrMap.step, hrep.get_eq key hg, ok_bind, pure_eq_ok, ensures_ok]
    exact ⟨rfl, kids, hrep, hg⟩
  | remove key =>
    refine (remove_holds key h).of_true.bind fun r hr => ?_
    exact ⟨congrArg ExpanseStrMap.Out.value hr.1, hr.2⟩
  | update key f =>
    have h' := h
    obtain ⟨kids, hrep, hg⟩ := h
    simp only [ExpanseStrMap.step, ExpanseStrMap.update, hrep.get_eq key hg, ok_bind, refStep]
    cases hf : f (m key.bytes) with
    | some v =>
      simp only
      refine Ensures.bind ((insert_holds P key h' v).bind (R := fun r => r.1 = m key.bytes ∧
        Holds C r.2 (Function.update m key.bytes (some v))) fun r hr => ?_) fun r hr => ?_
      · exact ⟨rfl, hr.2⟩
      · exact ⟨congrArg ExpanseStrMap.Out.value hr.1, hr.2⟩
    | none =>
      simp only
      by_cases hsome : (m key.bytes).isSome = true
      · rw [if_pos hsome]
        refine Ensures.bind ((remove_holds key h').of_true.bind (R := fun r => r.1 = m key.bytes ∧
          Holds C r.2 (Function.update m key.bytes none)) fun r hr => ?_) fun r hr => ?_
        · exact ⟨rfl, hr.2⟩
        · exact ⟨congrArg ExpanseStrMap.Out.value hr.1, hr.2⟩
      · have hnone : m key.bytes = none := by simpa using hsome
        rw [if_neg hsome]
        refine ⟨rfl, ?_⟩
        have hupd : Function.update m key.bytes none = m := by
          rw [← hnone, Function.update_eq_self]
        rw [hupd]
        exact h'
  | clear =>
    obtain ⟨kids, hrep, -⟩ := h
    obtain ⟨n, s', hclear, hrep'⟩ := clear_spec hrep
    simp only [ExpanseStrMap.step, hclear, ok_bind, pure_eq_ok, ensures_ok]
    exact ⟨rfl, [], hrep', graph_nil⟩
  | len =>
    obtain ⟨kids, hrep, hg⟩ := h
    refine ⟨?_, kids, hrep, hg⟩
    rw [refStep, hg.ncard hrep.ordered, ← hrep.pop]
    rfl

theorem holds_new : Holds C (ExpanseStrMap.new : ExpanseStrMap M) fun _ => none :=
  ⟨[], rep_new, graph_nil⟩

/-- Over a word map that is a correct map, any sequence of calls on a new string map
returns, and answers as a partial map from byte strings; a chunk counts as terminal by its
content exactly when the key ends in it. -/
theorem run_answers_as_partial_map (M : WordMap) (C : M.Correct) (hT : C.Total) (P : Placement) :
    (∀ ops : List ExpanseStrMap.Op, ∃ s : ExpanseStrMap M,
      run (ExpanseStrMap.step P) ExpanseStrMap.new ops =
        .ok ((refRun refStep (fun _ => none) ops).1, s) ∧
      Holds C s (refRun refStep (fun _ => none) ops).2) ∧
    ∀ (key : NulFreeStr) (off : ℕ), isTerminal (chunkAt key.bytes off).1 = true ↔
      key.bytes.length < off + CHUNK := by
  constructor
  · intro ops
    refine run_refines (P := fun _ _ => True) (fun s m op h _ => ?_) holds_new
      (along_trivial _ _ ops)
    obtain ⟨⟨out, s'⟩, heq, hout, hs'⟩ := (step_holds P h op).total hT
    exact ⟨s', by rw [heq, ← hout], hs'⟩
  · intro key off
    rw [isTerminal_chunkAt key.nulFree, chunkAt, decide_eq_true_iff, List.length_drop]
    have : 0 < CHUNK := by decide
    omega

/-- A suffix leaf split at its second chunk, a key that is a prefix of another, a key of one
full chunk and the empty key. -/
theorem run_answers_as_partial_map_sortedList :
    ∃ s : ExpanseStrMap WordMap.sortedList,
      run (ExpanseStrMap.step Placement.above) ExpanseStrMap.new
        [.insert ⟨[1, 2, 3, 4, 5, 6, 7, 8, 9, 10], by decide⟩ 5,
          .insert ⟨[1, 2, 3, 4, 5, 6, 7, 8, 9], by decide⟩ 6,
          .insSlot ⟨[1, 2, 3, 4, 5, 6, 7, 8], by decide⟩ 7,
          .insert ⟨[], by decide⟩ 8,
          .get ⟨[1, 2, 3, 4, 5, 6, 7, 8, 9, 10], by decide⟩,
          .remove ⟨[1, 2, 3, 4, 5, 6, 7, 8, 9], by decide⟩,
          .get ⟨[1, 2, 3, 4, 5, 6, 7, 8], by decide⟩,
          .clear, .get ⟨[], by decide⟩] =
        .ok ([.value none, .value none, .slot (some 0), .value none, .value (some 5),
          .value (some 6), .value (some 7), .unit, .value none], s) := by
  obtain ⟨s, hs, -⟩ := (run_answers_as_partial_map WordMap.sortedList WordMap.sortedListCorrect
    WordMap.sortedListCorrect_total Placement.above).1 _
  exact ⟨s, hs.trans (by simp [refRun, refStep, Function.update])⟩

end Expanse.StrMap
