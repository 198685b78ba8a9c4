import Mathlib
import Expanse.Set32.AlgebraSpec

/-!
# Intersections and unions of any number of sets

The loops of two, of at most eight and of more operands hand out the same keys. Whatever
their number, as much fuel as the operands have keys together is enough.
-/

namespace Expanse.Set32

open Merges

namespace KeySet

variable {K : KeySet} {β : Type} {s t : K.Set} {sets lanes : List K.Set} {fuel b x : ℕ} {es : List ℕ}

theorem foldlM_countKey {n : ℕ} {last : Option ℕ} (hn : n + es.length < 2 ^ 64) :
    (es.foldlM countKey (n, last)).map Prod.fst = .ok (n + es.length) := by
  induction es generalizing n last with
  | nil => rfl
  | cons x es ih =>
    rw [List.length_cons] at hn ⊢
    have hstep : countKey (n, last) x = .ok (n + 1, some x) := by
      rw [countKey, addUsize, if_pos (by dsimp only; omega)]
      rfl
    rw [List.foldlM_cons, hstep, ok_bind, ih (by omega)]
    congr 1
    omega

theorem countKey_seen {out out' : ℕ × Option ℕ} (h : countKey out x = .ok out') : out'.2 = some x := by
  rw [countKey, addUsize] at h
  split_ifs at h with hlt
  · rw [ok_bind] at h
    cases h
    rfl
  · cases h

theorem pushKey_seen {out out' : List ℕ} (h : pushKey out x = .ok out') : out'.getLast? = some x := by
  rw [pushKey] at h
  cases h
  rw [List.getLast?_append, List.getLast?_singleton]
  rfl

theorem sum_getD_map {α : Type} (f : α → ℕ) (l : List α) :
    ∑ i ∈ Finset.range l.length, (l[i]?.map f).getD 0 = (l.map f).sum := by
  induction l with
  | nil => rfl
  | cons y l ih =>
    rw [List.length_cons, Finset.sum_range_succ', List.map_cons, List.sum_cons, ← ih, Nat.add_comm]
    rfl

namespace Correct

variable (hc : K.Correct)

theorem fromBound_zero (l : List ℕ) : fromBound l 0 = l :=
  List.filter_eq_self.mpr fun _ _ => decide_eq_true (Nat.zero_le _)

theorem heapOf_lanes (hl : ∀ s ∈ lanes, hc.Ok s) : hc.Lanes lanes (fun _ => 0) (K.heapOf lanes) := by
  refine ⟨?_, fun k i => ?_⟩
  · have hidx : (lanes.zipIdx.map Prod.snd).Nodup := by
      rw [List.zipIdx_map_snd]
      exact List.nodup_range'
    rw [heapOf, List.Nodup, List.pairwise_filterMap]
    refine (List.pairwise_map.mp hidx).imp ?_
    intro p q hne a ha a' ha' heq
    obtain ⟨k, -, rfl⟩ := Option.map_eq_some_iff.mp ha
    obtain ⟨k', -, rfl⟩ := Option.map_eq_some_iff.mp ha'
    exact hne (Prod.mk.inj heq).2
  · rw [heapOf, List.mem_filterMap]
    constructor
    · rintro ⟨⟨s, j⟩, hmem, heq⟩
      obtain ⟨k', hk', heq⟩ := Option.map_eq_some_iff.mp heq
      cases heq
      have hat := List.mk_mem_zipIdx_iff_getElem?.mp hmem
      rw [hc.first_eq (hl s (List.mem_of_getElem? hat))] at hk'
      exact ⟨s, hat, by rw [fromBound_zero, hk']⟩
    · rintro ⟨s, hat, hk⟩
      rw [fromBound_zero] at hk
      refine ⟨(s, i), List.mk_mem_zipIdx_iff_getElem?.mpr hat, ?_⟩
      rw [hc.first_eq (hl s (List.mem_of_getElem? hat)), hk]
      rfl

/-- At the start every key of every lane is still to be handed out. -/
theorem pending_start : hc.Pending lanes (fun _ => 0) x ↔ x ∈ hc.covered lanes := by
  rw [hc.mem_covered]
  constructor
  · rintro ⟨i, s, hs, hx, -⟩
    exact ⟨s, List.mem_of_getElem? hs, hx⟩
  · rintro ⟨s, hs, hx⟩
    obtain ⟨i, hi⟩ := List.mem_iff_getElem?.mp hs
    exact ⟨i, s, hi, hx, Nat.zero_le _⟩

theorem sum_left_start (hl : ∀ s ∈ lanes, hc.Ok s) :
    ∑ i ∈ Finset.range lanes.length, hc.left lanes (fun _ => 0) i = (lanes.map K.len).sum := by
  rw [← sum_getD_map]
  refine Finset.sum_congr rfl fun i hi => ?_
  rw [left]
  cases hs : lanes[i]? with
  | none => rfl
  | some s =>
    rw [Option.map_some, Option.map_some, fromBound_zero, hc.len_eq (hl s (List.mem_of_getElem? hs))]

theorem covered_subset (hl : ∀ s ∈ sets, hc.Ok s) : hc.covered sets ⊆ Finset.range KEYS := by
  intro x hx
  obtain ⟨s, hs, hk⟩ := hc.mem_covered.mp hx
  exact Finset.mem_range.mpr (hc.lt_keys (hl s hs) hk)

theorem card_covered_le (hl : ∀ s ∈ sets, hc.Ok s) : (hc.covered sets).card ≤ (sets.map K.len).sum := by
  induction sets with
  | nil => exact le_rfl
  | cons s sets ih =>
    have hrest := ih fun t ht => hl t (List.mem_cons_of_mem _ ht)
    have hunion := Finset.card_union_le (hc.set s) (hc.covered sets)
    rw [hc.card_set (hl s List.mem_cons_self)] at hunion
    rw [covered, List.foldr_cons, ← covered, List.map_cons, List.sum_cons]
    omega

theorem len_le_sum (hs : s ∈ sets) : K.len s ≤ (sets.map K.len).sum :=
  List.single_le_sum (fun _ _ => Nat.zero_le _) _ (List.mem_map_of_mem hs)

theorem isEmpty_iff (hs : hc.Ok s) : K.isEmpty s = true ↔ hc.keys s = [] := by
  rw [isEmpty, beq_iff_eq, hc.len_eq hs, List.length_eq_zero_iff]

theorem active_ok (hl : ∀ s ∈ sets, hc.Ok s) : ∀ s ∈ K.active sets, hc.Ok s := fun s hs =>
  hl s (List.mem_filter.mp hs).1

theorem covered_active (hl : ∀ s ∈ sets, hc.Ok s) : hc.covered (K.active sets) = hc.covered sets := by
  ext x
  rw [hc.mem_covered, hc.mem_covered]
  constructor
  · rintro ⟨s, hs, hx⟩
    exact ⟨s, (List.mem_filter.mp hs).1, hx⟩
  · rintro ⟨s, hs, hx⟩
    refine ⟨s, List.mem_filter.mpr ⟨hs, ?_⟩, hx⟩
    rw [Bool.not_eq_true', Bool.eq_false_iff, ne_eq, hc.isEmpty_iff (hl s hs)]
    intro hnil
    rw [hnil] at hx
    cases hx

theorem sum_active_le (sets : List K.Set) : ((K.active sets).map K.len).sum ≤ (sets.map K.len).sum :=
  (List.filter_sublist.map K.len).sum_le_sum fun _ _ => Nat.zero_le _

/-- A key of the intersection. That of no sets is empty. -/
def Common (sets : List K.Set) (x : ℕ) : Prop := sets ≠ [] ∧ ∀ s ∈ sets, x ∈ hc.set s

theorem not_common_of_empty (hl : ∀ s ∈ sets, hc.Ok s) (h : sets.any K.isEmpty = true) : ¬hc.Common sets x := by
  rintro ⟨-, hall⟩
  obtain ⟨s, hs, hempty⟩ := List.any_eq_true.mp h
  have hx := hc.mem_set.mp (hall s hs)
  rw [(hc.isEmpty_iff (hl s hs)).mp hempty] at hx
  cases hx

theorem sortByLen_ne_nil (hne : sets ≠ []) : K.sortByLen sets ≠ [] := fun h =>
  hne (List.Perm.nil_eq (h ▸ List.mergeSort_perm sets _)).symm

theorem leapfrog_start {emit : β → ℕ → Except Fault β} {out : β} {others : List K.Set}
    (hl : ∀ s ∈ sets, hc.Ok s) (hsort : K.sortByLen sets = s :: others) (hfuel : (sets.map K.len).sum < fuel) :
    ∃ es : List ℕ, es.Pairwise (· < ·) ∧ (∀ x, x ∈ es ↔ hc.Common sets x) ∧
      K.leapfrog emit s others fuel (K.first s) out = es.foldlM emit out := by
  have hperm : (s :: others).Perm sets := hsort ▸ List.mergeSort_perm sets _
  have hmem : ∀ {t}, t ∈ s :: others ↔ t ∈ sets := hperm.mem_iff
  have hs := hl s (hmem.mp List.mem_cons_self)
  have ho : ∀ o ∈ others, hc.Ok o := fun o ho => hl o (hmem.mp (List.mem_cons_of_mem _ ho))
  have hlen : (fromBound (hc.keys s) 0).length < fuel := by
    rw [fromBound_zero, ← hc.len_eq hs]
    exact (len_le_sum (hmem.mp List.mem_cons_self)).trans_lt hfuel
  have hrun : K.leapfrog emit s others fuel (fromBound (hc.keys s) 0).head? out =
      ((fromBound (hc.keys s) 0).filter (hc.InAll others ·)).foldlM emit out := hc.leapfrog_eq hs ho hlen
  rw [fromBound_zero] at hrun
  refine ⟨(hc.keys s).filter (hc.InAll others ·), (hc.sorted hs).filter _, fun x => ?_, ?_⟩
  · rw [List.mem_filter, decide_eq_true_eq]
    constructor
    · rintro ⟨hx, hin⟩
      refine ⟨List.ne_nil_of_mem (hmem.mp List.mem_cons_self), fun t ht => hc.mem_set.mpr ?_⟩
      rcases List.mem_cons.mp (hmem.mpr ht) with rfl | ht
      · exact hx
      · exact hin t ht
    · rintro ⟨-, hall⟩
      exact ⟨hc.mem_set.mp (hall s (hmem.mp List.mem_cons_self)), fun t ht =>
        hc.mem_set.mp (hall t (hmem.mp (List.mem_cons_of_mem _ ht)))⟩
  · rw [hc.first_eq hs]
    exact hrun

theorem common_singleton : hc.Common [s] x ↔ x ∈ hc.set s := by
  simp [Common]

theorem common_pair : hc.Common [s, t] x ↔ x ∈ hc.set s ∩ hc.set t := by
  simp [Common]

theorem lt_of_common (hl : ∀ s ∈ sets, hc.Ok s) (h : hc.Common sets x) : x < KEYS := by
  obtain ⟨hne, hall⟩ := h
  obtain ⟨s, hs⟩ := List.exists_mem_of_ne_nil sets hne
  exact hc.lt_keys (hl s hs) (hc.mem_set.mp (hall s hs))

theorem built (hes : es.Pairwise (· < ·)) (hlt : ∀ k ∈ es, k < KEYS) :
    ∃ r, K.fromSortedIter es = .ok r ∧ hc.Ok r ∧ ∀ x, x ∈ hc.set r ↔ x ∈ es := by
  obtain ⟨r, hr, hok, hkeys⟩ := hc.fromSortedIter_ok hes hlt
  exact ⟨r, hr, hok, fun x => by rw [hc.mem_set, hkeys]⟩

theorem copied (hs : hc.Ok s) :
    ∃ r, K.fromSortedIter (K.iter s) = .ok r ∧ hc.Ok r ∧ ∀ x, x ∈ hc.set r ↔ x ∈ hc.set s := by
  rw [hc.iter_eq hs]
  obtain ⟨r, hr, hok, hkeys⟩ := hc.built (hc.sorted hs) fun k hk => hc.lt_keys hs hk
  exact ⟨r, hr, hok, fun x => by rw [hkeys, hc.mem_set]⟩

theorem new_empty : x ∉ hc.set K.new := by
  rw [hc.mem_set, hc.keys_new]
  exact List.not_mem_nil

theorem intersectionMany_spec (hl : ∀ s ∈ sets, hc.Ok s) (hfuel : (sets.map K.len).sum < fuel) :
    ∃ r, K.intersectionMany fuel sets = .ok r ∧ hc.Ok r ∧ ∀ x, x ∈ hc.set r ↔ hc.Common sets x := by
  rcases sets with _ | ⟨s, _ | ⟨t, _ | ⟨u, rest⟩⟩⟩
  · exact ⟨K.new, rfl, hc.new_ok, fun x => iff_of_false hc.new_empty fun h => h.1 rfl⟩
  · obtain ⟨r, hr, hok, hkeys⟩ := hc.copied (hl s (by simp))
    exact ⟨r, hr, hok, fun x => by rw [hkeys, common_singleton]⟩
  · obtain ⟨r, hr, hok, hkeys⟩ := hc.mergeSets_spec (hl s (by simp)) (hl t (by simp)) (by simpa using hfuel)
    refine ⟨r, hr, hok, fun x => ?_⟩
    rw [hkeys, common_pair, Finset.mem_inter, hc.mem_set, hc.mem_set]
    simp [Wanted]
  · rw [intersectionMany.eq_def]
    dsimp only
    split_ifs with hempty
    · exact ⟨K.new, rfl, hc.new_ok, fun x => iff_of_false hc.new_empty (hc.not_common_of_empty hl hempty)⟩
    · cases hsort : K.sortByLen (s :: t :: u :: rest) with
      | nil => exact absurd hsort (sortByLen_ne_nil (by simp))
      | cons driver others =>
        obtain ⟨es, hes, hmem, hrun⟩ := hc.leapfrog_start hl hsort hfuel
        obtain ⟨r, hr, hok, hkeys⟩ := hc.built hes fun k hk => hc.lt_of_common hl ((hmem k).mp hk)
        refine ⟨r, ?_, hok, fun x => by rw [hkeys, hmem]⟩
        dsimp only
        rw [hrun, foldlM_pushKey]
        exact hr

theorem intersectionLenMany_eq (hl : ∀ s ∈ sets, hc.Ok s) (hfuel : (sets.map K.len).sum < fuel) {F : Finset ℕ}
    (hF : ∀ x, x ∈ F ↔ hc.Common sets x) : K.intersectionLenMany fuel sets = .ok F.card := by
  rcases sets with _ | ⟨s, _ | ⟨t, _ | ⟨u, rest⟩⟩⟩
  · have hnil : F = ∅ := Finset.eq_empty_of_forall_notMem fun x hx => ((hF x).mp hx).1 rfl
    rw [hnil]
    rfl
  · have heq : F = hc.set s := Finset.ext fun x => by rw [hF, common_singleton]
    rw [heq, hc.card_set (hl s (by simp))]
    rfl
  · have heq : F = hc.set s ∩ hc.set t := Finset.ext fun x => by rw [hF, common_pair]
    rw [heq, intersectionLenMany]
    exact hc.intersectionLen_eq (hl s (by simp)) (hl t (by simp)) (by simpa using hfuel)
  · rw [intersectionLenMany.eq_def]
    dsimp only
    split_ifs with hempty
    · have hnil : F = ∅ := Finset.eq_empty_of_forall_notMem fun x hx =>
        hc.not_common_of_empty hl hempty ((hF x).mp hx)
      rw [hnil]
      rfl
    · cases hsort : K.sortByLen (s :: t :: u :: rest) with
      | nil => exact absurd hsort (sortByLen_ne_nil (by simp))
      | cons driver others =>
        obtain ⟨es, hes, hmem, hrun⟩ := hc.leapfrog_start hl hsort hfuel
        have hlen : es.length = F.card := length_eq_card hes fun x => by rw [hmem, hF]
        have hle : F.card ≤ KEYS := by
          have hsub : F ⊆ Finset.range KEYS := fun x hx =>
            Finset.mem_range.mpr (hc.lt_of_common hl ((hF x).mp hx))
          simpa using Finset.card_le_card hsub
        rw [KEYS] at hle
        dsimp only
        rw [hrun, foldlM_countOne (by omega), Nat.zero_add, hlen]

def Handed (lanes : List K.Set) (es : List ℕ) : Prop :=
  es.Pairwise (· < ·) ∧ ∀ x, x ∈ es ↔ x ∈ hc.covered lanes

theorem scan_start (emit : β → ℕ → Except Fault β) (out : β) (hl : ∀ s ∈ lanes, hc.Ok s)
    (hfuel : (lanes.map K.len).sum < fuel) :
    ∃ es, hc.Handed lanes es ∧ K.scanLanes emit lanes fuel (lanes.map K.first) out = es.foldlM emit out := by
  have hcard := Finset.card_filter_le (hc.covered lanes) (0 ≤ ·)
  have hle := hc.card_covered_le hl
  obtain ⟨es, hes, hmem, hrun⟩ := hc.scanLanes_eq (b := 0) hl (hcard.trans_lt (hle.trans_lt hfuel))
  have hfirst : lanes.map K.first = lanes.map fun s => (fromBound (hc.keys s) 0).head? :=
    List.map_congr_left fun s hs => by rw [fromBound_zero, hc.first_eq (hl s hs)]
  refine ⟨es, ⟨hes, fun x => by simp [hmem]⟩, ?_⟩
  rw [hfirst]
  exact hrun out

theorem heap_start (emit : β → ℕ → Except Fault β) (seen : β → Option ℕ)
    (hseen : ∀ out x out', emit out x = .ok out' → seen out' = some x) (out : β) (hout : seen out = none)
    (hl : ∀ s ∈ lanes, hc.Ok s) (hfuel : (lanes.map K.len).sum < fuel) :
    ∃ es, hc.Handed lanes es ∧ K.heapMerge seen emit lanes fuel (K.heapOf lanes) out = es.foldlM emit out := by
  rw [← hc.sum_left_start hl] at hfuel
  have hnone : ∀ ℓ, (none : Option ℕ) = some ℓ → ∀ x, hc.Pending lanes (fun _ => 0) x → ℓ ≤ x :=
    fun _ hℓ => by cases hℓ
  obtain ⟨es, hes, hmem, hrun⟩ := hc.heapMerge_eq hl hseen (hc.heapOf_lanes hl) hnone hfuel
  refine ⟨es, ⟨hes, fun x => ?_⟩, hrun out hout⟩
  rw [hmem, hc.pending_start]
  simp

theorem covered_singleton : hc.covered [s] = hc.set s := Finset.union_empty _

theorem covered_pair : hc.covered [s, t] = hc.set s ∪ hc.set t := by
  rw [covered, List.foldr_cons, ← covered, covered_singleton]

theorem lt_of_covered (hl : ∀ s ∈ sets, hc.Ok s) (h : x ∈ hc.covered sets) : x < KEYS :=
  Finset.mem_range.mp (hc.covered_subset hl h)

theorem unionMany_spec (hl : ∀ s ∈ sets, hc.Ok s) (hfuel : (sets.map K.len).sum < fuel) :
    ∃ r, K.unionMany fuel sets = .ok r ∧ hc.Ok r ∧ ∀ x, x ∈ hc.set r ↔ x ∈ hc.covered sets := by
  have hactive := hc.active_ok hl
  have hsum := (sum_active_le sets).trans_lt hfuel
  rw [unionMany, ← hc.covered_active hl]
  generalize K.active sets = lanes at hactive hsum ⊢
  rcases lanes with _ | ⟨s, _ | ⟨t, _ | ⟨u, rest⟩⟩⟩
  · exact ⟨K.new, rfl, hc.new_ok, fun x => iff_of_false hc.new_empty (by simp [covered])⟩
  · obtain ⟨r, hr, hok, hkeys⟩ := hc.copied (hactive s (by simp))
    exact ⟨r, hr, hok, fun x => by rw [hkeys, covered_singleton]⟩
  · obtain ⟨r, hr, hok, hkeys⟩ :=
      hc.mergeSets_spec (hactive s (by simp)) (hactive t (by simp)) (by simpa using hsum)
    refine ⟨r, hr, hok, fun x => ?_⟩
    rw [hkeys, covered_pair, Finset.mem_union, hc.mem_set, hc.mem_set]
    simp only [Wanted]
    tauto
  · dsimp only
    split_ifs with hfew
    · obtain ⟨es, ⟨hes, hmem⟩, hrun⟩ := hc.scan_start pushKey [] hactive hsum
      obtain ⟨r, hr, hok, hkeys⟩ := hc.built hes fun k hk => hc.lt_of_covered hactive ((hmem k).mp hk)
      refine ⟨r, ?_, hok, fun x => by rw [hkeys, hmem]⟩
      rw [hrun, foldlM_pushKey]
      exact hr
    · obtain ⟨es, ⟨hes, hmem⟩, hrun⟩ :=
        hc.heap_start pushKey List.getLast? (fun _ _ _ => pushKey_seen) [] rfl hactive hsum
      obtain ⟨r, hr, hok, hkeys⟩ := hc.built hes fun k hk => hc.lt_of_covered hactive ((hmem k).mp hk)
      refine ⟨r, ?_, hok, fun x => by rw [hkeys, hmem]⟩
      rw [hrun, foldlM_pushKey]
      exact hr

theorem card_covered_bound (hl : ∀ s ∈ sets, hc.Ok s) : (hc.covered sets).card ≤ KEYS := by
  simpa using Finset.card_le_card (hc.covered_subset hl)

theorem unionLenMany_eq (hl : ∀ s ∈ sets, hc.Ok s) (hfuel : (sets.map K.len).sum < fuel) :
    K.unionLenMany fuel sets = .ok (hc.covered sets).card := by
  have hactive := hc.active_ok hl
  have hsum := (sum_active_le sets).trans_lt hfuel
  have hle := hc.card_covered_bound hactive
  rw [KEYS] at hle
  rw [unionLenMany, ← hc.covered_active hl]
  generalize K.active sets = lanes at hactive hsum hle ⊢
  rcases lanes with _ | ⟨s, _ | ⟨t, _ | ⟨u, rest⟩⟩⟩
  · rfl
  · rw [covered_singleton, hc.card_set (hactive s (by simp))]
  · rw [covered_pair]
    exact hc.unionLen_eq (hactive s (by simp)) (hactive t (by simp)) (by simpa using hsum)
  · dsimp only
    split_ifs with hfew
    · obtain ⟨es, ⟨hes, hmem⟩, hrun⟩ := hc.scan_start countOne 0 hactive hsum
      have hlen := length_eq_card hes hmem
      rw [hrun, foldlM_countOne (by omega), Nat.zero_add, hlen]
    · obtain ⟨es, ⟨hes, hmem⟩, hrun⟩ :=
        hc.heap_start countKey Prod.snd (fun _ _ _ => countKey_seen) (0, none) rfl hactive hsum
      have hlen := length_eq_card hes hmem
      rw [hrun, foldlM_countKey (by omega), Nat.zero_add, hlen]

theorem intersection_spec (hs : hc.Ok s) (ht : hc.Ok t) (hfuel : K.len s + K.len t < fuel) :
    ∃ r, K.intersection fuel s t = .ok r ∧ hc.Ok r ∧ hc.set r = hc.set s ∩ hc.set t := by
  obtain ⟨r, hr, hok, hkeys⟩ := hc.mergeSets_spec hs ht hfuel
  refine ⟨r, hr, hok, Finset.ext fun x => ?_⟩
  rw [hkeys, Finset.mem_inter, hc.mem_set, hc.mem_set]
  simp [Wanted]

theorem union_spec (hs : hc.Ok s) (ht : hc.Ok t) (hfuel : K.len s + K.len t < fuel) :
    ∃ r, K.union fuel s t = .ok r ∧ hc.Ok r ∧ hc.set r = hc.set s ∪ hc.set t := by
  obtain ⟨r, hr, hok, hkeys⟩ := hc.mergeSets_spec hs ht hfuel
  refine ⟨r, hr, hok, Finset.ext fun x => ?_⟩
  rw [hkeys, Finset.mem_union, hc.mem_set, hc.mem_set]
  simp only [Wanted]
  tauto

theorem difference_spec (hs : hc.Ok s) (ht : hc.Ok t) (hfuel : K.len s + K.len t < fuel) :
    ∃ r, K.difference fuel s t = .ok r ∧ hc.Ok r ∧ hc.set r = hc.set s \ hc.set t := by
  obtain ⟨r, hr, hok, hkeys⟩ := hc.mergeSets_spec hs ht hfuel
  refine ⟨r, hr, hok, Finset.ext fun x => ?_⟩
  rw [hkeys, Finset.mem_sdiff, hc.mem_set, hc.mem_set]
  simp [Wanted]

theorem symmetricDifference_spec (hs : hc.Ok s) (ht : hc.Ok t) (hfuel : K.len s + K.len t < fuel) :
    ∃ r, K.symmetricDifference fuel s t = .ok r ∧ hc.Ok r ∧ hc.set r = symmDiff (hc.set s) (hc.set t) := by
  obtain ⟨r, hr, hok, hkeys⟩ := hc.mergeSets_spec hs ht hfuel
  refine ⟨r, hr, hok, Finset.ext fun x => ?_⟩
  rw [hkeys, Finset.mem_symmDiff, hc.mem_set, hc.mem_set]
  simp only [Wanted]
  tauto

end Correct

/-- Whatever the number of operands, every loop ends and hands out the exact result, and every
length is the cardinality of that result. -/
theorem algebra_exact (hc : K.Correct) :
    (∀ s t fuel, hc.Ok s → hc.Ok t → K.len s + K.len t < fuel →
      (∃ r, K.intersection fuel s t = .ok r ∧ hc.Ok r ∧ hc.set r = hc.set s ∩ hc.set t) ∧
      (∃ r, K.union fuel s t = .ok r ∧ hc.Ok r ∧ hc.set r = hc.set s ∪ hc.set t) ∧
      (∃ r, K.difference fuel s t = .ok r ∧ hc.Ok r ∧ hc.set r = hc.set s \ hc.set t) ∧
      (∃ r, K.symmetricDifference fuel s t = .ok r ∧ hc.Ok r ∧
        hc.set r = symmDiff (hc.set s) (hc.set t)) ∧
      K.intersectionLen fuel s t = .ok (hc.set s ∩ hc.set t).card ∧
      K.unionLen fuel s t = .ok (hc.set s ∪ hc.set t).card ∧
      K.differenceLen fuel s t = .ok (hc.set s \ hc.set t).card ∧
      K.symmetricDifferenceLen fuel s t = .ok (symmDiff (hc.set s) (hc.set t)).card) ∧
    ∀ sets fuel, (∀ s ∈ sets, hc.Ok s) → (sets.map K.len).sum < fuel →
      (∃ r, K.intersectionMany fuel sets = .ok r ∧ hc.Ok r ∧
        (∀ x, x ∈ hc.set r ↔ sets ≠ [] ∧ ∀ s ∈ sets, x ∈ hc.set s) ∧
        K.intersectionLenMany fuel sets = .ok (hc.set r).card) ∧
      ∃ r, K.unionMany fuel sets = .ok r ∧ hc.Ok r ∧
        (∀ x, x ∈ hc.set r ↔ ∃ s ∈ sets, x ∈ hc.set s) ∧
        K.unionLenMany fuel sets = .ok (hc.set r).card := by
  refine ⟨fun s t fuel hs ht hfuel => ?_, fun sets fuel hl hfuel => ⟨?_, ?_⟩⟩
  · exact ⟨hc.intersection_spec hs ht hfuel, hc.union_spec hs ht hfuel, hc.difference_spec hs ht hfuel,
      hc.symmetricDifference_spec hs ht hfuel, hc.intersectionLen_eq hs ht hfuel,
      hc.unionLen_eq hs ht hfuel, hc.differenceLen_eq hs ht hfuel, hc.symmetricDifferenceLen_eq hs ht hfuel⟩
  · obtain ⟨r, hr, hok, hkeys⟩ := hc.intersectionMany_spec hl hfuel
    exact ⟨r, hr, hok, hkeys, hc.intersectionLenMany_eq hl hfuel hkeys⟩
  · obtain ⟨r, hr, hok, hkeys⟩ := hc.unionMany_spec hl hfuel
    have heq : hc.set r = hc.covered sets := Finset.ext hkeys
    refine ⟨r, hr, hok, fun x => ?_, by rw [heq, hc.unionLenMany_eq hl hfuel]⟩
    rw [hkeys, hc.mem_covered]
    simp only [hc.mem_set]

end KeySet

end Expanse.Set32
