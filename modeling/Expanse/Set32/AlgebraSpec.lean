import Mathlib
import Expanse.Set32.Algebra
import Expanse.Library.Ensures

/-!
# The set algebra is exact

`Correct` is the contract of the operations the algebra calls: a set is the ascending
list of its keys, and the searches read it. Each loop hands out the wanted keys in
ascending order and stops within as many steps as there are keys: a merge holds what is
left of both operands, the leapfrog search and the scan of the lanes a bound below which
everything is settled, the heap one such bound for each lane.
-/

namespace Expanse.Set32

open Merges

namespace KeySet

variable (K : KeySet)

/-- The operations keep an ascending list of keys. -/
structure Correct where
  Ok : K.Set → Prop
  keys : K.Set → List ℕ
  new_ok : Ok K.new
  keys_new : keys K.new = []
  sorted : ∀ {s}, Ok s → (keys s).Pairwise (· < ·)
  lt_keys : ∀ {s k}, Ok s → k ∈ keys s → k < KEYS
  fromSortedIter_ok : ∀ {l : List ℕ}, l.Pairwise (· < ·) → (∀ k ∈ l, k < KEYS) →
    ∃ s, K.fromSortedIter l = .ok s ∧ Ok s ∧ keys s = l
  insert_ok : ∀ {s k}, Ok s → k < KEYS →
    ∃ b s', K.insert s k = .ok (b, s') ∧ Ok s' ∧ ∀ x, x ∈ keys s' ↔ x = k ∨ x ∈ keys s
  len_eq : ∀ {s}, Ok s → K.len s = (keys s).length
  first_eq : ∀ {s}, Ok s → K.first s = (keys s).head?
  next_eq : ∀ {s k}, Ok s → k < KEYS → K.next s k = ((keys s).filter (k < ·)).head?
  nextAtOrAfter_eq : ∀ {s k}, Ok s → k < KEYS → K.nextAtOrAfter s k = (fromBound (keys s) k).head?
  iter_eq : ∀ {s}, Ok s → K.iter s = keys s

variable {K} {β : Type} {emit : β → ℕ → Except Fault β} {keep : Keep} {s t : K.Set} {sets : List K.Set}
  {fuel b x : ℕ} {out : β} {es : List ℕ}

theorem foldlM_consIf {wanted : Bool} (l : List ℕ) :
    (consIf wanted x l).foldlM emit out = (emitIf emit wanted out x).bind fun out => l.foldlM emit out := by
  cases wanted <;> rfl

theorem foldlM_pushKey (keys : List ℕ) : es.foldlM pushKey keys = .ok (keys ++ es) := by
  induction es generalizing keys with
  | nil =>
    rw [List.append_nil]
    rfl
  | cons x es ih =>
    rw [List.foldlM_cons, pushKey, ok_bind, ih, List.append_assoc]
    rfl

theorem foldlM_countOne {n : ℕ} (hn : n + es.length < 2 ^ 64) :
    es.foldlM countOne n = .ok (n + es.length) := by
  induction es generalizing n with
  | nil => rfl
  | cons x es ih =>
    rw [List.length_cons] at hn ⊢
    rw [List.foldlM_cons, countOne, addUsize, if_pos (by omega), ok_bind, ih (by omega)]
    congr 1
    omega

namespace Correct

variable (hc : K.Correct)

def set (s : K.Set) : Finset ℕ := (hc.keys s).toFinset

theorem mem_set : x ∈ hc.set s ↔ x ∈ hc.keys s := List.mem_toFinset

theorem nodup_keys (hs : hc.Ok s) : (hc.keys s).Nodup := (hc.sorted hs).imp ne_of_lt

theorem card_set (hs : hc.Ok s) : (hc.set s).card = K.len s := by
  rw [hc.len_eq hs, set, List.toFinset_card_of_nodup (hc.nodup_keys hs)]

theorem set_subset (hs : hc.Ok s) : hc.set s ⊆ Finset.range KEYS := fun _ hx =>
  Finset.mem_range.mpr (hc.lt_keys hs (hc.mem_set.mp hx))

theorem card_le (hs : hc.Ok s) : (hc.set s).card ≤ KEYS := by
  have := Finset.card_le_card (hc.set_subset hs)
  rwa [Finset.card_range] at this

/-- An ascending list with the keys of a set is as long as the set. -/
theorem length_eq_card {F : Finset ℕ} (hes : es.Pairwise (· < ·)) (hF : ∀ x, x ∈ es ↔ x ∈ F) :
    es.length = F.card := by
  rw [← List.toFinset_card_of_nodup (hes.imp ne_of_lt)]
  congr 1
  ext x
  rw [List.mem_toFinset, hF]

theorem foldlM_insertOut (hs : hc.Ok s) (hes : ∀ k ∈ es, k < KEYS) :
    ∃ s', es.foldlM K.insertOut s = .ok s' ∧ hc.Ok s' ∧
      ∀ x, x ∈ hc.keys s' ↔ x ∈ hc.keys s ∨ x ∈ es := by
  induction es generalizing s with
  | nil => exact ⟨s, rfl, hs, by simp⟩
  | cons k es ih =>
    obtain ⟨b, s₁, hins, hs₁, hk₁⟩ := hc.insert_ok hs (hes k List.mem_cons_self)
    obtain ⟨s', hfold, hs', hk'⟩ := ih hs₁ fun k hk => hes k (List.mem_cons_of_mem _ hk)
    refine ⟨s', ?_, hs', fun x => ?_⟩
    · rw [List.foldlM_cons, insertOut, hins]
      exact hfold
    · rw [hk', hk₁, List.mem_cons]
      tauto

theorem next_suffix (hs : hc.Ok s) {l : List ℕ} (hl : x :: l <:+ hc.keys s) : K.next s x = l.head? := by
  rw [hc.next_eq hs (hc.lt_keys hs (hl.subset List.mem_cons_self)), filter_gt_of_suffix (hc.sorted hs) hl]

theorem mergeLoop_eq (hs : hc.Ok s) (ht : hc.Ok t) {l m : List ℕ} (hl : l <:+ hc.keys s)
    (hm : m <:+ hc.keys t) (hfuel : l.length + m.length < fuel) :
    K.mergeLoop keep emit s t fuel l.head? m.head? out = (merge keep l m).foldlM emit out := by
  induction fuel generalizing l m out with
  | zero => omega
  | succ fuel ih =>
    cases l with
    | nil =>
      cases m with
      | nil =>
        rw [nil_merge]
        split_ifs <;> rfl
      | cons y m =>
        have hm' := (List.suffix_cons y m).trans hm
        rw [List.length_cons] at hfuel
        rw [nil_merge, List.head?_cons, List.head?_nil, mergeLoop]
        cases hk : keep.right with
        | false => rfl
        | true =>
          rw [if_pos rfl, if_pos rfl, List.foldlM_cons, hc.next_suffix ht hm]
          congr 1
          funext out
          have hrec := @ih out _ _ hl hm' (by omega)
          rw [nil_merge, hk, if_pos rfl] at hrec
          exact hrec
    | cons x l =>
      have hl' := (List.suffix_cons x l).trans hl
      cases m with
      | nil =>
        rw [List.length_cons] at hfuel
        rw [merge_nil, List.head?_cons, List.head?_nil, mergeLoop]
        cases hk : keep.left with
        | false => rfl
        | true =>
          rw [if_pos rfl, if_pos rfl, List.foldlM_cons, hc.next_suffix hs hl]
          congr 1
          funext out
          have hrec := @ih out _ _ hl' hm (by omega)
          rw [merge_nil, hk, if_pos rfl] at hrec
          exact hrec
      | cons y m =>
        have hm' := (List.suffix_cons y m).trans hm
        rw [List.length_cons, List.length_cons] at hfuel
        rw [List.head?_cons, List.head?_cons, mergeLoop, hc.next_suffix hs hl, hc.next_suffix ht hm]
        rcases Nat.lt_trichotomy x y with hlt | rfl | hgt
        · rw [if_pos hlt, merge_cons_lt hlt, foldlM_consIf]
          congr 1
          funext out
          exact ih hl' hm (by rw [List.length_cons]; omega)
        · rw [if_neg (by omega), if_neg (by omega), merge_cons_eq, foldlM_consIf]
          congr 1
          funext out
          exact ih hl' hm' (by omega)
        · rw [if_neg (by omega), if_pos hgt, merge_cons_gt hgt, foldlM_consIf]
          congr 1
          funext out
          exact ih hl hm' (by rw [List.length_cons]; omega)

theorem mergeLoop_start (hs : hc.Ok s) (ht : hc.Ok t) (hfuel : K.len s + K.len t < fuel) :
    K.mergeLoop keep emit s t fuel (K.first s) (K.first t) out =
      (merge keep (hc.keys s) (hc.keys t)).foldlM emit out := by
  rw [hc.len_eq hs, hc.len_eq ht] at hfuel
  rw [hc.first_eq hs, hc.first_eq ht]
  exact hc.mergeLoop_eq hs ht List.suffix_rfl List.suffix_rfl hfuel

theorem mergeSets_spec (hs : hc.Ok s) (ht : hc.Ok t) (hfuel : K.len s + K.len t < fuel) :
    ∃ r, K.mergeSets keep fuel s t = .ok r ∧ hc.Ok r ∧
      ∀ x, x ∈ hc.set r ↔ Wanted keep (hc.keys s) (hc.keys t) x := by
  have hsorted := hc.sorted hs
  have hsorted' := hc.sorted ht
  have hlt : ∀ k ∈ merge keep (hc.keys s) (hc.keys t), k < KEYS := by
    intro k hk
    rcases mem_or_mem_of_merge hsorted hsorted' hk with hk | hk
    · exact hc.lt_keys hs hk
    · exact hc.lt_keys ht hk
  obtain ⟨r, hr, hok, hkeys⟩ := hc.foldlM_insertOut hc.new_ok hlt
  refine ⟨r, ?_, hok, fun x => ?_⟩
  · rw [mergeSets, hc.mergeLoop_start hs ht hfuel]
    exact hr
  · rw [hc.mem_set, hkeys, hc.keys_new, mem_merge hsorted hsorted']
    simp

theorem intersectionLen_eq (hs : hc.Ok s) (ht : hc.Ok t) (hfuel : K.len s + K.len t < fuel) :
    K.intersectionLen fuel s t = .ok (hc.set s ∩ hc.set t).card := by
  have hsorted : (merge ⟨false, true, false⟩ (hc.keys s) (hc.keys t)).Pairwise (· < ·) :=
    merge_sorted (hc.sorted hs) (hc.sorted ht)
  have hlen : (merge ⟨false, true, false⟩ (hc.keys s) (hc.keys t)).length = (hc.set s ∩ hc.set t).card :=
    length_eq_card hsorted fun x => by
      rw [mem_merge (hc.sorted hs) (hc.sorted ht), Finset.mem_inter, hc.mem_set, hc.mem_set]
      simp [Wanted]
  have hinter : hc.set s ∩ hc.set t ⊆ hc.set s := Finset.inter_subset_left
  have hle := (Finset.card_le_card hinter).trans (hc.card_le hs)
  rw [KEYS] at hle
  rw [intersectionLen, hc.mergeLoop_start hs ht hfuel, foldlM_countOne (by omega), hlen, Nat.zero_add]

/-! The identities. No sum overflows and no difference underflows: a set has at most `2 ^ 32` keys. -/

theorem unionLen_eq (hs : hc.Ok s) (ht : hc.Ok t) (hfuel : K.len s + K.len t < fuel) :
    K.unionLen fuel s t = .ok (hc.set s ∪ hc.set t).card := by
  have hcard := Finset.card_union_add_card_inter (hc.set s) (hc.set t)
  have hle := hc.card_le hs
  have hle' := hc.card_le ht
  rw [KEYS] at hle hle'
  rw [unionLen, ← hc.card_set hs, ← hc.card_set ht, addUsize, if_pos (by omega), ok_bind,
    hc.intersectionLen_eq hs ht hfuel, ok_bind, subUsize, if_pos (by omega)]
  congr 1
  omega

theorem differenceLen_eq (hs : hc.Ok s) (ht : hc.Ok t) (hfuel : K.len s + K.len t < fuel) :
    K.differenceLen fuel s t = .ok (hc.set s \ hc.set t).card := by
  have hcard := Finset.card_sdiff_add_card_inter (hc.set s) (hc.set t)
  rw [differenceLen, hc.intersectionLen_eq hs ht hfuel, ok_bind, ← hc.card_set hs, subUsize, if_pos (by omega)]
  congr 1
  omega

theorem symmetricDifferenceLen_eq (hs : hc.Ok s) (ht : hc.Ok t) (hfuel : K.len s + K.len t < fuel) :
    K.symmetricDifferenceLen fuel s t = .ok (symmDiff (hc.set s) (hc.set t)).card := by
  have hcard : (symmDiff (hc.set s) (hc.set t)).card = (hc.set s \ hc.set t).card + (hc.set t \ hc.set s).card :=
    Finset.card_union_of_disjoint disjoint_sdiff_sdiff
  have hl := Finset.card_sdiff_add_card_inter (hc.set s) (hc.set t)
  have hr := Finset.card_sdiff_add_card_inter (hc.set t) (hc.set s)
  rw [Finset.inter_comm] at hr
  have hle := hc.card_le hs
  have hle' := hc.card_le ht
  rw [KEYS] at hle hle'
  rw [symmetricDifferenceLen, ← hc.card_set hs, ← hc.card_set ht, addUsize, if_pos (by omega), ok_bind,
    hc.intersectionLen_eq hs ht hfuel, ok_bind, mulUsize, if_pos (by omega), ok_bind, subUsize,
    if_pos (by omega)]
  congr 1
  omega

theorem probe_spec {others : List K.Set} (ho : ∀ o ∈ others, hc.Ok o) {n c : ℕ} (hb : c < KEYS) :
    (K.probe others n c = none ∧ ∃ o ∈ others, ∀ x ∈ hc.keys o, x < c) ∨
    (K.probe others n c = some (n + others.length, c) ∧ ∀ o ∈ others, c ∈ hc.keys o) ∨
    ∃ n' f, K.probe others n c = some (n', f) ∧ n' < n + others.length ∧ c < f ∧ f < KEYS ∧
      ∃ o ∈ others, ∀ x ∈ hc.keys o, x < c ∨ f ≤ x := by
  induction others generalizing n with
  | nil => exact .inr (.inl ⟨rfl, by simp⟩)
  | cons o others ih =>
    have hok := ho o List.mem_cons_self
    rw [probe, hc.nextAtOrAfter_eq hok hb]
    cases hf : (fromBound (hc.keys o) c).head? with
    | none => exact .inl ⟨rfl, o, List.mem_cons_self, head?_fromBound_eq_none.mp hf⟩
    | some f =>
      obtain ⟨hmem, hcf, hmin⟩ := (head?_fromBound (hc.sorted hok)).mp hf
      dsimp only
      split_ifs with heq
      · subst heq
        rw [List.length_cons]
        rcases ih (n := n + 1) (fun o ho' => ho o (List.mem_cons_of_mem _ ho')) with
          ⟨hnone, o', ho', hlt⟩ | ⟨hall, hmem'⟩ | ⟨n', f', hsome, hn', hlt, hkeys, o', ho', hgap⟩
        · exact .inl ⟨hnone, o', List.mem_cons_of_mem _ ho', hlt⟩
        · refine .inr (.inl ⟨?_, ?_⟩)
          · rw [hall, Nat.add_right_comm, Nat.add_assoc]
          · intro o' ho'
            rcases List.mem_cons.mp ho' with rfl | ho'
            · exact hmem
            · exact hmem' o' ho'
        · exact .inr (.inr ⟨n', f', hsome, by omega, hlt, hkeys, o', List.mem_cons_of_mem _ ho', hgap⟩)
      · refine .inr (.inr ⟨n, f, rfl, by simp, by omega, hc.lt_keys hok hmem, o, List.mem_cons_self, ?_⟩)
        intro x hx
        rcases Nat.lt_or_ge x c with hlt | hge
        · exact .inl hlt
        · exact .inr (hmin x hx hge)

theorem succ_bind (hs : hc.Ok s) (hx : x < KEYS) :
    (checkedSucc x).bind (K.nextAtOrAfter s) = (fromBound (hc.keys s) (x + 1)).head? := by
  rw [checkedSucc]
  split_ifs with hlt
  · exact hc.nextAtOrAfter_eq hs hlt
  · rw [Option.bind_none, eq_comm, head?_fromBound_eq_none]
    intro y hy
    have := hc.lt_keys hs hy
    omega

def InAll (others : List K.Set) (x : ℕ) : Prop := ∀ o ∈ others, x ∈ hc.keys o

instance instDecidableInAll (others : List K.Set) (x : ℕ) : Decidable (hc.InAll others x) :=
  inferInstanceAs (Decidable (∀ o ∈ others, _))

/-- From a bound on the search hands out the keys of the driver that all the others hold. -/
theorem leapfrog_eq (hs : hc.Ok s) {others : List K.Set} (ho : ∀ o ∈ others, hc.Ok o)
    (hfuel : (fromBound (hc.keys s) b).length < fuel) :
    K.leapfrog emit s others fuel (fromBound (hc.keys s) b).head? out =
      ((fromBound (hc.keys s) b).filter (hc.InAll others ·)).foldlM emit out := by
  induction fuel generalizing b out with
  | zero => omega
  | succ fuel ih =>
    have hsorted := hc.sorted hs
    cases hl : fromBound (hc.keys s) b with
    | nil => rfl
    | cons c l =>
      have hc' : c ∈ fromBound (hc.keys s) b := by
        rw [hl]
        exact List.mem_cons_self
      obtain ⟨hcs, hbc⟩ := mem_fromBound.mp hc'
      have hlt := hc.lt_keys hs hcs
      have hascending := fromBound_sorted (b := b) hsorted
      rw [hl] at hascending hfuel
      rw [List.length_cons] at hfuel
      have hbeyond : ∀ f, c < f → fromBound (hc.keys s) f = l.filter (f ≤ ·) :=
        fun f hf => fromBound_of_head hl hf
      rw [List.head?_cons, leapfrog]
      rcases hc.probe_spec ho (n := 1) hlt with
        ⟨hnone, o, ho', hgone⟩ | ⟨hall, hmem⟩ | ⟨n', f, hsome, hn', hcf, hf, o, ho', hgap⟩
      · rw [hnone]
        have hnil : (c :: l).filter (hc.InAll others ·) = [] := by
          rw [List.filter_eq_nil_iff]
          intro y hy
          have hcy : c ≤ y := by
            rcases List.mem_cons.mp hy with rfl | hy
            · exact le_rfl
            · exact ((List.pairwise_cons.mp hascending).1 y hy).le
          rw [decide_eq_true_eq]
          intro hin
          have := hgone y (hin o ho')
          omega
        rw [hnil]
        rfl
      · have htail : l.filter (c + 1 ≤ ·) = l := by
          rw [List.filter_eq_self]
          intro y hy
          exact decide_eq_true ((List.pairwise_cons.mp hascending).1 y hy)
        have hnext := hbeyond (c + 1) (Nat.lt_succ_self c)
        rw [htail] at hnext
        rw [hall, List.filter_cons_of_pos (by exact decide_eq_true hmem), List.foldlM_cons]
        dsimp only
        rw [if_pos (Nat.add_comm 1 others.length), hc.succ_bind hs hlt]
        congr 1
        funext out
        rw [ih (by rw [hnext]; omega), hnext]
      · rw [hsome]
        dsimp only
        have hnext := hbeyond f hcf
        have hle := List.length_filter_le (fun y => decide (f ≤ y)) l
        have hnot : ¬ hc.InAll others c := fun hin => by
          rcases hgap c (hin o ho') with h | h <;> omega
        rw [if_neg (by omega), hc.nextAtOrAfter_eq hs hf, ih (by rw [hnext]; omega), hnext,
          List.filter_cons_of_neg (by simpa using hnot), List.filter_filter]
        congr 1
        apply List.filter_congr
        intro y hy
        rw [← Bool.decide_and, decide_eq_decide]
        refine ⟨fun h => h.1, fun hin => ⟨hin, ?_⟩⟩
        have hcy := (List.pairwise_cons.mp hascending).1 y hy
        rcases hgap y (hin o ho') with h | h <;> omega

noncomputable def covered (sets : List K.Set) : Finset ℕ := sets.foldr (fun s F => hc.set s ∪ F) ∅

theorem mem_covered : x ∈ hc.covered sets ↔ ∃ s ∈ sets, x ∈ hc.keys s := by
  induction sets with
  | nil => simp [covered]
  | cons s sets ih =>
    rw [covered, List.foldr_cons, Finset.mem_union, ← covered, ih, hc.mem_set]
    simp

end Correct

/-- `mv` is the least key among a key so far and the keys under cursors. -/
def Least (m : Option ℕ) (cursors : List (Option ℕ)) (mv : ℕ) : Prop :=
  (m = some mv ∨ some mv ∈ cursors) ∧ (∀ v, m = some v → mv ≤ v) ∧ ∀ v, some v ∈ cursors → mv ≤ v

theorem minStep_foldl (m : Option ℕ) (cursors : List (Option ℕ)) :
    (cursors.foldl minStep m = none ∧ m = none ∧ ∀ c ∈ cursors, c = none) ∨
      ∃ mv, cursors.foldl minStep m = some mv ∧ Least m cursors mv := by
  induction cursors generalizing m with
  | nil =>
    cases m with
    | none => exact .inl ⟨rfl, rfl, by simp⟩
    | some v => exact .inr ⟨v, rfl, .inl rfl, by simp, by simp⟩
  | cons c cursors ih =>
    rw [List.foldl_cons]
    cases c with
    | none =>
      rcases ih m with ⟨hr, hm, hall⟩ | ⟨mv, hr, hat, hle, hall⟩
      · exact .inl ⟨hr, hm, by simpa using hall⟩
      · exact .inr ⟨mv, hr, hat.imp_right (List.mem_cons_of_mem _), hle, by simpa using hall⟩
    | some w =>
      right
      rcases ih (minStep m (some w)) with ⟨-, hm, -⟩ | ⟨mv, hr, hat, hle, hall⟩
      · cases m <;> cases hm
      · refine ⟨mv, hr, ?_, ?_, ?_⟩
        · rcases hat with hat | hat
          · cases m with
            | none => exact .inr (by rw [← hat]; exact List.mem_cons_self)
            | some u =>
              have hmin : min u w = mv := Option.some.inj hat
              rcases Nat.le_total u w with huw | huw
              · rw [Nat.min_eq_left huw] at hmin
                exact .inl (congrArg some hmin)
              · rw [Nat.min_eq_right huw] at hmin
                exact .inr (by rw [← hmin]; exact List.mem_cons_self)
          · exact .inr (List.mem_cons_of_mem _ hat)
        · rintro v rfl
          have := hle (min v w) rfl
          omega
        · intro v hv
          rcases List.mem_cons.mp hv with hv | hv
          · cases m with
            | none => exact hle v (by rw [hv]; rfl)
            | some u =>
              have hu := hle (min u w) rfl
              have := Option.some.inj hv
              omega
          · exact hall v hv

namespace Correct

variable (hc : K.Correct)

theorem advance_lanes {lanes : List K.Set} (hl : ∀ s ∈ lanes, hc.Ok s) {mv : ℕ} (hmv : mv < KEYS)
    (hmin : ∀ s ∈ lanes, ∀ v ∈ hc.keys s, b ≤ v → mv ≤ v) (hb : b ≤ mv) :
    List.zipWith (fun s c => if c = some mv then (checkedSucc mv).bind (K.nextAtOrAfter s) else c) lanes
      (lanes.map fun s => (fromBound (hc.keys s) b).head?) =
      lanes.map fun s => (fromBound (hc.keys s) (mv + 1)).head? := by
  rw [List.zipWith_map_right, List.zipWith_self]
  apply List.map_congr_left
  intro s hs
  have hsorted := hc.sorted (hl s hs)
  split_ifs with heq
  · exact hc.succ_bind (hl s hs) hmv
  · cases hf : (fromBound (hc.keys s) b).head? with
    | none =>
      rw [eq_comm, head?_fromBound_eq_none]
      intro y hy
      have := head?_fromBound_eq_none.mp hf y hy
      omega
    | some v =>
      rw [hf, Option.some.injEq] at heq
      obtain ⟨hv, hbv, hleast⟩ := (head?_fromBound hsorted).mp hf
      have hle := hmin s hs v hv hbv
      rw [eq_comm, head?_fromBound hsorted]
      exact ⟨hv, by omega, fun y hy hy' => hleast y hy (by omega)⟩

theorem scanLanes_eq {lanes : List K.Set} (hl : ∀ s ∈ lanes, hc.Ok s)
    (hfuel : ((hc.covered lanes).filter (b ≤ ·)).card < fuel) :
    ∃ es : List ℕ, es.Pairwise (· < ·) ∧ (∀ x, x ∈ es ↔ x ∈ hc.covered lanes ∧ b ≤ x) ∧ ∀ out,
      K.scanLanes emit lanes fuel (lanes.map fun s => (fromBound (hc.keys s) b).head?) out =
        es.foldlM emit out := by
  induction fuel generalizing b with
  | zero => omega
  | succ fuel ih =>
    rcases minStep_foldl none (lanes.map fun s => (fromBound (hc.keys s) b).head?) with
      ⟨hnone, -, hall⟩ | ⟨mv, hsome, hat, -, hleast⟩
    · refine ⟨[], .nil, fun x => ?_, fun out => ?_⟩
      · refine iff_of_false (by simp) ?_
        rintro ⟨hx, hb⟩
        obtain ⟨s, hs, hk⟩ := hc.mem_covered.mp hx
        have := head?_fromBound_eq_none.mp (hall _ (List.mem_map_of_mem hs)) x hk
        omega
      · rw [scanLanes, minKey, hnone]
        rfl
    · have hmin : ∀ s ∈ lanes, ∀ v ∈ hc.keys s, b ≤ v → mv ≤ v := by
        intro s hs v hv hbv
        cases hf : (fromBound (hc.keys s) b).head? with
        | none =>
          have := head?_fromBound_eq_none.mp hf v hv
          omega
        | some w =>
          have hw := hleast w (List.mem_map.mpr ⟨s, hs, hf⟩)
          exact hw.trans (((head?_fromBound (hc.sorted (hl s hs))).mp hf).2.2 v hv hbv)
      obtain ⟨s, hs, hf⟩ := List.mem_map.mp (hat.resolve_left (by simp))
      obtain ⟨hmem, hb, -⟩ := (head?_fromBound (hc.sorted (hl s hs))).mp hf
      have hmv := hc.lt_keys (hl s hs) hmem
      have hcov : mv ∈ hc.covered lanes := hc.mem_covered.mpr ⟨s, hs, hmem⟩
      have hcard : ((hc.covered lanes).filter (mv + 1 ≤ ·)).card < ((hc.covered lanes).filter (b ≤ ·)).card := by
        apply Finset.card_lt_card
        rw [Finset.ssubset_iff_of_subset]
        · exact ⟨mv, by simp [hcov, hb], by simp⟩
        · intro x hx
          rw [Finset.mem_filter] at hx ⊢
          exact ⟨hx.1, by omega⟩
      obtain ⟨es, hsorted, hes, hrec⟩ := ih (b := mv + 1) (by omega)
      refine ⟨mv :: es, ?_, fun x => ?_, fun out => ?_⟩
      · exact List.pairwise_cons.mpr ⟨fun x hx => ((hes x).mp hx).2, hsorted⟩
      · rw [List.mem_cons, hes]
        constructor
        · rintro (rfl | ⟨hx, hlt⟩)
          · exact ⟨hcov, hb⟩
          · exact ⟨hx, by omega⟩
        · rintro ⟨hx, hbx⟩
          obtain ⟨t, ht, hk⟩ := hc.mem_covered.mp hx
          have := hmin t ht x hk hbx
          rcases Nat.eq_or_lt_of_le this with heq | hlt
          · exact .inl heq.symm
          · exact .inr ⟨hx, hlt⟩
      · rw [scanLanes, minKey, hsome, List.foldlM_cons]
        dsimp only
        congr 1
        funext out
        rw [hc.advance_lanes hl hmv hmin hb]
        exact hrec out

/-- The heap holds the first key of every lane from the lane's own bound on. -/
structure Lanes (lanes : List K.Set) (bound : ℕ → ℕ) (heap : List (ℕ × ℕ)) : Prop where
  nodup : heap.Nodup
  mem : ∀ k i, (k, i) ∈ heap ↔ ∃ s, lanes[i]? = some s ∧ (fromBound (hc.keys s) (bound i)).head? = some k

def Pending (lanes : List K.Set) (bound : ℕ → ℕ) (x : ℕ) : Prop :=
  ∃ i s, lanes[i]? = some s ∧ x ∈ hc.keys s ∧ bound i ≤ x

/-- The number of keys that a lane still has to hand out. -/
def left (lanes : List K.Set) (bound : ℕ → ℕ) (i : ℕ) : ℕ :=
  ((lanes[i]?.map fun s => (fromBound (hc.keys s) (bound i)).length)).getD 0

end Correct

theorem top_spec (heap : List (ℕ × ℕ)) :
    (top heap = none ∧ heap = []) ∨ ∃ p, top heap = some p ∧ p ∈ heap ∧ ∀ q ∈ heap, p.1 ≤ q.1 := by
  induction heap with
  | nil => exact .inl ⟨rfl, rfl⟩
  | cons p heap ih =>
    right
    rcases ih with ⟨hnone, rfl⟩ | ⟨q, hsome, hmem, hmin⟩
    · exact ⟨p, rfl, by simp, by simp⟩
    · rw [top, hsome]
      dsimp only
      split_ifs with hb
      · refine ⟨p, rfl, List.mem_cons_self, fun r hr => ?_⟩
        rcases List.mem_cons.mp hr with rfl | hr
        · exact le_rfl
        · have := hmin r hr
          rcases hb with hb | hb <;> omega
      · refine ⟨q, rfl, List.mem_cons_of_mem _ hmem, fun r hr => ?_⟩
        rcases List.mem_cons.mp hr with rfl | hr
        · rw [Before, not_or] at hb
          omega
        · exact hmin r hr

namespace Correct

variable (hc : K.Correct) {lanes : List K.Set} {bound : ℕ → ℕ} {heap : List (ℕ × ℕ)} {m i : ℕ}

theorem Lanes.pop (hl : ∀ s ∈ lanes, hc.Ok s) (h : hc.Lanes lanes bound heap) (hs : lanes[i]? = some s)
    (hm : (m, i) ∈ heap) {next : Option ℕ} (hnext : next = (fromBound (hc.keys s) (m + 1)).head?) :
    hc.Lanes lanes (Function.update bound i (m + 1))
      ((next.map (·, i)).toList ++ heap.erase (m, i)) := by
  have hsorted := hc.sorted (hl s (List.mem_of_getElem? hs))
  -- the lane has only its first key in the heap
  have honly : ∀ k, (k, i) ∈ heap → k = m := by
    intro k hk
    obtain ⟨t, ht, hhead⟩ := (h.mem k i).mp hk
    obtain ⟨t', ht', hhead'⟩ := (h.mem m i).mp hm
    rw [ht] at ht'
    cases ht'
    rw [hhead] at hhead'
    exact Option.some.inj hhead'
  have herase : ∀ k, (k, i) ∉ heap.erase (m, i) := by
    intro k hk
    obtain ⟨hne, hk⟩ := (h.nodup.mem_erase_iff).mp hk
    exact hne (by rw [honly k hk])
  have hnextmem : ∀ k j, (k, j) ∈ (next.map (·, i)).toList ↔ next = some k ∧ j = i := by
    intro k j
    cases next with
    | none => simp
    | some v =>
      simp only [Option.map_some, Option.toList_some, List.mem_singleton, Prod.mk.injEq, Option.some.injEq]
      tauto
  refine ⟨?_, fun k j => ?_⟩
  · rw [List.nodup_append]
    refine ⟨?_, h.nodup.erase _, ?_⟩
    · cases next <;> simp
    · rintro ⟨k, j⟩ hk q hq rfl
      obtain ⟨-, rfl⟩ := (hnextmem k j).mp hk
      exact herase k hq
  · rw [List.mem_append, hnextmem]
    by_cases hj : j = i
    · subst hj
      rw [Function.update_self, hs]
      constructor
      · rintro (⟨hk, -⟩ | hk)
        · exact ⟨s, rfl, hnext.symm.trans hk⟩
        · exact absurd hk (herase k)
      · rintro ⟨t, ht, hk⟩
        cases ht
        exact .inl ⟨hnext.trans hk, rfl⟩
    · rw [Function.update_of_ne hj, ← h.mem, h.nodup.mem_erase_iff]
      constructor
      · rintro (⟨-, hc⟩ | hk)
        · exact absurd hc hj
        · exact hk.2
      · intro hk
        exact .inr ⟨fun hc => hj (Prod.mk.inj hc).2, hk⟩

/-- A lane that has moved on has fewer keys left. -/
theorem Pending.of_update (hb : bound i ≤ m) (h : hc.Pending lanes (Function.update bound i (m + 1)) x) :
    hc.Pending lanes bound x := by
  obtain ⟨j, t, ht, hx, hle⟩ := h
  refine ⟨j, t, ht, hx, ?_⟩
  by_cases hj : j = i
  · subst hj
    rw [Function.update_self] at hle
    omega
  · rwa [Function.update_of_ne hj] at hle

theorem Pending.update (h : hc.Pending lanes bound x) (hx : m < x) :
    hc.Pending lanes (Function.update bound i (m + 1)) x := by
  obtain ⟨j, t, ht, hmem, hle⟩ := h
  refine ⟨j, t, ht, hmem, ?_⟩
  by_cases hj : j = i
  · subst hj
    rw [Function.update_self]
    exact hx
  · rwa [Function.update_of_ne hj]

theorem left_update_lt {s : K.Set} (hs : lanes[i]? = some s)
    (hf : (fromBound (hc.keys s) (bound i)).head? = some m) :
    ∑ j ∈ Finset.range lanes.length, hc.left lanes (Function.update bound i (m + 1)) j <
      ∑ j ∈ Finset.range lanes.length, hc.left lanes bound j := by
  have hlt : hc.left lanes (Function.update bound i (m + 1)) i < hc.left lanes bound i := by
    obtain ⟨t, ht⟩ := List.head?_eq_some_iff.mp hf
    rw [left, left, hs, Function.update_self, Option.map_some, Option.map_some, Option.getD_some,
      Option.getD_some, ht, fromBound_of_head ht (Nat.lt_succ_self m), List.length_cons]
    exact Nat.lt_succ_of_le (List.length_filter_le _ t)
  refine Finset.sum_lt_sum (fun j _ => ?_) ⟨i, ?_, hlt⟩
  · by_cases hj : j = i
    · rw [hj]
      exact hlt.le
    · rw [left, left, Function.update_of_ne hj]
  · exact Finset.mem_range.mpr (List.getElem?_eq_some_iff.mp hs).1

/-- The heap merge hands out the keys that the lanes have left, each once and in order. -/
theorem heapMerge_eq {seen : β → Option ℕ} (hl : ∀ s ∈ lanes, hc.Ok s)
    (hseen : ∀ out x out', emit out x = .ok out' → seen out' = some x)
    (h : hc.Lanes lanes bound heap) {last : Option ℕ}
    (hlast : ∀ ℓ, last = some ℓ → ∀ x, hc.Pending lanes bound x → ℓ ≤ x)
    (hfuel : ∑ i ∈ Finset.range lanes.length, hc.left lanes bound i < fuel) :
    ∃ es : List ℕ, es.Pairwise (· < ·) ∧
      (∀ x, x ∈ es ↔ hc.Pending lanes bound x ∧ last ≠ some x) ∧
      ∀ out, seen out = last → K.heapMerge seen emit lanes fuel heap out = es.foldlM emit out := by
  induction fuel generalizing bound heap last with
  | zero => omega
  | succ fuel ih =>
    rcases top_spec heap with ⟨hnone, rfl⟩ | ⟨⟨m, i⟩, hsome, hmem, hmin⟩
    · refine ⟨[], .nil, fun x => iff_of_false (by simp) ?_, fun out _ => ?_⟩
      · rintro ⟨⟨i, s, hs, hx, hb⟩, -⟩
        cases hf : (fromBound (hc.keys s) (bound i)).head? with
        | none =>
          have := head?_fromBound_eq_none.mp hf x hx
          omega
        | some k => cases (h.mem k i).mpr ⟨s, hs, hf⟩
      · rw [heapMerge, hnone]
        rfl
    · obtain ⟨s, hs, hf⟩ := (h.mem m i).mp hmem
      have hok := hl s (List.mem_of_getElem? hs)
      have hsorted := hc.sorted hok
      obtain ⟨hms, hbm, -⟩ := (head?_fromBound hsorted).mp hf
      have hmlt := hc.lt_keys hok hms
      have hpend : hc.Pending lanes bound m := ⟨i, s, hs, hms, hbm⟩
      -- no lane has a key below the one on top
      have hleast : ∀ x, hc.Pending lanes bound x → m ≤ x := by
        rintro x ⟨j, t, ht, hx, hb⟩
        have htok := hl t (List.mem_of_getElem? ht)
        cases hg : (fromBound (hc.keys t) (bound j)).head? with
        | none =>
          have := head?_fromBound_eq_none.mp hg x hx
          omega
        | some k =>
          have hk : m ≤ k := hmin (k, j) ((h.mem k j).mpr ⟨t, ht, hg⟩)
          exact hk.trans (((head?_fromBound (hc.sorted htok)).mp hg).2.2 x hx hb)
      have hpop := h.pop hc hl hs hmem rfl
      have hfuel' := hc.left_update_lt hs hf
      have hnext : ((checkedSucc m).bind fun ns => (lanes[i]?).bind fun s => K.nextAtOrAfter s ns) =
          (fromBound (hc.keys s) (m + 1)).head? := by
        rw [hs]
        exact hc.succ_bind hok hmlt
      have hrec : ∀ out, K.heapMerge seen emit lanes (fuel + 1) heap out =
          (emitIf emit (seen out ≠ some m) out m).bind fun out => K.heapMerge seen emit lanes fuel
            (((fromBound (hc.keys s) (m + 1)).head?.map (·, i)).toList ++ heap.erase (m, i)) out := by
        intro out
        rw [heapMerge, hsome]
        dsimp only
        congr 1
        funext out
        rw [hnext]
        cases (fromBound (hc.keys s) (m + 1)).head? with
        | none => rfl
        | some v => rfl
      by_cases hm : last = some m
      · -- the key was handed out by another lane
        obtain ⟨es, hes, hmemes, hrun⟩ := @ih _ _ hpop last
          (fun ℓ hℓ x hx => hlast ℓ hℓ x (hx.of_update hc hbm)) (by omega)
        refine ⟨es, hes, fun x => (hmemes x).trans ⟨fun ⟨hx, hne⟩ => ⟨hx.of_update hc hbm, hne⟩, ?_⟩, ?_⟩
        · rintro ⟨hx, hne⟩
          have hne' : m ≠ x := fun hmx => hne (hm.trans (congrArg some hmx))
          exact ⟨hx.update hc (lt_of_le_of_ne (hleast x hx) hne'), hne⟩
        · intro out hout
          rw [hrec, hout, hm, emitIf, if_neg (by simp)]
          exact hrun out hout
      · obtain ⟨es, hes, hmemes, hrun⟩ := @ih _ _ hpop (some m)
          (fun ℓ hℓ x hx => (Option.some.inj hℓ) ▸ hleast x (hx.of_update hc hbm)) (by omega)
        have hgt : ∀ x ∈ es, m < x := by
          intro x hx
          obtain ⟨hp, hne⟩ := (hmemes x).mp hx
          exact lt_of_le_of_ne (hleast x (hp.of_update hc hbm)) fun hmx => hne (congrArg some hmx)
        refine ⟨m :: es, List.pairwise_cons.mpr ⟨hgt, hes⟩, fun x => ?_, fun out hout => ?_⟩
        · rw [List.mem_cons, hmemes]
          constructor
          · rintro (rfl | ⟨hx, hne⟩)
            · exact ⟨hpend, hm⟩
            · refine ⟨hx.of_update hc hbm, fun hx' => hne ?_⟩
              have hle := hlast x hx' m hpend
              have hge := hleast x (hx.of_update hc hbm)
              rw [Nat.le_antisymm hge hle]
          · rintro ⟨hx, -⟩
            rcases Nat.eq_or_lt_of_le (hleast x hx) with heq | hlt
            · exact .inl heq.symm
            · exact .inr ⟨hx.update hc hlt, fun hc' => hlt.ne (Option.some.inj hc')⟩
        · rw [hrec, hout, emitIf, if_pos (by simpa using hm), List.foldlM_cons]
          cases he : emit out m with
          | error f => rfl
          | ok out' => exact hrun out' (hseen out m out' he)

end Correct

end KeySet

end Expanse.Set32
