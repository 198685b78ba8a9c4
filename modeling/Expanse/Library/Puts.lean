import Mathlib.Tactic
import Expanse.Library.SortedAssoc

/-!
# Sorted association lists cut at a key

`put` and `del` are the two updates of an ascending association list. Every lemma is
stated on a cut `l₁ ++ (k, v) :: l₂` of the list at the key, because whatever is built
from the entries in order is built from the two sides of the cut.
-/

namespace Expanse.SortedAssoc

variable {α β : Type*} {k : ℕ} {v w : α} {l l₁ l₂ : List (ℕ × α)}

/-- Bind `k` to `v`. -/
def put (k : ℕ) (v : α) : List (ℕ × α) → List (ℕ × α)
  | [] => [(k, v)]
  | e :: l => if k < e.1 then (k, v) :: e :: l else if k = e.1 then (k, v) :: l else e :: put k v l

/-- Drop the binding of `k`. -/
def del (k : ℕ) (l : List (ℕ × α)) : List (ℕ × α) := l.filter (·.1 ≠ k)

/-- `l₁` lies below `k` and `l₂` above it. -/
structure CutAt (k : ℕ) (l₁ l₂ : List (ℕ × α)) : Prop where
  below : ∀ e ∈ l₁, e.1 < k
  above : ∀ e ∈ l₂, k < e.1

theorem lookup_eq_some_iff (hs : KeySorted l) : l.lookup k = some v ↔ (k, v) ∈ l := by
  induction l with
  | nil => simp
  | cons e l ih =>
    obtain ⟨x, y⟩ := e
    obtain ⟨hhead, htail⟩ := List.pairwise_cons.mp hs
    rw [List.lookup_cons, List.mem_cons, Prod.mk.injEq, ← ih htail]
    by_cases hx : k = x
    · subst hx
      have hnone : l.lookup k ≠ some v := by
        rw [Ne, ih htail]
        exact fun hm => Nat.lt_irrefl k (hhead _ hm)
      simp [hnone, eq_comm]
    · simp [beq_eq_false_iff_ne.mpr hx, hx]

theorem lookup_of_mem (hs : KeySorted l) (hm : (k, v) ∈ l) : l.lookup k = some v :=
  (lookup_eq_some_iff hs).mpr hm

theorem lookup_cut (hs : KeySorted (l₁ ++ (k, v) :: l₂)) : (l₁ ++ (k, v) :: l₂).lookup k = some v :=
  lookup_of_mem hs (List.mem_append_right l₁ List.mem_cons_self)

theorem lookup_eq_none (hs : KeySorted l) (hm : ∀ v, (k, v) ∉ l) : l.lookup k = none := by
  cases hl : l.lookup k with
  | none => rfl
  | some v => exact absurd ((lookup_eq_some_iff hs).mp hl) (hm v)

theorem exists_cut_of_mem (hs : KeySorted l) (hm : (k, v) ∈ l) :
    ∃ l₁ l₂, l = l₁ ++ (k, v) :: l₂ ∧ CutAt k l₁ l₂ := by
  obtain ⟨l₁, l₂, rfl⟩ := List.append_of_mem hm
  refine ⟨l₁, l₂, rfl, fun e he => ?_, fun e he => ?_⟩
  · exact (List.pairwise_append.mp hs).2.2 e he (k, v) List.mem_cons_self
  · exact (List.pairwise_cons.mp (List.pairwise_append.mp hs).2.1).1 e he

theorem exists_cut_of_not_mem (hs : KeySorted l) (hm : ∀ v, (k, v) ∉ l) :
    ∃ l₁ l₂, l = l₁ ++ l₂ ∧ CutAt k l₁ l₂ := by
  induction l with
  | nil => exact ⟨[], [], rfl, by simp, by simp⟩
  | cons e l ih =>
    obtain ⟨hhead, htail⟩ := List.pairwise_cons.mp hs
    rcases Nat.lt_trichotomy e.1 k with hlt | heq | hgt
    · obtain ⟨l₁, l₂, rfl, hcut⟩ := ih htail fun v hv => hm v (List.mem_cons_of_mem e hv)
      refine ⟨e :: l₁, l₂, rfl, ?_, hcut.above⟩
      simpa [hlt] using hcut.below
    · exact absurd (show (k, e.2) ∈ e :: l from heq ▸ List.mem_cons_self) (hm e.2)
    · refine ⟨[], e :: l, rfl, by simp, fun x hx => ?_⟩
      rcases List.mem_cons.mp hx with rfl | hx
      · exact hgt
      · exact Nat.lt_trans hgt (hhead x hx)

theorem keySorted_cut (h₁ : KeySorted l₁) (h₂ : KeySorted l₂) (hcut : CutAt k l₁ l₂) (v : α) :
    KeySorted (l₁ ++ (k, v) :: l₂) := by
  refine List.pairwise_append.mpr ⟨h₁, List.pairwise_cons.mpr ⟨hcut.above, h₂⟩, ?_⟩
  intro a ha b hb
  rcases List.mem_cons.mp hb with rfl | hb
  · exact hcut.below a ha
  · exact Nat.lt_trans (hcut.below a ha) (hcut.above b hb)

theorem KeySorted.of_cut (h : KeySorted (l₁ ++ (k, v) :: l₂)) :
    KeySorted l₁ ∧ KeySorted l₂ ∧ CutAt k l₁ l₂ := by
  obtain ⟨h₁, h₂, hlt⟩ := List.pairwise_append.mp h
  obtain ⟨habove, h₂⟩ := List.pairwise_cons.mp h₂
  exact ⟨h₁, h₂, fun e he => hlt e he (k, v) List.mem_cons_self, habove⟩

theorem KeySorted.of_append (h : KeySorted (l₁ ++ l₂)) : KeySorted l₁ ∧ KeySorted l₂ :=
  ⟨(List.pairwise_append.mp h).1, (List.pairwise_append.mp h).2.1⟩

theorem put_above (h : ∀ e ∈ l₂, k < e.1) : put k v l₂ = (k, v) :: l₂ := by
  cases l₂ with
  | nil => rfl
  | cons e l => rw [put, if_pos (h e List.mem_cons_self)]

theorem put_append (h : ∀ e ∈ l₁, e.1 < k) : put k v (l₁ ++ l₂) = l₁ ++ put k v l₂ := by
  induction l₁ with
  | nil => rfl
  | cons e l₁ ih =>
    have he := h e List.mem_cons_self
    rw [List.cons_append, put, if_neg (by omega), if_neg (by omega),
      ih fun x hx => h x (List.mem_cons_of_mem e hx), List.cons_append]

theorem put_cut_mem (hcut : CutAt k l₁ l₂) : put k w (l₁ ++ (k, v) :: l₂) = l₁ ++ (k, w) :: l₂ := by
  rw [put_append hcut.below, put, if_neg (Nat.lt_irrefl _), if_pos rfl]

theorem put_cut_new (hcut : CutAt k l₁ l₂) : put k v (l₁ ++ l₂) = l₁ ++ (k, v) :: l₂ := by
  rw [put_append hcut.below, put_above hcut.above]

theorem del_cut_mem (hcut : CutAt k l₁ l₂) : del k (l₁ ++ (k, v) :: l₂) = l₁ ++ l₂ := by
  have h₁ : l₁.filter (·.1 ≠ k) = l₁ :=
    List.filter_eq_self.mpr fun e he => decide_eq_true (Nat.ne_of_lt (hcut.below e he))
  have h₂ : l₂.filter (·.1 ≠ k) = l₂ :=
    List.filter_eq_self.mpr fun e he => decide_eq_true (Nat.ne_of_gt (hcut.above e he))
  rw [del, List.filter_append, List.filter_cons_of_neg (by simp), h₁, h₂]

theorem CutAt.not_mem (hcut : CutAt k l₁ l₂) (v : α) : (k, v) ∉ l₁ ++ l₂ := by
  intro hm
  rcases List.mem_append.mp hm with hm | hm
  · exact absurd (hcut.below _ hm) (lt_irrefl _)
  · exact absurd (hcut.above _ hm) (lt_irrefl _)

theorem KeySorted.cut_cases (hs : KeySorted l) (k : ℕ) :
    (∃ l₁ v l₂, l = l₁ ++ (k, v) :: l₂ ∧ CutAt k l₁ l₂) ∨ ∃ l₁ l₂, l = l₁ ++ l₂ ∧ CutAt k l₁ l₂ := by
  by_cases hm : ∃ v, (k, v) ∈ l
  · obtain ⟨v, hv⟩ := hm
    obtain ⟨l₁, l₂, rfl, hcut⟩ := exists_cut_of_mem hs hv
    exact .inl ⟨l₁, v, l₂, rfl, hcut⟩
  · obtain ⟨l₁, l₂, rfl, hcut⟩ := exists_cut_of_not_mem hs fun v hv => hm ⟨v, hv⟩
    exact .inr ⟨l₁, l₂, rfl, hcut⟩

theorem del_of_not_mem (h : ∀ v, (k, v) ∉ l) : del k l = l := by
  refine List.filter_eq_self.mpr fun e he => decide_eq_true ?_
  rintro rfl
  exact h e.2 he

theorem KeySorted.put (hs : KeySorted l) (k : ℕ) (v : α) : KeySorted (put k v l) := by
  by_cases hm : ∃ w, (k, w) ∈ l
  · obtain ⟨w, hw⟩ := hm
    obtain ⟨l₁, l₂, rfl, hcut⟩ := exists_cut_of_mem hs hw
    rw [put_cut_mem hcut]
    exact keySorted_cut hs.of_cut.1 hs.of_cut.2.1 hcut v
  · obtain ⟨l₁, l₂, rfl, hcut⟩ := exists_cut_of_not_mem hs fun w hw => hm ⟨w, hw⟩
    rw [put_cut_new hcut]
    exact keySorted_cut hs.of_append.1 hs.of_append.2 hcut v

theorem KeySorted.del (hs : KeySorted l) (k : ℕ) : KeySorted (del k l) := hs.filter _

theorem map_put (g : α → β) (k : ℕ) (v : α) (l : List (ℕ × α)) :
    (put k v l).map (fun e => (e.1, g e.2)) = put k (g v) (l.map fun e => (e.1, g e.2)) := by
  induction l with
  | nil => rfl
  | cons e l ih =>
    rw [List.map_cons, put, put]
    split_ifs <;> simp [ih]

theorem map_del (g : α → β) (k : ℕ) (l : List (ℕ × α)) :
    (del k l).map (fun e => (e.1, g e.2)) = del k (l.map fun e => (e.1, g e.2)) := by
  rw [del, del, List.filter_map]
  rfl

theorem put_ne_nil : put k v l ≠ [] := by
  cases l with
  | nil => simp [put]
  | cons e l =>
    rw [put]
    split_ifs <;> simp

theorem length_put_le (k : ℕ) (v : α) (l : List (ℕ × α)) : (put k v l).length ≤ l.length + 1 := by
  induction l with
  | nil => simp [put]
  | cons e l ih =>
    rw [put]
    split_ifs <;> simp only [List.length_cons] <;> omega

theorem updated_put (hs : KeySorted l) (k : ℕ) (v : α) : Updated k v l (put k v l) := by
  intro x w
  by_cases hm : ∃ u, (k, u) ∈ l
  · obtain ⟨u, hu⟩ := hm
    obtain ⟨l₁, l₂, rfl, hcut⟩ := exists_cut_of_mem hs hu
    rw [put_cut_mem hcut]
    simp only [List.mem_append, List.mem_cons, Prod.mk.injEq]
    have hb : ∀ w, (x, w) ∈ l₁ → x ≠ k := fun w hw => Nat.ne_of_lt (hcut.below _ hw)
    have ha : ∀ w, (x, w) ∈ l₂ → x ≠ k := fun w hw => Nat.ne_of_gt (hcut.above _ hw)
    have hb := hb w
    have ha := ha w
    tauto
  · obtain ⟨l₁, l₂, rfl, hcut⟩ := exists_cut_of_not_mem hs fun u hu => hm ⟨u, hu⟩
    rw [put_cut_new hcut]
    simp only [List.mem_append, List.mem_cons, Prod.mk.injEq]
    have hb : (x, w) ∈ l₁ → x ≠ k := fun hw => Nat.ne_of_lt (hcut.below _ hw)
    have ha : (x, w) ∈ l₂ → x ≠ k := fun hw => Nat.ne_of_gt (hcut.above _ hw)
    tauto

theorem mem_put (hs : KeySorted l) {x : ℕ} :
    (x, w) ∈ put k v l ↔ x = k ∧ w = v ∨ x ≠ k ∧ (x, w) ∈ l := updated_put hs k v x w

theorem mem_del {x : ℕ} : (x, w) ∈ del k l ↔ x ≠ k ∧ (x, w) ∈ l := by
  rw [del, List.mem_filter]
  simp [and_comm]

theorem lookup_put (hs : KeySorted l) (x : ℕ) :
    (put k v l).lookup x = if x = k then some v else l.lookup x := by
  apply Option.ext
  intro w
  rw [lookup_eq_some_iff (hs.put k v), mem_put hs]
  split_ifs with hx
  · simp [hx, eq_comm]
  · rw [lookup_eq_some_iff hs]
    simp [hx]

theorem lookup_del (hs : KeySorted l) (x : ℕ) :
    (del k l).lookup x = if x = k then none else l.lookup x := by
  apply Option.ext
  intro w
  rw [lookup_eq_some_iff (hs.del k), mem_del]
  split_ifs with hx
  · simp [hx]
  · rw [lookup_eq_some_iff hs]
    simp [hx]

theorem Updated.eq_put {l' : List (ℕ × α)} (h : Updated k v l l') (hs : KeySorted l)
    (hs' : KeySorted l') : l' = SortedAssoc.put k v l := by
  refine hs'.ext (hs.put k v) fun x w => ?_
  rw [h, updated_put hs k v]

theorem Erased.eq_del {l' : List (ℕ × α)} (h : Erased k l l') (hs : KeySorted l)
    (hs' : KeySorted l') : l' = SortedAssoc.del k l := by
  refine hs'.ext (hs.del k) fun x w => ?_
  rw [h, SortedAssoc.del, List.mem_filter]
  simp [and_comm]

theorem lowerBound_cut_mem (hcut : CutAt k l₁ l₂) :
    lowerBound ((l₁ ++ (k, v) :: l₂).map Prod.fst) k = l₁.length := by
  have hb : ∀ x ∈ l₁.map Prod.fst, x < k := by
    intro x hx
    obtain ⟨e, he, rfl⟩ := List.mem_map.mp hx
    exact hcut.below e he
  rw [List.map_append, lowerBound_append hb, List.map_cons, lowerBound, if_pos le_rfl, List.length_map]
  rfl

theorem lowerBound_cut_new (hcut : CutAt k l₁ l₂) :
    lowerBound ((l₁ ++ l₂).map Prod.fst) k = l₁.length := by
  have hb : ∀ x ∈ l₁.map Prod.fst, x < k := by
    intro x hx
    obtain ⟨e, he, rfl⟩ := List.mem_map.mp hx
    exact hcut.below e he
  rw [List.map_append, lowerBound_append hb, List.length_map]
  cases l₂ with
  | nil => rfl
  | cons e l₂ =>
    rw [List.map_cons, lowerBound, if_pos (hcut.above e List.mem_cons_self).le]
    rfl

theorem getElem?_cut : (l₁ ++ (k, v) :: l₂)[l₁.length]? = some (k, v) := by simp

theorem set_cut (w : α) : (l₁ ++ (k, v) :: l₂).set l₁.length (k, w) = l₁ ++ (k, w) :: l₂ := by simp

theorem insertIdx_cut (e : ℕ × α) : (l₁ ++ l₂).insertIdx l₁.length e = l₁ ++ e :: l₂ := by
  induction l₁ with
  | nil => rfl
  | cons x l₁ ih => rw [List.cons_append, List.length_cons, List.insertIdx_succ_cons, ih, List.cons_append]

theorem eraseIdx_cut : (l₁ ++ (k, v) :: l₂).eraseIdx l₁.length = l₁ ++ l₂ := by
  rw [List.eraseIdx_append_of_length_le le_rfl, Nat.sub_self, List.eraseIdx_zero, List.tail_cons]

theorem locate_cut_mem (hcut : CutAt k l₁ l₂) :
    locate ((l₁ ++ (k, v) :: l₂).map Prod.fst) k = .ok l₁.length := by
  rw [locate, lowerBound_cut_mem hcut, if_pos]
  simp

theorem locate_cut_new (hcut : CutAt k l₁ l₂) :
    locate ((l₁ ++ l₂).map Prod.fst) k = .error l₁.length := by
  rw [locate_of_not_mem, lowerBound_cut_new hcut]
  intro hm
  obtain ⟨e, he, rfl⟩ := List.mem_map.mp hm
  exact hcut.not_mem e.2 he

end Expanse.SortedAssoc
