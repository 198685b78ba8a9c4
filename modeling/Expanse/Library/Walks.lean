import Expanse.Library.SortedAssoc

/-!
# Walks over sorted lists

A walk goes through a list forward or backward. A position splits the list; what
is left of a forward walk is the part from the position on, of a backward walk the
part before it, reversed. A walk over a sorted list may keep a key for its position.
-/

namespace Expanse

open SortedAssoc

inductive Direction where
  | forward
  | backward
deriving DecidableEq

namespace Direction

variable {α β : Type} (dir : Direction)

def order : Direction → List α → List α
  | forward, l => l
  | backward, l => l.reverse

/-- What a walk at position `i` has left. -/
def rest : Direction → ℕ → List α → List α
  | forward, i, l => l.drop i
  | backward, i, l => (l.take i).reverse

/-- What a walk over sorted keys has left when its position is the key `k`. -/
def restKeys : Direction → ℕ → List (ℕ × α) → List (ℕ × α)
  | forward, k, l => l.filter (k ≤ ·.1)
  | backward, k, l => (l.filter (·.1 < k)).reverse

/-- `a` comes before `b` on the walk. -/
def Before : Direction → ℕ → ℕ → Prop
  | forward, a, b => a < b
  | backward, a, b => b < a

/-- `k` is on the far side of `s`, or is `s`. -/
def far : Direction → ℕ → ℕ → Bool
  | forward, s, k => s ≤ k
  | backward, s, k => k ≤ s

theorem far_of_before {s k : ℕ} (h : dir.Before s k) : dir.far s k = true := by
  cases dir with
  | forward => exact decide_eq_true (Nat.le_of_lt h)
  | backward => exact decide_eq_true (Nat.le_of_lt h)

theorem not_far {s k : ℕ} (h : dir.Before k s) : dir.far s k = false := by
  cases dir with
  | forward => exact decide_eq_false (Nat.not_le_of_lt h)
  | backward => exact decide_eq_false (Nat.not_le_of_lt h)

theorem before_of_not_far {s k : ℕ} (h : ¬ dir.far s k = true) : dir.Before k s := by
  cases dir with
  | forward => simpa [far, Before] using h
  | backward => simpa [far, Before] using h

theorem before_of_far {s k : ℕ} (h : dir.far s k = true) (hne : k ≠ s) : dir.Before s k := by
  cases dir with
  | forward =>
    have : s ≤ k := of_decide_eq_true h
    exact Nat.lt_of_le_of_ne this hne.symm
  | backward =>
    have : k ≤ s := of_decide_eq_true h
    exact Nat.lt_of_le_of_ne this hne

theorem Before.trans_far {a b c : ℕ} {dir : Direction} (h : dir.far a b = true)
    (h' : dir.Before b c) : dir.Before a c := by
  cases dir with
  | forward => exact Nat.lt_of_le_of_lt (of_decide_eq_true h) h'
  | backward => exact Nat.lt_of_lt_of_le h' (of_decide_eq_true h)

theorem order_pairwise {l : List (ℕ × α)} (hs : KeySorted l) :
    (dir.order l).Pairwise fun x y => dir.Before x.1 y.1 := by
  cases dir with
  | forward => exact hs
  | backward => exact List.pairwise_reverse.mpr hs

@[simp] theorem order_nil : dir.order ([] : List α) = [] := by cases dir <;> rfl

@[simp] theorem mem_order {l : List α} {a : α} : a ∈ dir.order l ↔ a ∈ l := by
  cases dir <;> simp [order]

@[simp] theorem order_eq_nil {l : List α} : dir.order l = [] ↔ l = [] := by
  cases dir <;> simp [order]

theorem order_map (f : α → β) (l : List α) : dir.order (l.map f) = (dir.order l).map f := by
  cases dir <;> simp [order]

theorem order_filter (p : α → Bool) (l : List α) :
    dir.order (l.filter p) = (dir.order l).filter p := by
  cases dir <;> simp [order]

theorem order_flatMap (f : α → List β) (l : List α) :
    dir.order (l.flatMap f) = (dir.order l).flatMap fun a => dir.order (f a) := by
  cases dir with
  | forward => rfl
  | backward => simp only [order, List.reverse_flatMap]; rfl

/-- On the walk over a sorted list, the far side of a key is a suffix: before it come the near
keys. -/
theorem order_split {l : List (ℕ × α)} (hs : KeySorted l) (t : ℕ) :
    ∃ near, dir.order l = near ++ dir.order (l.filter fun x => dir.far t x.1) ∧
      ∀ x ∈ near, dir.Before x.1 t := by
  refine ⟨dir.order (l.filter fun x => !dir.far t x.1), ?_, ?_⟩
  · cases dir with
    | forward =>
      simp only [order, far]
      induction l with
      | nil => rfl
      | cons x xs ih =>
        have htail := ih (List.Pairwise.of_cons hs)
        by_cases hx : t ≤ x.1
        · have hall : ∀ y ∈ x :: xs, t ≤ y.1 := by
            intro y hy
            rcases List.mem_cons.mp hy with rfl | hy
            · exact hx
            · exact hx.trans (List.rel_of_pairwise_cons hs hy).le
          rw [List.filter_eq_nil_iff.mpr, List.filter_eq_self.mpr, List.nil_append]
          · intro y hy
            exact decide_eq_true (hall y hy)
          · intro y hy
            simpa using hall y hy
        · rw [List.filter_cons_of_pos (by simpa using hx), List.filter_cons_of_neg (by simpa using hx),
            List.cons_append, ← htail]
    | backward =>
      simp only [order, far]
      rw [← List.reverse_append]
      congr 1
      induction l with
      | nil => rfl
      | cons x xs ih =>
        have htail := ih (List.Pairwise.of_cons hs)
        by_cases hx : x.1 ≤ t
        · rw [List.filter_cons_of_pos (by simpa using hx), List.filter_cons_of_neg (by simpa using hx),
            List.cons_append, ← htail]
        · have hall : ∀ y ∈ x :: xs, ¬ y.1 ≤ t := by
            intro y hy
            rcases List.mem_cons.mp hy with rfl | hy
            · exact hx
            · have := List.rel_of_pairwise_cons hs hy
              omega
          rw [List.filter_eq_nil_iff.mpr, List.filter_eq_self.mpr, List.nil_append]
          · intro y hy
            simpa using hall y hy
          · intro y hy
            simpa using hall y hy
  · intro x hx
    rw [mem_order, List.mem_filter, Bool.not_eq_true'] at hx
    exact dir.before_of_not_far (by simp [hx.2])

/-- The list and the position of a walk after its next element. -/
theorem rest_forward {l : List α} {i : ℕ} {x : α} {xs : List α} (h : forward.rest i l = x :: xs) :
    i < l.length ∧ l[i]? = some x ∧ forward.rest (i + 1) l = xs := by
  have hi : i < l.length := by
    have := congrArg List.length h
    rw [rest, List.length_drop, List.length_cons] at this
    omega
  rw [rest, List.drop_eq_getElem_cons hi] at h
  obtain ⟨h1, h2⟩ := List.cons.inj h
  exact ⟨hi, by rw [List.getElem?_eq_getElem hi, h1], h2⟩

theorem rest_backward {l : List α} {i : ℕ} {x : α} {xs : List α} (hi : i ≤ l.length)
    (h : backward.rest i l = x :: xs) :
    0 < i ∧ l[i - 1]? = some x ∧ backward.rest (i - 1) l = xs := by
  have h0 : 0 < i := by
    by_contra hc
    rw [rest, show i = 0 by omega] at h
    cases h
  obtain ⟨j, rfl⟩ : ∃ j, i = j + 1 := ⟨i - 1, by omega⟩
  rw [rest, List.take_succ_eq_append_getElem (by omega), List.reverse_append] at h
  obtain ⟨h1, h2⟩ := List.cons.inj h
  refine ⟨h0, ?_, h2⟩
  rw [Nat.add_sub_cancel, List.getElem?_eq_getElem (by omega)]
  exact congrArg some h1

theorem rest_backward_nil {l : List α} {i : ℕ} (hi : i ≤ l.length) (h : backward.rest i l = []) :
    i = 0 := by
  have := congrArg List.length h
  rw [rest, List.length_reverse, List.length_take, List.length_nil] at this
  omega

theorem rest_forward_nil {l : List α} {i : ℕ} (h : forward.rest i l = []) : l.length ≤ i := by
  have := congrArg List.length h
  rw [rest, List.length_drop, List.length_nil] at this
  omega

/-- Past the key it takes, a forward walk keeps the tail. -/
theorem restKeys_forward {l : List (ℕ × α)} (hs : KeySorted l) {k d : ℕ} {a : α}
    {xs : List (ℕ × α)} (h : forward.restKeys k l = (d, a) :: xs) :
    k ≤ d ∧ (d, a) ∈ l ∧ forward.restKeys (d + 1) l = xs := by
  have hm : (d, a) ∈ l.filter (k ≤ ·.1) := by
    rw [show l.filter (k ≤ ·.1) = forward.restKeys k l from rfl, h]
    exact List.mem_cons_self
  obtain ⟨hm, hk⟩ := List.mem_filter.mp hm
  rw [decide_eq_true_eq] at hk
  refine ⟨hk, hm, ?_⟩
  have hp : ((d, a) :: xs).Pairwise fun x y => x.1 < y.1 := by
    rw [← h]
    exact hs.sublist List.filter_sublist
  calc l.filter (d + 1 ≤ ·.1) = (l.filter (k ≤ ·.1)).filter (d + 1 ≤ ·.1) := by
        rw [List.filter_filter]
        apply List.filter_congr
        intro x _
        by_cases hx : d + 1 ≤ x.1 <;> simp [hx]
        omega
    _ = ((d, a) :: xs).filter (d + 1 ≤ ·.1) := by rw [← h]; rfl
    _ = xs := by
        rw [List.filter_cons_of_neg (by simp), List.filter_eq_self]
        intro x hx
        have := (List.pairwise_cons.mp hp).1 x hx
        simp only [decide_eq_true_eq]
        omega

theorem restKeys_backward {l : List (ℕ × α)} (hs : KeySorted l) {k d : ℕ} {a : α}
    {xs : List (ℕ × α)} (h : backward.restKeys k l = (d, a) :: xs) :
    d < k ∧ (d, a) ∈ l ∧ backward.restKeys d l = xs := by
  have hm : (d, a) ∈ l.filter (·.1 < k) := by
    rw [← List.mem_reverse, show (l.filter (·.1 < k)).reverse = backward.restKeys k l from rfl, h]
    exact List.mem_cons_self
  obtain ⟨hm, hk⟩ := List.mem_filter.mp hm
  rw [decide_eq_true_eq] at hk
  refine ⟨hk, hm, ?_⟩
  have hp : ((d, a) :: xs).Pairwise fun x y => y.1 < x.1 := by
    rw [← h]
    exact List.pairwise_reverse.mpr (hs.sublist List.filter_sublist)
  calc (l.filter (·.1 < d)).reverse = ((l.filter (·.1 < k)).reverse).filter (·.1 < d) := by
        rw [List.filter_reverse, List.filter_filter]
        congr 1
        apply List.filter_congr
        intro x _
        by_cases hx : x.1 < d <;> simp [hx]
        omega
    _ = ((d, a) :: xs).filter (·.1 < d) := by rw [← h]; rfl
    _ = xs := by
        rw [List.filter_cons_of_neg (by simp), List.filter_eq_self]
        intro x hx
        have := (List.pairwise_cons.mp hp).1 x hx
        simp only [decide_eq_true_eq]
        omega

theorem rest_length (l : List α) : backward.rest l.length l = backward.order l := by
  rw [rest, List.take_length, order]

theorem rest_lowerBound {l : List (ℕ × α)} (hs : KeySorted l) (k : ℕ) :
    dir.rest (lowerBound (l.map Prod.fst) k) l = dir.restKeys k l := by
  have hsplit : l.drop (lowerBound (l.map Prod.fst) k) = l.filter (k ≤ ·.1) ∧
      l.take (lowerBound (l.map Prod.fst) k) = l.filter (·.1 < k) := by
    induction l with
    | nil => exact ⟨rfl, rfl⟩
    | cons x xs ih =>
      obtain ⟨ih1, ih2⟩ := ih (List.Pairwise.of_cons hs)
      rw [List.map_cons, lowerBound]
      by_cases hx : k ≤ x.1
      · rw [if_pos hx, List.drop_zero, List.take_zero]
        have hall : ∀ y ∈ x :: xs, k ≤ y.1 := by
          intro y hy
          rcases List.mem_cons.mp hy with rfl | hy
          · exact hx
          · exact hx.trans (List.rel_of_pairwise_cons hs hy).le
        refine ⟨(List.filter_eq_self.mpr ?_).symm, (List.filter_eq_nil_iff.mpr ?_).symm⟩
        · intro y hy
          exact decide_eq_true (hall y hy)
        · intro y hy
          simpa using hall y hy
      · rw [if_neg hx, List.drop_succ_cons, List.take_succ_cons, ih1, ih2,
          List.filter_cons_of_neg (by simpa using hx),
          List.filter_cons_of_pos (by simpa using hx)]
        exact ⟨rfl, rfl⟩
  cases dir with
  | forward => exact hsplit.1
  | backward => rw [rest, restKeys, hsplit.2]

theorem rest_suffix (i : ℕ) (l : List α) : dir.rest i l <:+ dir.order l := by
  cases dir with
  | forward => exact List.drop_suffix i l
  | backward => exact List.reverse_suffix.mpr ( List.take_prefix i l)

theorem restKeys_suffix {l : List (ℕ × α)} (hs : KeySorted l) (k : ℕ) :
    dir.restKeys k l <:+ dir.order l := by
  rw [← dir.rest_lowerBound hs]
  exact dir.rest_suffix _ l

end Direction

namespace SortedAssoc

theorem drop_lowerBound {keys : List ℕ} (hs : keys.Pairwise (· < ·)) (k : ℕ) :
    keys.drop (lowerBound keys k) = keys.filter (k ≤ ·) := by
  have hm : (keys.map fun x => (x, ())).map Prod.fst = keys := by
    rw [List.map_map]
    exact List.map_id keys
  have h := Direction.forward.rest_lowerBound (l := keys.map fun x => (x, ()))
    (keySorted_iff.mpr (by rwa [hm])) k
  rw [hm] at h
  have h' := congrArg (List.map Prod.fst) h
  rw [Direction.rest, Direction.restKeys, List.map_drop, hm, List.filter_map, List.map_map] at h'
  rw [h']
  exact List.map_id _

theorem take_lowerBound {keys : List ℕ} (hs : keys.Pairwise (· < ·)) (k : ℕ) :
    keys.take (lowerBound keys k) = keys.filter (· < k) := by
  have hm : (keys.map fun x => (x, ())).map Prod.fst = keys := by
    rw [List.map_map]
    exact List.map_id keys
  have h := Direction.backward.rest_lowerBound (l := keys.map fun x => (x, ()))
    (keySorted_iff.mpr (by rwa [hm])) k
  rw [hm] at h
  have h' := congrArg (List.map Prod.fst) (List.reverse_injective h)
  rw [List.map_take, hm, List.filter_map, List.map_map] at h'
  rw [h']
  exact List.map_id _

theorem findIdx?_eq_lowerBound (keys : List ℕ) (k : ℕ) :
    keys.findIdx? (k ≤ ·) =
      if lowerBound keys k < keys.length then some (lowerBound keys k) else none := by
  induction keys with
  | nil => rfl
  | cons x xs ih =>
    rw [List.findIdx?_cons, lowerBound]
    by_cases hx : k ≤ x
    · simp [hx]
    · rw [ih, if_neg hx]
      simp only [hx, decide_false, Bool.false_eq_true, if_false, List.length_cons,
        Nat.add_lt_add_iff_right]
      split_ifs <;> rfl

/-- No key of a sorted list lies below its head. -/
theorem lowerBound_tail {x : ℕ} {xs : List ℕ} (hs : (x :: xs).Pairwise (· < ·)) {k : ℕ}
    (hk : k ≤ x + 1) : lowerBound xs k = 0 := by
  cases xs with
  | nil => rfl
  | cons y ys =>
    have := List.rel_of_pairwise_cons hs (List.mem_cons_self (a := y) (l := ys))
    rw [lowerBound, if_pos (by omega)]

/-- The number of keys up to and including `b`, as a binary search finds it. -/
def upTo (keys : List ℕ) (b : ℕ) : ℕ :=
  match locate keys b with
  | .ok i => i + 1
  | .error i => i

theorem upTo_eq {keys : List ℕ} (hs : keys.Pairwise (· < ·)) (b : ℕ) :
    upTo keys b = lowerBound keys (b + 1) := by
  have hstep : lowerBound keys (b + 1) =
      if keys[lowerBound keys b]? = some b then lowerBound keys b + 1 else lowerBound keys b := by
    induction keys with
    | nil => rfl
    | cons x xs ih =>
      rw [lowerBound, lowerBound]
      rcases Nat.lt_trichotomy b x with hlt | rfl | hgt
      · rw [if_pos (by omega : b + 1 ≤ x), if_pos hlt.le, if_neg (by simp; omega)]
      · rw [if_neg (by omega : ¬ b + 1 ≤ b), if_pos le_rfl, lowerBound_tail hs le_rfl]
        simp
      · rw [if_neg (by omega : ¬ b + 1 ≤ x), if_neg (by omega : ¬ b ≤ x),
          List.getElem?_cons_succ, ih (List.Pairwise.of_cons hs)]
        split_ifs <;> rfl
  rw [upTo, locate, hstep]
  split_ifs <;> rfl

theorem length_filter_le (keys : List ℕ) (hs : keys.Pairwise (· < ·)) (b : ℕ) :
    (keys.filter (· ≤ b)).length = lowerBound keys (b + 1) := by
  rw [lowerBound_eq_countP hs, List.countP_eq_length_filter]
  simp

theorem filter_drop {α : Type} {l : List (ℕ × α)} (hs : KeySorted l) (i k : ℕ) :
    (l.drop i).filter (k ≤ ·.1) = l.drop (max i (lowerBound (l.map Prod.fst) k)) := by
  have hfrom := Direction.forward.rest_lowerBound hs k
  rw [Direction.rest, Direction.restKeys] at hfrom
  induction i generalizing l with
  | zero => rw [List.drop_zero, Nat.zero_max, hfrom]
  | succ i ih =>
    cases l with
    | nil => simp
    | cons x xs =>
      have hs' := List.Pairwise.of_cons hs
      rw [List.drop_succ_cons, ih hs' (Direction.forward.rest_lowerBound hs' k), List.map_cons,
        lowerBound]
      split_ifs with hx
      · have h0 : lowerBound (xs.map Prod.fst) k = 0 := by
          cases xs with
          | nil => rfl
          | cons y ys =>
            have : x.1 < y.1 := (List.pairwise_cons.mp hs).1 y List.mem_cons_self
            rw [List.map_cons, lowerBound, if_pos (by omega)]
        rw [h0, Nat.max_zero, Nat.max_zero, List.drop_succ_cons]
      · rw [show max (i + 1) (lowerBound (xs.map Prod.fst) k + 1) =
          max i (lowerBound (xs.map Prod.fst) k) + 1 by omega, List.drop_succ_cons]

/-- A key past `x` keeps nothing of what comes up to `x`. -/
theorem filter_suffix {α : Type} {l xs : List (ℕ × α)} {x : ℕ × α} {k : ℕ} (hs : KeySorted l)
    (h : x :: xs <:+ l) (hx : x.1 < k) : l.filter (k ≤ ·.1) = xs.filter (k ≤ ·.1) := by
  obtain ⟨t, rfl⟩ := h
  have hpair := List.pairwise_append.mp hs
  have hnear : t.filter (k ≤ ·.1) = [] := by
    rw [List.filter_eq_nil_iff]
    intro y hy
    have := hpair.2.2 y hy x List.mem_cons_self
    simp only [decide_eq_true_eq]
    omega
  rw [List.filter_append, hnear, List.nil_append, List.filter_cons_of_neg]
  simp only [decide_eq_true_eq]
  omega

/-- The position after the last key that is at most `b`, as a loop over the keys counts it. -/
theorem foldl_last_le {keys : List ℕ} (hs : keys.Pairwise (· < ·)) (b : ℕ) :
    keys.zipIdx.foldl (fun cnt x => if x.1 ≤ b then x.2 + 1 else cnt) 0 =
      lowerBound keys (b + 1) := by
  have hgen : ∀ n acc, (keys.zipIdx n).foldl (fun cnt x => if x.1 ≤ b then x.2 + 1 else cnt) acc =
      if lowerBound keys (b + 1) = 0 then acc else n + lowerBound keys (b + 1) := by
    induction keys with
    | nil => intro n acc; rfl
    | cons x xs ih =>
      intro n acc
      rw [List.zipIdx_cons, List.foldl_cons, ih (List.Pairwise.of_cons hs), lowerBound]
      by_cases hx : x ≤ b
      · rw [if_neg (by omega : ¬ b + 1 ≤ x), if_neg (Nat.succ_ne_zero _)]
        simp only [hx, if_true]
        split_ifs <;> omega
      · rw [if_pos (by omega : b + 1 ≤ x), if_neg hx, if_pos (lowerBound_tail hs (by omega)),
          if_pos rfl]
  rw [hgen 0 0]
  split_ifs with h
  · exact h.symm
  · exact Nat.zero_add _

end SortedAssoc

end Expanse
