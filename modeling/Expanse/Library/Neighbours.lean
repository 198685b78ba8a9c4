import Mathlib.Data.List.TakeWhile
import Expanse.Library.Fanout
import Expanse.Library.Walks

/-!
# Neighbours of a key

The entry next to a key, on either side, in a list that ascends and in a list fanned out by digit.
In a fanned-out list a child before the key's digit holds none, the child at it is asked for the
neighbour of what is left of the key, and every later child for its own end.
-/

namespace Expanse

open SortedAssoc

namespace Direction

variable {α β : Type} (dir : Direction) {k : ℕ} {l : List (ℕ × α)}

/-- Strictly beyond `k`. -/
def past : Direction → ℕ → ℕ → Bool
  | forward, k, x => decide (k < x)
  | backward, k, x => decide (x < k)

/-- The entry next to `k`. -/
def beyond (k : ℕ) (l : List (ℕ × α)) : Option (ℕ × α) := (dir.order l).find? fun e => dir.past k e.1

theorem past_shift (x r y : ℕ) : dir.past (x + r) (x + y) = dir.past r y := by
  cases dir <;> simp [past]

theorem beyond_forward : forward.beyond k l = (forward.restKeys (k + 1) l).head? := by
  rw [restKeys, List.head?_filter, beyond]
  rfl

theorem beyond_backward : backward.beyond k l = (backward.restKeys k l).head? := by
  rw [restKeys, ← List.filter_reverse, List.head?_filter, beyond]
  rfl

theorem beyond_mem {e : ℕ × α} (h : dir.beyond k l = some e) : e ∈ l :=
  dir.mem_order.mp (List.mem_of_find?_eq_some h)

theorem order_head_mem {e : ℕ × α} (h : (dir.order l).head? = some e) : e ∈ l :=
  dir.mem_order.mp (List.mem_of_mem_head? h)

/-- Nothing lies beyond the end of the keys. -/
theorem beyond_none (h : ∀ e ∈ l, dir.past k e.1 = false) : dir.beyond k l = none :=
  List.find?_eq_none.mpr fun e he => by simp [h e (dir.mem_order.mp he)]

theorem getElem?_lowerBound_succ (hs : KeySorted l) :
    l[lowerBound (l.map Prod.fst) (k + 1)]? = forward.beyond k l := by
  rw [beyond_forward, ← forward.rest_lowerBound hs, rest, List.head?_drop]

theorem getElem?_lowerBound_pred (hs : KeySorted l) :
    (if lowerBound (l.map Prod.fst) k = 0 then none else l[lowerBound (l.map Prod.fst) k - 1]?) =
      backward.beyond k l := by
  have hle : lowerBound (l.map Prod.fst) k ≤ l.length := by
    rw [← List.length_map Prod.fst]
    exact lowerBound_le _ _
  rw [beyond_backward, ← backward.rest_lowerBound hs, rest, ← List.getLast?_eq_head?_reverse,
    List.getLast?_eq_getElem?, List.length_take, Nat.min_eq_left hle, List.getElem?_take]
  by_cases h0 : lowerBound (l.map Prod.fst) k = 0
  · rw [if_pos h0, if_neg (by omega)]
  · rw [if_neg h0, if_pos (by omega)]

section Fanout

variable {B d r : ℕ} {f : β → List (ℕ × α)} {kids : List (ℕ × β)}

/-- An entry of a child, as one of the fan. -/
def moved (B d : ℕ) (e : ℕ × α) : ℕ × α := (d * B + e.1, e.2)

theorem order_fanout : dir.order (fanout B f kids) =
    (dir.order kids).flatMap fun c => (dir.order (f c.2)).map (moved B c.1) := by
  rw [fanout, order_flatMap]
  simp only [order_map]
  rfl

/-- The end of a fan is the end of its first child, where each child has entries. -/
theorem head?_fanout (hne : ∀ c ∈ kids, f c.2 ≠ []) : (dir.order (fanout B f kids)).head? =
    (dir.order kids).head?.bind fun c => (dir.order (f c.2)).head?.map (moved B c.1) := by
  rw [order_fanout, List.head?_flatMap]
  cases hk : dir.order kids with
  | nil => rfl
  | cons c cs =>
    have hc : f c.2 ≠ [] := hne c (dir.mem_order.mp (by rw [hk]; exact List.mem_cons_self))
    rw [List.findSome?_cons, List.head?_cons, Option.bind_some, List.head?_map]
    cases hh : (dir.order (f c.2)).head? with
    | none => exact absurd (dir.order_eq_nil.mp (List.head?_eq_none_iff.mp hh)) hc
    | some e => rfl

/-- Where a child lies, seen from a key of digit `d`. -/
theorem past_digit {c y : ℕ} (hr : r < B) (hy : y < B) : dir.past (d * B + r) (c * B + y) =
    if dir.past c d then false else if c = d then dir.past r y else true := by
  have hmul : ∀ {a b : ℕ}, a < b → a * B + B ≤ b * B := by
    intro a b hab
    calc a * B + B = (a + 1) * B := (Nat.succ_mul a B).symm
      _ ≤ b * B := Nat.mul_le_mul_right B hab
  rcases Nat.lt_trichotomy c d with h | rfl | h
  · have := hmul h
    cases dir with
    | forward =>
      have hc : forward.past c d = true := decide_eq_true h
      have hx : forward.past (d * B + r) (c * B + y) = false := decide_eq_false (by omega)
      rw [hc, hx, if_pos rfl]
    | backward =>
      have hc : backward.past c d = false := decide_eq_false (by omega)
      have hx : backward.past (d * B + r) (c * B + y) = true := decide_eq_true (by omega)
      rw [hc, hx, if_neg Bool.false_ne_true, if_neg h.ne]
  · have hc : dir.past c c = false := by cases dir <;> simp [past]
    rw [past_shift, hc, if_neg Bool.false_ne_true, if_pos rfl]
  · have := hmul h
    cases dir with
    | forward =>
      have hc : forward.past c d = false := decide_eq_false (by omega)
      have hx : forward.past (d * B + r) (c * B + y) = true := decide_eq_true (by omega)
      rw [hc, hx, if_neg Bool.false_ne_true, if_neg h.ne']
    | backward =>
      have hc : backward.past c d = true := decide_eq_true h
      have hx : backward.past (d * B + r) (c * B + y) = false := decide_eq_false (by omega)
      rw [hc, hx, if_pos rfl]

theorem beyond_fanout (hn : Narrow B f kids) (hr : r < B) : dir.beyond (d * B + r) (fanout B f kids) =
    (dir.order kids).findSome? fun c =>
      if dir.past c.1 d then none
      else (if c.1 = d then dir.beyond r (f c.2) else (dir.order (f c.2)).head?).map (moved B c.1) := by
  rw [beyond, order_fanout, List.find?_flatMap]
  refine findSome?_congr fun c hc => ?_
  rw [List.find?_map]
  have hpast : ∀ e ∈ dir.order (f c.2), ((fun e => dir.past (d * B + r) e.1) ∘ moved B c.1) e =
      if dir.past c.1 d then false else if c.1 = d then dir.past r e.1 else true := fun e he =>
    dir.past_digit hr (hn c (dir.mem_order.mp hc) e (dir.mem_order.mp he))
  rw [List.find?_congr hpast]
  split_ifs with h1 h2
  · simp
  · rfl
  · cases dir.order (f c.2) <;> rfl

/-- How many entries of a fan lie in a range, child by child. -/
theorem countP_fanout (p : ℕ → Bool) : (fanout B f kids).countP (fun e => p e.1) =
    (kids.map fun c => (f c.2).countP fun e => p (c.1 * B + e.1)).sum := by
  rw [fanout, List.countP_flatMap]
  congr 1
  refine List.map_congr_left fun c _ => ?_
  rw [Function.comp_apply, List.countP_map]
  rfl

end Fanout

end Direction

namespace SortedAssoc

variable {α β : Type} {k : ℕ} {l : List (ℕ × α)}

section Fanout

variable {B d r : ℕ} {f : β → List (ℕ × α)} {kids ys : List (ℕ × β)} {y : ℕ × β}

/-- What a fan holds from a key on starts in the first child from its digit on. -/
theorem filter_fanout (hs : KeySorted kids) (hn : Narrow B f kids) (hr : r < B)
    (hy : (kids.filter fun c => d ≤ c.1) = y :: ys) : (fanout B f kids).filter (fun e => d * B + r ≤ e.1) =
      ((f y.2).filter fun e => (if d < y.1 then 0 else r) ≤ e.1).map (Direction.moved B y.1) ++
        fanout B f ys := by
  have hsplit : kids = kids.takeWhile (fun c => c.1 < d) ++ y :: ys := by
    rw [← hy, ← hs.dropWhile_eq_filter, List.takeWhile_append_dropWhile]
  have hlow : ∀ c ∈ kids.takeWhile (fun c => c.1 < d), c.1 < d := fun c hc => by
    simpa using List.mem_takeWhile_imp hc
  have hyd : d ≤ y.1 := by
    have hm : y ∈ kids.filter fun c => d ≤ c.1 := by
      rw [hy]
      exact List.mem_cons_self
    simpa using (List.mem_filter.mp hm).2
  rw [hsplit] at hn hs ⊢
  obtain ⟨hn₁, hny, hn₂⟩ := hn.of_cut
  obtain ⟨-, -, hcut⟩ := hs.of_cut
  have hnil : (fanout B f (kids.takeWhile fun c => c.1 < d)).filter (fun e => d * B + r ≤ e.1) = [] :=
    List.filter_eq_nil_iff.mpr fun e he => by
      have := fanout_below (r := r) hn₁ hlow e he
      simpa using this
  have hrest : (fanout B f ys).filter (fun e => d * B + r ≤ e.1) = fanout B f ys :=
    List.filter_eq_self.mpr fun e he => by
      have hab : ∀ c ∈ ys, d < c.1 := fun c hc => lt_of_le_of_lt hyd (hcut.above c hc)
      have := fanout_above hr hab e he
      exact decide_eq_true this.le
  rw [fanout_append, List.filter_append, hnil, List.nil_append, fanout_cons, List.filter_append, hrest,
    List.filter_map]
  congr 2
  refine List.filter_congr fun e he => decide_eq_decide.mpr ?_
  have hlt := hny e he
  show d * B + r ≤ y.1 * B + e.1 ↔ _
  split_ifs with hd
  · have : (d + 1) * B ≤ y.1 * B := Nat.mul_le_mul_right B hd
    rw [Nat.succ_mul] at this
    omega
  · rw [show y.1 = d by omega]
    omega

/-- Nothing from a key on, where no child stands from its digit on. -/
theorem filter_fanout_nil (hn : Narrow B f kids) (hy : (kids.filter fun c => d ≤ c.1) = []) :
    (fanout B f kids).filter (fun e => d * B + r ≤ e.1) = [] := by
  refine List.filter_eq_nil_iff.mpr fun e he => ?_
  have hlow : ∀ c ∈ kids, c.1 < d := fun c hc => by simpa using List.filter_eq_nil_iff.mp hy c hc
  have := fanout_below (r := r) hn hlow e he
  simpa using this

end Fanout

theorem KeySorted.filter_cons {x : ℕ × α} {xs : List (ℕ × α)} (hs : KeySorted l)
    (h : (l.filter fun e => k ≤ e.1) = x :: xs) : k ≤ x.1 ∧ x ∈ l ∧ xs = l.filter fun e => x.1 + 1 ≤ e.1 := by
  have hm : x ∈ l.filter fun e => k ≤ e.1 := by
    rw [h]
    exact List.mem_cons_self
  obtain ⟨hm, hk⟩ := List.mem_filter.mp hm
  have hfind : (l.find? fun e => k ≤ e.1) = some (x.1, x.2) := by
    rw [← List.head?_filter, h]
    rfl
  rw [hs.filter_from hfind] at h
  exact ⟨of_decide_eq_true hk, hm, (List.cons.inj h).2.symm⟩

end SortedAssoc

end Expanse
