import Mathlib.Data.List.Perm.Basic
import Mathlib.Tactic

/-!
# Jobs in flight

The jobs in flight are the first entries of an array. One of them is replaced in place,
or removed by putting the last one in its place. Up to order the first exchanges two jobs
and the second takes one away, so that sums, membership and positions follow.
-/

namespace Expanse.Pool

variable {α : Type*} {l : List α} {i : ℕ} {a b z : α}

theorem exists_cut (h : l[i]? = some a) : ∃ xs ys, l = xs ++ a :: ys ∧ xs.length = i := by
  obtain ⟨hi, rfl⟩ := List.getElem?_eq_some_iff.mp h
  refine ⟨l.take i, l.drop (i + 1), ?_, List.length_take_of_le hi.le⟩
  rw [List.cons_getElem_drop_succ, List.take_append_drop]

theorem exists_cut_set (h : l[i]? = some a) :
    ∃ xs ys, l = xs ++ a :: ys ∧ ∀ b, l.set i b = xs ++ b :: ys := by
  obtain ⟨xs, ys, rfl, rfl⟩ := exists_cut h
  exact ⟨xs, ys, rfl, fun b => by simp⟩

theorem perm_set (h : l[i]? = some a) : (a :: l.set i b).Perm (b :: l) := by
  obtain ⟨xs, ys, rfl, hset⟩ := exists_cut_set h
  calc
    a :: (xs ++ a :: ys).set i b = a :: (xs ++ b :: ys) := by rw [hset]
    _ |>.Perm (a :: b :: (xs ++ ys)) := List.perm_middle.cons a
    _ |>.Perm (b :: a :: (xs ++ ys)) := .swap b a _
    _ |>.Perm (b :: (xs ++ a :: ys)) := List.perm_middle.symm.cons b

theorem perm_swapRemove (h : l[i]? = some a) (hz : l[l.length - 1]? = some z) :
    (a :: (l.set i z).take (l.length - 1)).Perm l := by
  obtain ⟨xs, rfl⟩ : ∃ xs, l = xs ++ [z] := by
    obtain ⟨xs, ys, hl, hlen⟩ := exists_cut hz
    have hys : ys.length = 0 := by
      have := congrArg List.length hl
      simp only [List.length_append, List.length_cons] at this
      omega
    exact ⟨xs, by rw [hl, List.length_eq_zero_iff.mp hys]⟩
  have hlen : (xs ++ [z]).length - 1 = xs.length := by simp
  rw [hlen]
  by_cases hi : i < xs.length
  · rw [List.getElem?_append_left hi] at h
    rw [List.set_append_left _ _ hi, List.take_left' (List.length_set ..)]
    exact (perm_set h).trans (List.perm_append_singleton _ _).symm
  · have hix : i = xs.length := by
      have := (List.getElem?_eq_some_iff.mp h).1
      simp only [List.length_append, List.length_singleton] at this
      omega
    subst hix
    have haz : a = z := by simpa using h.symm
    subst haz
    simpa using (List.perm_append_singleton _ _).symm

/-- The first free slot, after those in use. -/
theorem modify_length_append (f : α → α) (l : List α) (a : α) (r : List α) :
    (l ++ a :: r).modify l.length f = l ++ f a :: r := by
  induction l with
  | nil => rfl
  | cons x l ih => simp only [List.cons_append, List.length_cons, List.modify_succ_cons, ih]

end Expanse.Pool
