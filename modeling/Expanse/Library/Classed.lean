import Mathlib.Algebra.BigOperators.Group.Finset.Basic
import Mathlib.Tactic

/-!
# Lists divided into classes

A sum over the elements of a list is one over the classes with the elements counted in each. A
list put together from the parts of others is the part of one of them, or of those that stay,
where the others add nothing.
-/

namespace Expanse.Classed

variable {α β : Type*} {n : ℕ}

/-- Elements summed class by class; those without a class count for nothing. -/
theorem sum_by_class (l : List α) (f : α → Option ℕ) (g : ℕ → ℕ)
    (hf : ∀ x ∈ l, ∀ c, f x = some c → c < n) :
    ((List.range n).map fun c => l.countP (fun x => f x = some c) * g c).sum =
      (l.map fun x => (f x).elim 0 g).sum := by
  rw [← List.sum_toFinset _ List.nodup_range, List.toFinset_range]
  induction l with
  | nil => simp
  | cons x l ih =>
    have hcons : ∀ c, (x :: l).countP (fun y => f y = some c) * g c =
        l.countP (fun y => f y = some c) * g c + if f x = some c then g c else 0 := by
      intro c
      by_cases hc : f x = some c
      · rw [List.countP_cons_of_pos (by simpa using hc), if_pos hc, Nat.add_mul, Nat.one_mul]
      · rw [List.countP_cons_of_neg (by simpa using hc), if_neg hc, Nat.add_zero]
    have hone : ∑ c ∈ Finset.range n, (if f x = some c then g c else 0) = (f x).elim 0 g := by
      cases hx : f x with
      | none => simp
      | some d =>
        have hd := hf x List.mem_cons_self d hx
        simp only [Option.some.injEq, Finset.sum_ite_eq, Finset.mem_range, if_pos hd, Option.elim_some]
    simp only [hcons, Finset.sum_add_distrib, ih fun y hy => hf y (List.mem_cons_of_mem _ hy), hone,
      List.map_cons, List.sum_cons]
    exact Nat.add_comm _ _

theorem flatMap_only [DecidableEq α] {l : List α} {x : α} (hn : l.Nodup) (hx : x ∈ l)
    (f : α → List β) : (l.flatMap fun y => if y = x then f y else []) = f x := by
  obtain ⟨pre, post, rfl⟩ := List.append_of_mem hx
  have hne := List.nodup_append.mp hn
  have hnil : ∀ L : List α, x ∉ L → (L.flatMap fun y => if y = x then f y else []) = [] := by
    intro L hL
    rw [List.flatMap_eq_nil_iff]
    intro y hy
    refine if_neg fun heq => hL ?_
    rwa [← heq]
  have hpre : x ∉ pre := fun hm => hne.2.2 x hm x List.mem_cons_self rfl
  have hpost : x ∉ post := (List.nodup_cons.mp hne.2.1).1
  rw [List.flatMap_append, List.flatMap_cons, hnil pre hpre, hnil post hpost, if_pos rfl, List.append_nil,
    List.nil_append]

theorem flatMap_ite (l : List α) (stays : α → Bool) (f : α → List β) :
    (l.flatMap fun x => if stays x then f x else []) = (l.filter stays).flatMap f := by
  induction l with
  | nil => rfl
  | cons x l ih =>
    rw [List.flatMap_cons, ih]
    cases hx : stays x with
    | true => rw [if_pos rfl, List.filter_cons_of_pos hx, List.flatMap_cons]
    | false => rw [if_neg Bool.false_ne_true, List.filter_cons_of_neg (by rw [hx]; decide), List.nil_append]

end Expanse.Classed
