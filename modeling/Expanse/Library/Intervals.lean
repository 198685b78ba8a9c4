import Mathlib.Data.List.Basic
import Mathlib.Order.Interval.Finset.Nat
import Mathlib.Tactic

/-!
# Intervals side by side

An interval is its start and its length. Intervals that lie apart from each other below a
bound have a total length within the bound.
-/

namespace Expanse.Intervals

variable {l : List (ℕ × ℕ)} {x y : ℕ × ℕ} {n : ℕ}

/-- One of the two ends before the other starts. -/
def Apart (x y : ℕ × ℕ) : Prop := x.1 + x.2 ≤ y.1 ∨ y.1 + y.2 ≤ x.1

instance (x y : ℕ × ℕ) : Decidable (Apart x y) := inferInstanceAs (Decidable (_ ∨ _))

theorem Apart.symm (h : Apart x y) : Apart y x := Or.symm h

/-- The first interval lies in the second. -/
def Inside (x y : ℕ × ℕ) : Prop := y.1 ≤ x.1 ∧ x.1 + x.2 ≤ y.1 + y.2

theorem Apart.inside {x' y' : ℕ × ℕ} (h : Apart x y) (hx : Inside x' x) (hy : Inside y' y) : Apart x' y' := by
  unfold Inside at hx hy
  unfold Apart at h ⊢
  omega

theorem pairwise_flatMap {α : Type*} {l : List α} {f : α → ℕ × ℕ} {g : α → List (ℕ × ℕ)}
    (hl : (l.map f).Pairwise Apart) (hg : ∀ a ∈ l, (g a).Pairwise Apart)
    (hin : ∀ a ∈ l, ∀ x ∈ g a, Inside x (f a)) : (l.flatMap g).Pairwise Apart := by
  rw [List.pairwise_flatMap]
  refine ⟨hg, ?_⟩
  rw [List.pairwise_map] at hl
  refine hl.imp_of_mem ?_
  intro a b ha hb hab x hx y hy
  exact hab.inside (hin a ha x hx) (hin b hb y hy)

theorem exists_points (hl : l.Pairwise Apart) : ∃ s : Finset ℕ, s.card = (l.map Prod.snd).sum ∧
    ∀ p ∈ s, ∃ x ∈ l, x.1 ≤ p ∧ p < x.1 + x.2 := by
  induction l with
  | nil => exact ⟨∅, rfl, by simp⟩
  | cons x l ih =>
    obtain ⟨hhead, htail⟩ := List.pairwise_cons.mp hl
    obtain ⟨s, hcard, hs⟩ := ih htail
    have hdisj : Disjoint (Finset.Ico x.1 (x.1 + x.2)) s := by
      rw [Finset.disjoint_left]
      intro p hp hps
      obtain ⟨y, hy, hlo, hhi⟩ := hs p hps
      have hp' := Finset.mem_Ico.mp hp
      rcases hhead y hy with h | h <;> omega
    refine ⟨Finset.Ico x.1 (x.1 + x.2) ∪ s, ?_, ?_⟩
    · rw [Finset.card_union_of_disjoint hdisj, hcard, Nat.card_Ico, List.map_cons, List.sum_cons]
      omega
    · intro p hp
      rcases Finset.mem_union.mp hp with hp | hp
      · exact ⟨x, List.mem_cons_self, Finset.mem_Ico.mp hp⟩
      · obtain ⟨y, hy, hb⟩ := hs p hp
        exact ⟨y, List.mem_cons_of_mem x hy, hb⟩

theorem sum_le (hl : l.Pairwise Apart) (hn : ∀ x ∈ l, x.1 + x.2 ≤ n) : (l.map Prod.snd).sum ≤ n := by
  obtain ⟨s, hcard, hs⟩ := exists_points hl
  have hsub : s ⊆ Finset.range n := by
    intro p hp
    obtain ⟨x, hx, -, hhi⟩ := hs p hp
    have := hn x hx
    exact Finset.mem_range.mpr (by omega)
  rw [← hcard]
  exact (Finset.card_le_card hsub).trans (Finset.card_range n).le

end Expanse.Intervals
