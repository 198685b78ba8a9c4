import Expanse.Store.Map
import Expanse.Store.Set

/-!
# Rank and select

`count_below` and `by_count` flush the path first, so they read exact
populations. On every reachable set and map they are rank and select over the
stored items, and `count_range` counts an inclusive range.
-/

namespace Expanse

open Radix SortedAssoc Edge

namespace Store

variable {V : Type} [Inhabited V] {fl : Flavour} {lo : ℕ → ℕ → ℕ} {s : Store V}

theorem countBelow_items (h : Inv fl lo s) {key : ℕ} (hk : key < 256 ^ 8) :
    s.countBelow key = s.items.countP fun e => e.1 < key := by
  obtain ⟨root, n, path⟩ := s
  cases root with
  | empty => rfl
  | leaf cols =>
    have : (⟨.leaf cols, n, path⟩ : Store V).flushPath = ⟨.leaf cols, n, path⟩ := rfl
    rw [countBelow, this]
    simp only [items]
    rw [lowerBound_eq_countP h.packed.sorted, ← Columns.map_fst_entries, List.countP_map]
    rfl
  | tree top =>
    rw [countBelow, TreeInv.flushPath_eq h]
    simp only [items]
    rw [countBelow_eq h.wf hk (by decide) (by decide) le_rfl, TreeInv.entries_settled h]

theorem byCount_items (h : Inv fl lo s) (n : ℕ) : s.byCount n = s.items[n]? := by
  rw [byCount]
  split_ifs with hn
  · rw [List.getElem?_eq_none]
    rw [← len_eq h]
    exact hn
  · rw [len_eq h, not_le] at hn
    obtain ⟨root, m, path⟩ := s
    cases root with
    | empty => rfl
    | leaf cols => rfl
    | tree top =>
      rw [TreeInv.flushPath_eq h]
      simp only [items] at hn ⊢
      rw [byCount_eq h.wf (by rwa [TreeInv.entries_settled h]) (by decide) (by decide) le_rfl,
        TreeInv.entries_settled h]

theorem countRange_items (h : Inv fl lo s) {a b : ℕ} (ha : a < 256 ^ 8) (hb : b < 256 ^ 8) :
    s.countRange a b = s.items.countP fun e => a ≤ e.1 ∧ e.1 ≤ b := by
  rw [countRange]
  by_cases hab : b < a
  · rw [if_pos hab, eq_comm, List.countP_eq_zero]
    intro e _
    simp only [decide_eq_true_eq]
    omega
  · have hsplit := countP_range (l := s.items) (not_lt.mp hab)
    rw [if_neg hab, countBelow_items h hb, countBelow_items h ha]
    cases hf : s.find b with
    | some v =>
      have hlast := h.sorted.countP_le_of_mem ((find_spec h hb).mp hf)
      simp only [Option.isSome_some, if_true]
      omega
    | none =>
      have hlast := countP_le_of_not_mem (l := s.items) (b := b) fun v hm => by
        rw [(find_spec h hb).mpr hm] at hf
        cases hf
      simp only [Option.isSome_none, Bool.false_eq_true, if_false]
      omega

/-- Rank and select over the stored items. -/
structure Counts (s : Store V) : Prop where
  below : ∀ key : UInt64, s.countBelow key.toNat = s.items.countP fun e => e.1 < key.toNat
  select : ∀ n, s.byCount n = s.items[n]?
  isSome_iff : ∀ n, (s.byCount n).isSome ↔ n < s.len
  byCount_countBelow : ∀ k v, (k, v) ∈ s.items → s.byCount (s.countBelow k) = some (k, v)
  countBelow_byCount : ∀ n k v, s.byCount n = some (k, v) → s.countBelow k = n
  range : ∀ a b : UInt64, s.countRange a.toNat b.toNat =
    s.items.countP fun e => a.toNat ≤ e.1 ∧ e.1 ≤ b.toNat

theorem Inv.counts (h : Inv fl lo s) : Counts s := by
  have hbelow : ∀ {k v}, (k, v) ∈ s.items → s.countBelow k = s.items.countP fun e => e.1 < k :=
    fun hm => countBelow_items h (h.bound hm)
  refine ⟨fun key => countBelow_items h (toNat_lt key), byCount_items h, ?_, ?_, ?_,
    fun a b => countRange_items h (toNat_lt a) (toNat_lt b)⟩
  · intro n
    rw [byCount_items h, len_eq h, Option.isSome_iff_exists]
    simp only [List.getElem?_eq_some_iff]
    constructor
    · rintro ⟨_, hn, _⟩
      exact hn
    · exact fun hn => ⟨_, hn, rfl⟩
  · intro k v hm
    obtain ⟨i, hi⟩ := List.getElem?_of_mem hm
    rw [byCount_items h, hbelow hm, h.sorted.countP_lt hi]
    exact hi
  · intro n k v hn
    rw [byCount_items h] at hn
    rw [hbelow (List.mem_of_getElem? hn), h.sorted.countP_lt hn]

end Store

/-- Rank, select and range counts of every reachable set and map. -/
theorem reachable_counts :
    (∀ s : ExpanseSet, ExpanseSet.Reachable s → Store.Counts s) ∧
      ∀ s : ExpanseMap, ExpanseMap.Reachable s → Store.Counts s :=
  ⟨fun _ h => h.inv.counts, fun _ h => h.inv.counts⟩

/-- The state after `warmOps`, whose path still defers increments, and its map counterpart. -/
theorem reachable_counts_warm :
    (∃ outs s, Runs.run ExpanseSet.step Store.new ExpanseSet.warmOps = .ok (outs, s) ∧ Store.Counts s) ∧
      ∃ outs s, Runs.run ExpanseMap.step Store.new ExpanseMap.warmOps = .ok (outs, s) ∧ Store.Counts s := by
  constructor
  · obtain ⟨outs, s, hr, -⟩ := ExpanseSet.warmOps_run
    exact ⟨outs, s, hr, reachable_counts.1 s ⟨_, outs, hr⟩⟩
  · obtain ⟨outs, s, hr, -⟩ := ExpanseMap.warmOps_run
    exact ⟨outs, s, hr, reachable_counts.2 s ⟨_, outs, hr⟩⟩

end Expanse
