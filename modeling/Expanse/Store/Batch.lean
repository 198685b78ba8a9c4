import Expanse.Engine.BatchWalk
import Expanse.Store.Neighbours

/-!
# Batched lookups on a store

The batch lookups of the set and the map hand a tree to the batch driver. Whatever the
width, each output position is written once, with the answer of the scalar walk for the
key at that position.
-/

namespace Expanse

open Edge Store

theorem reads_of_inv {V : Type} [Inhabited V] {fl : Flavour} {lo : ℕ → ℕ → ℕ} {s : Store V}
    {top : Edge V} (h : Inv fl lo s) (ht : s.root = .tree top) : Reads fl top 8 := by
  obtain ⟨root, n, path⟩ := s
  cases ht
  exact ⟨by decide, TreeInv.readable h⟩

/-- On every reachable tree, for all keys and at every width, the interleaved lookup ends, writes
each output position once, and leaves the scalar walk's answers in the order of the keys. -/
theorem batch_answers_as_scalar (w turns : ℕ) (keys : List UInt64) (hw : 0 < w)
    (hturns : keys.length * 9 < turns) :
    (∀ s : ExpanseSet, ExpanseSet.Reachable s → ∀ top, s.root = .tree top →
      ∀ out : List Bool, out.length = keys.length →
        ∃ results written,
          walkSetBatch turns w top (keys.map UInt64.toNat) out 8 = .ok (results, written) ∧
          written.Perm (List.range keys.length) ∧
          (keys.map UInt64.toNat).mapM (walkSetImpl FUEL top · 8) = .ok results) ∧
    ∀ s : ExpanseMap, ExpanseMap.Reachable s → ∀ top, s.root = .tree top →
      ∀ out : List (Option UInt64), out.length = keys.length →
        ∃ results written,
          walkMapBatch turns w top (keys.map UInt64.toNat) out 8 = .ok (results, written) ∧
          written.Perm (List.range keys.length) ∧
          (keys.map UInt64.toNat).mapM (walkMapImpl FUEL top · 8) = .ok results := by
  have hlen : (keys.map UInt64.toNat).length = keys.length := List.length_map _
  rw [← hlen] at hturns ⊢
  constructor
  · intro s h top ht out hout
    exact walkSetBatch_spec (reads_of_inv h.inv ht) (by decide) hw hout hturns
  · intro s h top ht out hout
    exact walkMapBatch_spec (reads_of_inv h.inv ht) (by decide) hw hout hturns

/-- Three keys at width two on the set and the map after their `warmOps`. -/
theorem batch_answers_as_scalar_warm :
    (∃ s : ExpanseSet, ∃ top, s.root = .tree top ∧ ∃ results written,
      walkSetBatch 28 2 top [3, 39, 3] [true, true, true] 8 = .ok (results, written) ∧
        written.Perm [0, 1, 2] ∧ [3, 39, 3].mapM (walkSetImpl FUEL top · 8) = .ok results) ∧
    ∃ s : ExpanseMap, ∃ top, s.root = .tree top ∧ ∃ results written,
      walkMapBatch 28 2 top [3, 40, 3] [none, none, none] 8 = .ok (results, written) ∧
        written.Perm [0, 1, 2] ∧ [3, 40, 3].mapM (walkMapImpl FUEL top · 8) = .ok results := by
  constructor
  · obtain ⟨s, hs, hlen, -⟩ := ExpanseSet.warmOps_reach
    obtain ⟨top, ht⟩ := tree_of_large hs.inv (by rw [hlen]; decide)
    exact ⟨s, top, ht, (batch_answers_as_scalar 2 28 [3, 39, 3]
      (by decide) (by decide)).1 s hs top ht [true, true, true] rfl⟩
  · obtain ⟨s, hs, hlen⟩ := ExpanseMap.warmOps_reach
    obtain ⟨top, ht⟩ := tree_of_large hs.inv (by rw [hlen]; decide)
    exact ⟨s, top, ht, (batch_answers_as_scalar 2 28 [3, 40, 3]
      (by decide) (by decide)).2 s hs top ht [none, none, none] rfl⟩

end Expanse
