import Expanse.Engine.Split
import Expanse.Store.Neighbours

/-!
# Splits on the way of an insert

A narrow pointer of a valid subtree is split where the key leaves it, and the descent that
splits it goes on to an empty slot. So the descent into any reachable tree ends after one
split at most: it returns, or, in a map only, it panics at a full narrow leaf.
-/

namespace Expanse

open Radix Edge Store

theorem wf_of_clearPath {V : Type} [Inhabited V] {fl : Flavour} {lo : ℕ → ℕ → ℕ} {s : Store V}
    {top : Edge V} (h : Inv fl lo s) (ht : s.clearPath.root = .tree top) : WF fl lo 8 top := by
  obtain ⟨root, n, path⟩ := s
  cases root with
  | empty => cases ht
  | leaf cols => cases ht
  | tree top' =>
    rw [TreeInv.clearPath_eq h] at ht
    cases ht
    exact TreeInv.wf h

/-- The descent of an insert ends after one split at most; only a map may panic on its way. -/
structure Descends {V : Type} [Inhabited V] (fl : Flavour) (keep : Bool) (top : Edge V) (key : ℕ)
    (val : V) : Prop where
  ends : (∃ r, insertFlat fl keep FUEL top key val 8 = .ok r) ∨
    fl = .map ∧ Panics 8 top key ∧
      insertFlat fl keep FUEL top key val 8 = .error .indexOutOfBounds
  splits : insertSplits fl keep FUEL top key val 8 ≤ 1

theorem descends_of_wf {V : Type} [Inhabited V] {fl : Flavour} (keep : Bool) {top : Edge V} {key : ℕ}
    (val : V) (h : WF fl (fun _ _ => 0) 8 top) (hV : fl = .set → ∀ v : V, v = default) :
    Descends fl keep top key val where
  ends := by
    by_cases hp : fl = .map ∧ Panics 8 top key
    · obtain ⟨rfl, hp⟩ := hp
      exact .inr ⟨rfl, hp, insertFlat_panics keep val h.1 hp (show 8 ≤ 31 by decide)⟩
    · obtain ⟨r, hr, -⟩ := insertFlat_spec keep val h (by decide) le_rfl
        (clean_zero_of_safe fun hm hp' => hp ⟨hm, hp'⟩) admits_zero hV (show 2 * 8 + 4 ≤ FUEL by decide)
      exact .inl ⟨r, hr⟩
  splits := by
    refine insertSplits_le_one keep val h (by decide) ?_ admits_zero hV (by decide)
    rintro ⟨M, kb, aux, cols, -, -, hlt⟩
    exact absurd hlt (Nat.not_lt_zero _)

/-- Splitting a narrow pointer of a valid subtree where the key leaves its skipped digits keeps the
keys and their number, below a branch at the highest level where the key differs from all of them,
and the next look at the slot passes the key on to an empty one. The insert descent into every
reachable tree therefore ends after at most one split. -/
theorem split_then_descend (key : UInt64) :
    (∀ (V : Type) [Inhabited V] (fl : Flavour) (L : ℕ) (e : Edge V), WF fl (fun _ _ => 0) L e →
      e.ownLevel L < L → Aux.decodeMatches e.aux key.toNat (e.ownLevel L) L = false →
      ∃ at' aux' node',
        splitSkip e key.toNat L (Aux.pop0 e.aux (e.ownLevel L) + 1) = branch aux' node' ∧
        SplitOff fl (fun _ _ => 0) L e key.toNat at' aux' node') ∧
    (∀ s : ExpanseSet, ExpanseSet.Reachable s → ∀ top, s.clearPath.root = .tree top →
      ∀ keep, Descends .set keep top key.toNat ()) ∧
    ∀ s : ExpanseMap, ExpanseMap.Reachable s → ∀ top, s.clearPath.root = .tree top →
      ∀ keep val, Descends .map keep top key.toNat val := by
  refine ⟨?_, ?_, ?_⟩
  · intro V _ fl L e h hm hd
    have hg : slice key.toNat (e.ownLevel L) L ≠ slice e.aux (e.ownLevel L) L := by
      simpa [Aux.decodeMatches] using hd
    have hfit : leafFits (fun _ _ => 0) (splitLevel e.aux key.toNat L - 1) e := by
      cases e <;> first | trivial | exact Nat.zero_le _
    obtain ⟨aux', node', he, hoff⟩ := splitSkip_splitOff h hm hg hfit
    exact ⟨_, aux', node', he, hoff⟩
  · intro s h top ht keep
    exact descends_of_wf keep () (wf_of_clearPath h.inv ht) (fun _ _ => rfl)
  · intro s h top ht keep val
    exact descends_of_wf keep val (wf_of_clearPath h.inv ht) (fun hc => by cases hc)

/-- A byte-wide leaf below the skipped digit 5, left at 6, and the set and the map after their
`warmOps`. -/
theorem split_then_descend_warm :
    (∃ at' aux' node', splitSkip (leaf 1 0x500 (Columns.single 7 ())) 0x607 2 1 = branch aux' node' ∧
      SplitOff .set (fun _ _ => 0) 2 (leaf 1 0x500 (Columns.single 7 ())) 0x607 at' aux' node') ∧
    (∃ s : ExpanseSet, ∃ top, s.clearPath.root = .tree top ∧ Descends .set false top 3 ()) ∧
    ∃ s : ExpanseMap, ∃ top, s.clearPath.root = .tree top ∧ Descends .map false top 3 9 := by
  refine ⟨?_, ?_, ?_⟩
  · have hwf : WF .set (fun _ _ => 0) 2 (leaf 1 0x500 (Columns.single 7 ())) := by
      refine ⟨?_, trivial⟩
      rw [Shape]
      exact ⟨by decide, by decide, by decide, Columns.packed_single (by decide) (), by decide, by decide,
        by decide, by decide⟩
    exact (split_then_descend 0x607).1 Unit .set 2 _ hwf (by decide) (by decide)
  · obtain ⟨s, hs, hlen, -⟩ := ExpanseSet.warmOps_reach
    obtain ⟨hinv, hitems⟩ := inv_clearPath hs.inv
    obtain ⟨top, ht⟩ := tree_of_large hinv (by rw [hitems, hlen]; decide)
    exact ⟨s, top, ht, (split_then_descend 3).2.1 s hs top ht false⟩
  · obtain ⟨s, hs, hlen⟩ := ExpanseMap.warmOps_reach
    obtain ⟨hinv, hitems⟩ := inv_clearPath hs.inv
    obtain ⟨top, ht⟩ := tree_of_large hinv (by rw [hitems, hlen]; decide)
    exact ⟨s, top, ht, (split_then_descend 3).2.2 s hs top ht false 9⟩

end Expanse
