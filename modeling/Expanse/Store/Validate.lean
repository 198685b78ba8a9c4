import Expanse.Engine.Validate
import Expanse.Store.Set
import Expanse.Store.Map

/-!
# Validating a set or map

`validateDefensive` checks the root, flushes the insert path, walks the tree and
compares the count with the stored population. A run keeps every tree acceptable as
long as no insert splits a narrow leaf that is too small for the slot below the
split: the leaf is moved down as it is, while the slot there asks for more keys.
-/

namespace Expanse

open Radix SortedAssoc Edge Runs

namespace Store

variable {V : Type}

/-- `validate_defensive`; the depth limit of the walk is eight levels below the root. -/
def validateDefensive (fl : Flavour) (s : Store V) : Except String Unit :=
  match s.root with
  | .empty => .ok ()
  | .leaf cols =>
    let pop := cols.size
    if pop < 1 ∨ ROOT_LEAF_CAP < pop then .error s!"root leaf pop {pop} out of range"
    else if ¬ ascending cols.keys then .error "root leaf keys unsorted"
    else .ok ()
  | .tree top =>
    if top.isNull then .error "tree root with null top"
    else
      let flushed := match s.flushPath.root with
        | .tree top => top
        | _ => top
      match walkValid fl true 9 flushed 8 with
      | .error e => .error e
      | .ok counted =>
        let pop := s.treePop
        if counted ≠ pop then .error s!"total population {pop} disagrees with tree {counted}"
        else .ok ()

variable [Inhabited V] {fl : Flavour} {s : Store V}

theorem validateDefensive_eq (h : Inv fl (Edge.floor fl) s) : validateDefensive fl s = .ok () := by
  obtain ⟨root, n, path⟩ := s
  cases root with
  | empty => rfl
  | leaf cols =>
    have hl : LeafInv cols path := h
    unfold validateDefensive
    simp only
    rw [if_neg (by have := hl.one_le; have := hl.le_cap; omega),
      if_neg (by simp [ascending_of_pairwise hl.packed.sorted])]
  | tree top =>
    have ht : TreeInv fl (Edge.floor fl) top n path := h
    have hlarge := ht.large
    have hnull : ¬ top.isNull = true := by
      intro hn
      rw [(Nullable.isNull_iff top).mp hn] at hlarge
      simp [entries, ROOT_LEAF_CAP] at hlarge
    have hpos : 1 ≤ (entries 8 (settled path top)).length := by
      rw [ht.entries_settled]
      exact le_trans (by decide) hlarge
    unfold validateDefensive
    simp only [ht.flushPath_eq]
    rw [if_neg hnull, walkValid_eq ht.wf (by decide) le_rfl (fun _ => hpos) (by decide)]
    simp only
    rw [if_neg (by rw [ht.entries_settled, ht.pop]; simp)]

/-- What holds of a valid container: the validator accepts it, it has the structure the validator
looks for, and the descent of every stored key meets the skipped digits that it finds on its way. -/
structure Valid (fl : Flavour) (s : Store V) : Prop where
  accepted : validateDefensive fl s = .ok ()
  structured : Inv fl (Edge.floor fl) s
  decoded : ∀ k v, (k, v) ∈ s.items → s.find k = some v

theorem valid_of_inv (h : Inv fl (Edge.floor fl) s) : Valid fl s where
  accepted := validateDefensive_eq h
  structured := h
  decoded := fun _ _ hm => (find_spec h (h.bound hm)).mpr hm

theorem admitsNarrow_floor : AdmitsNarrow fl (Edge.floor fl) := fun _ _ _ _ _ => le_rfl

theorem admits_floor : Admits fl (Edge.floor fl) := fun _ _ _ => le_rfl

end Store

open Store

/-- Every state that a run reaches is valid, if no insert of the run splits a narrow leaf that is
smaller than the immediate capacity of the slot below the split. -/
theorem run_valid (ops : List ExpanseSet.Op) (mops : List ExpanseMap.Op)
    (hs : Along ExpanseSet.step (fun s op => ¬ ExpanseSet.SplittingOp (Edge.floor .set) s op)
      Store.new ops)
    (hm : Along ExpanseMap.step (fun m op => ¬ ExpanseMap.SplittingOp (Edge.floor .map) m op)
      Store.new mops) :
    (∀ outs s, run ExpanseSet.step Store.new ops = .ok (outs, s) →
      Valid .set s ∧ Valid .set s.flushPath) ∧
    (∀ outs m, run ExpanseMap.step Store.new mops = .ok (outs, m) →
      Valid .map m ∧ Valid .map m.flushPath) := by
  refine ⟨fun outs s hr => ?_, fun outs m hr => ?_⟩
  · have hinv : Inv .set (Edge.floor .set) s := run_invariant
      (fun _ _ _ _ h hfit hstep => ExpanseSet.step_inv h hfit admits_floor admitsNarrow_floor hstep)
      inv_new hs hr
    exact ⟨valid_of_inv hinv, valid_of_inv (inv_flushPath hinv).1⟩
  · have hinv : Inv .map (Edge.floor .map) m := run_invariant
      (fun _ _ _ _ h hfit hstep => ExpanseMap.step_inv h hfit admits_floor admitsNarrow_floor hstep)
      inv_new hm hr
    exact ⟨valid_of_inv hinv, valid_of_inv (inv_flushPath hinv).1⟩

/-- A bitmap leaf that skips bytes, with forty keys elsewhere; all but `left` of its 33 keys are
removed, so that it is a narrow `Leaf1`, and the last insert splits it at its third byte. -/
def splitKeys (left : ℕ) : List (Bool × UInt64) :=
  (List.range 33).map (fun i => (true, 0xAA00000000000100 + UInt64.ofNat i)) ++
    (List.range 40).map (fun i => (true, 0xBB00000000000000 + UInt64.ofNat i)) ++
    (List.range (33 - left)).map (fun i => (false, 0xAA00000000000100 + UInt64.ofNat i)) ++
    [(true, 0xAA00000000010000)]

def setOps (keys : List (Bool × UInt64)) : List ExpanseSet.Op :=
  keys.map fun k => if k.1 then .insert k.2 else .remove k.2

def mapOps (keys : List (Bool × UInt64)) : List ExpanseMap.Op :=
  keys.map fun k => if k.1 then .insert k.2 7 else .remove k.2

/-- With twenty keys left in the leaf both runs keep their trees valid. -/
theorem run_valid_split :
    (∃ outs s, run ExpanseSet.step Store.new (setOps (splitKeys 20)) = .ok (outs, s) ∧
      Valid .set s) ∧
    (∃ outs m, run ExpanseMap.step Store.new (mapOps (splitKeys 20)) = .ok (outs, m) ∧
      Valid .map m) := by
  obtain ⟨hs, hm⟩ := run_valid (setOps (splitKeys 20)) (mapOps (splitKeys 20))
    (by decide +kernel) (by decide +kernel)
  have hsok : (run ExpanseSet.step Store.new (setOps (splitKeys 20))).toOption.isSome = true := by
    decide +kernel
  have hmok : (run ExpanseMap.step Store.new (mapOps (splitKeys 20))).toOption.isSome = true := by
    decide +kernel
  constructor
  · cases hr : run ExpanseSet.step Store.new (setOps (splitKeys 20)) with
    | error f => simp [hr, Except.toOption] at hsok
    | ok r => exact ⟨r.1, r.2, rfl, (hs r.1 r.2 hr).1⟩
  · cases hr : run ExpanseMap.step Store.new (mapOps (splitKeys 20)) with
    | error f => simp [hr, Except.toOption] at hmok
    | ok r => exact ⟨r.1, r.2, rfl, (hm r.1 r.2 hr).1⟩

/-- With three keys left in the leaf the validator rejects the tree: the slot below the split asks
for seven keys of a set and three of a map. -/
theorem run_rejected_after_low_split :
    ¬ ∀ ops outs s, run ExpanseSet.step Store.new ops = .ok (outs, s) → Valid .set s := by
  intro h
  have hrej : ((run ExpanseSet.step Store.new (setOps (splitKeys 3))).toOption.map fun r =>
      (validateDefensive .set r.2).toOption) = some none := by
    decide +kernel
  cases hr : run ExpanseSet.step Store.new (setOps (splitKeys 3)) with
  | error f => simp [hr, Except.toOption] at hrej
  | ok r =>
    have hacc := (h _ r.1 r.2 hr).accepted
    simp [hr, hacc, Except.toOption] at hrej

end Expanse
