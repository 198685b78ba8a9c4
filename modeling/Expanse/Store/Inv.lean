import Expanse.Engine.SlotSpec
import Expanse.Store.Store

/-!
# The invariant of a store

A root leaf is packed and within its capacity. A tree is well formed once the
deferred populations are flushed, it counts its keys, and the insert path, when
there is one, leads to a level-1 leaf of the kind and population it stores. That
the path also stores that leaf's own key bits is not part of the invariant.
-/

namespace Expanse

open Radix SortedAssoc Edge

namespace Edge

variable {V : Type} {t : Edge V} {kind : WarmLeaf} {pop : ℕ}

theorem ne_null_of_warmPop (h : warmPop kind t = some pop) : t ≠ null := by
  rintro rfl
  cases kind <;> cases h

variable [Inhabited V] {fl : Flavour} {lo : ℕ → ℕ → ℕ} {L u : ℕ} {e : Edge V} {route : List ℕ}

theorem resolve_wf (h : WF fl lo L e) (hr : resolve L e route = some (u, t)) : WF fl lo 1 t := by
  induction route generalizing L e u with
  | nil =>
    rw [resolve] at hr
    split_ifs at hr with hL
    cases hr
    exact hL ▸ h
  | cons d ds ih =>
    obtain ⟨aux, node, rfl⟩ := resolve_branch hr
    rw [resolve, Option.map_eq_some_iff] at hr
    obtain ⟨⟨u', t'⟩, hr', he⟩ := hr
    cases he
    exact ih ((shape_branch.mp h.1).child d) hr'

end Edge

namespace Store

variable {V : Type}

/-- The path leads to a level-1 leaf of the kind and population it stores. -/
def Leads (top : Edge V) (w : InsertPath) : Prop :=
  ∃ u t, resolve 8 top w.route = some (u, t) ∧ warmPop w.leaf t = some w.terminalPop

def settled (path : Option InsertPath) (top : Edge V) : Edge V :=
  match path with
  | some w => flushRoute w.pendingPop 8 top w.route
  | none => top

variable [Inhabited V]

/-- The stored keys with their values, ascending. -/
def items (s : Store V) : List (ℕ × V) :=
  match s.root with
  | .empty => []
  | .leaf cols => cols.entries
  | .tree top => entries 8 top

structure TreeInv (fl : Flavour) (lo : ℕ → ℕ → ℕ) (top : Edge V) (treePop : ℕ)
    (path : Option InsertPath) : Prop where
  readable : Readable fl (fun _ => True) 8 top
  wf : WF fl lo 8 (settled path top)
  pop : treePop = (entries 8 top).length
  large : ROOT_LEAF_CAP ≤ (entries 8 top).length
  leads : ∀ w, path = some w → Leads top w

structure LeafInv (cols : Columns V) (path : Option InsertPath) : Prop where
  packed : cols.Packed 8
  one_le : 1 ≤ cols.size
  le_cap : cols.size ≤ ROOT_LEAF_CAP
  cold : path = none

def Inv (fl : Flavour) (lo : ℕ → ℕ → ℕ) (s : Store V) : Prop :=
  match s.root with
  | .empty => s.path = none
  | .leaf cols => LeafInv cols s.path
  | .tree top => TreeInv fl lo top s.treePop s.path

variable {fl : Flavour} {lo : ℕ → ℕ → ℕ} {s : Store V} {top : Edge V} {n : ℕ}
  {path : Option InsertPath}

theorem inv_new : Inv fl lo (new : Store V) := rfl

/-- What does not fit the root leaf is in a tree. -/
theorem tree_of_large (h : Inv fl lo s) (hn : ROOT_LEAF_CAP < s.items.length) : ∃ top, s.root = .tree top := by
  obtain ⟨root, n, path⟩ := s
  cases root with
  | empty => cases hn
  | leaf cols =>
    have hcap : cols.size ≤ ROOT_LEAF_CAP := h.le_cap
    rw [items, Columns.length_entries] at hn
    omega
  | tree top => exact ⟨top, rfl⟩

theorem TreeInv.of_wf (h : WF fl lo 8 top) (hp : n = (entries 8 top).length)
    (hl : ROOT_LEAF_CAP ≤ (entries 8 top).length) (hw : ∀ w, path = some w → w.pendingPop = 0)
    (hlead : ∀ w, path = some w → Leads top w) : TreeInv fl lo top n path where
  readable := h.1.readable
  wf := by
    cases path with
    | none => exact h
    | some w =>
      obtain ⟨u, t, hr, hpop⟩ := hlead w rfl
      rw [settled, hw w rfl, flushRoute_zero h.1.readable hr (ne_null_of_warmPop hpop)]
      exact h
  pop := hp
  large := hl
  leads := hlead

namespace TreeInv

variable (h : TreeInv fl lo top n path)

include h

theorem entries_settled : entries 8 (settled path top) = entries 8 top := by
  cases path with
  | none => rfl
  | some w =>
    obtain ⟨u, t, hr, hpop⟩ := h.leads w rfl
    exact (flushRoute_entries h.readable hr (ne_null_of_warmPop hpop)).2

theorem flush :
    TreeInv fl lo (settled path top) n (path.map fun w => { w with pendingPop := 0 }) := by
  refine .of_wf h.wf ?_ ?_ ?_ ?_
  · rw [h.entries_settled]
    exact h.pop
  · rw [h.entries_settled]
    exact h.large
  · intro w' hw'
    cases path with
    | none => cases hw'
    | some w =>
      cases hw'
      rfl
  · intro w' hw'
    cases path with
    | none => cases hw'
    | some w =>
      cases hw'
      obtain ⟨u, t, hr, hpop⟩ := h.leads w rfl
      exact ⟨u, t, resolve_flushRoute h.readable hr (ne_null_of_warmPop hpop), hpop⟩

theorem clear : TreeInv fl lo (settled path top) n none := by
  refine .of_wf h.wf ?_ ?_ (by simp) (by simp)
  · rw [h.entries_settled]
    exact h.pop
  · rw [h.entries_settled]
    exact h.large

theorem flushPath_eq : (⟨.tree top, n, path⟩ : Store V).flushPath =
    ⟨.tree (settled path top), n, path.map fun w => { w with pendingPop := 0 }⟩ := by
  cases path with
  | none => rfl
  | some w =>
    obtain ⟨u, t, hr, hpop⟩ := h.leads w rfl
    simp only [flushPath, settled, Option.map_some]
    split_ifs with hp
    · rfl
    · have h0 : w.pendingPop = 0 := by omega
      rw [h0, flushRoute_zero h.readable hr (ne_null_of_warmPop hpop), ← h0]

theorem clearPath_eq : (⟨.tree top, n, path⟩ : Store V).clearPath =
    ⟨.tree (settled path top), n, none⟩ := by
  rw [clearPath, h.flushPath_eq]

end TreeInv

end Store

end Expanse
