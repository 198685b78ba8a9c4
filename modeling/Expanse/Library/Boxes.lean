import Mathlib.Algebra.Order.BigOperators.Group.List
import Mathlib.Algebra.Order.Ring.Nat
import Mathlib.Data.Multiset.Filter
import Mathlib.Data.List.Nodup

/-!
# Boxes on a heap

A heap of boxes of one type: each live box has an address of its own. Where the next box
goes is a parameter, any address that is not zero and not live. `Holds` says which boxes
are live, as a multiset of addresses with contents; each operation is specified by what
it does to that multiset, so that owners are told apart by splitting it.
-/

namespace Expanse

/-- Where the allocator puts the next box, given how many it has served and the live addresses. -/
structure Placing where
  pick : ℕ → List ℕ → ℕ
  fresh : ∀ n live, pick n live ∉ live
  pos : ∀ n live, 0 < pick n live

/-- Every box goes above the live ones. -/
def Placing.above : Placing where
  pick _ live := live.sum + 1
  fresh _ live h := by
    have := List.single_le_sum (fun _ _ => Nat.zero_le _) _ h
    omega
  pos _ _ := Nat.succ_pos _

structure Boxes (β : Type) where
  cells : List (ℕ × β)
  served : ℕ
  nodup : (cells.map Prod.fst).Nodup

namespace Boxes

variable {β : Type} {b : Boxes β} {C : Multiset (ℕ × β)} {p : ℕ} {x y : β}

def empty : Boxes β := ⟨[], 0, List.nodup_nil⟩

def find (b : Boxes β) (p : ℕ) : Option β := b.cells.lookup p

/-- A new box with content `x`, and its address. -/
def alloc (P : Placing) (b : Boxes β) (x : β) : ℕ × Boxes β :=
  (P.pick b.served (b.cells.map Prod.fst),
    { cells := (P.pick b.served (b.cells.map Prod.fst), x) :: b.cells
      served := b.served + 1
      nodup := List.nodup_cons.mpr ⟨P.fresh _ _, b.nodup⟩ })

/-- Take a live box off the heap. -/
def free (b : Boxes β) (p : ℕ) : Option (Boxes β) :=
  if (b.find p).isSome then
    some
      { cells := b.cells.filter fun c => c.1 ≠ p
        served := b.served
        nodup := b.nodup.sublist (List.filter_sublist.map Prod.fst) }
  else none

def store (b : Boxes β) (p : ℕ) (x : β) : Option (Boxes β) :=
  if (b.find p).isSome then
    some
      { cells := b.cells.map fun c => if c.1 = p then (p, x) else c
        served := b.served
        nodup := by
          rw [List.map_map]
          refine (List.map_congr_left fun c _ => ?_) ▸ b.nodup
          by_cases hc : c.1 = p <;> simp [hc] }
  else none

/-- The live boxes are those of `C`. -/
def Holds (b : Boxes β) (C : Multiset (ℕ × β)) : Prop := (b.cells : Multiset (ℕ × β)) = C

theorem holds_empty : (empty : Boxes β).Holds 0 := rfl

theorem Holds.nodup_keys (h : b.Holds C) : (C.map Prod.fst).Nodup := by
  rw [← h]
  exact b.nodup

theorem Holds.find_iff (h : b.Holds C) : b.find p = some x ↔ (p, x) ∈ C := by
  obtain ⟨cells, served, hn⟩ := b
  rw [← h, Multiset.mem_coe]
  clear h
  show cells.lookup p = some x ↔ (p, x) ∈ cells
  induction cells with
  | nil => simp
  | cons c cells ih =>
    obtain ⟨q, z⟩ := c
    rw [List.map_cons, List.nodup_cons] at hn
    by_cases hpq : p = q
    · subst hpq
      have hno : (p, x) ∉ cells := fun hm => hn.1 (List.mem_map.mpr ⟨_, hm, rfl⟩)
      simp [hno, eq_comm]
    · rw [List.lookup_cons, beq_false_of_ne hpq, ih hn.2]
      simp [hpq]

theorem Holds.find (h : b.Holds ((p, x) ::ₘ C)) : b.find p = some x :=
  h.find_iff.mpr (Multiset.mem_cons_self _ _)

theorem Holds.fst_ne (h : b.Holds ((p, x) ::ₘ C)) : ∀ c ∈ C, c.1 ≠ p := by
  intro c hc he
  have hn := h.nodup_keys
  rw [Multiset.map_cons, Multiset.nodup_cons] at hn
  exact hn.1 (Multiset.mem_map.mpr ⟨c, hc, he⟩)

theorem Holds.alloc (h : b.Holds C) (P : Placing) (x : β) :
    (b.alloc P x).2.Holds (((b.alloc P x).1, x) ::ₘ C) := by
  rw [← h]
  rfl

theorem alloc_pos (b : Boxes β) (P : Placing) (x : β) : 0 < (b.alloc P x).1 := P.pos _ _

theorem Holds.free (h : b.Holds ((p, x) ::ₘ C)) : ∃ b', b.free p = some b' ∧ b'.Holds C := by
  unfold Boxes.free
  rw [h.find, Option.isSome_some, if_pos rfl]
  refine ⟨_, rfl, ?_⟩
  show (b.cells.filter (fun c => c.1 ≠ p) : Multiset (ℕ × β)) = C
  rw [← Multiset.filter_coe, h, Multiset.filter_cons_of_neg _ (by simp), Multiset.filter_eq_self]
  exact h.fst_ne

theorem Holds.store (h : b.Holds ((p, x) ::ₘ C)) (y : β) :
    ∃ b', b.store p y = some b' ∧ b'.Holds ((p, y) ::ₘ C) := by
  unfold Boxes.store
  rw [h.find, Option.isSome_some, if_pos rfl]
  refine ⟨_, rfl, ?_⟩
  show (b.cells.map (fun c => if c.1 = p then (p, y) else c) : Multiset (ℕ × β)) = _
  rw [← Multiset.map_coe, h, Multiset.map_cons, if_pos rfl]
  congr 1
  conv_rhs => rw [← Multiset.map_id C]
  exact Multiset.map_congr rfl fun c hc => if_neg (h.fst_ne c hc)

end Boxes

end Expanse
