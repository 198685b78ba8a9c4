import Expanse.Library.Ends
import Expanse.Library.Puts

/-!
# A slab with a freelist

A slab is a list of slots. A slot is taken, and then it holds a value, or it is on the freelist. A
slab changes at a free slot or at its end; whoever takes a slot knows what it holds. A map over a
slab changes the entry of one key beside the others.
-/

namespace Expanse

namespace Slab

variable {α : Type} {taken taken' : List (ℕ × α)} {arena : List (Option α)} {free : List ℕ} {i : ℕ}

/-- Every slot is taken once, and holds its value, or it is free. -/
structure Slots (taken : List (ℕ × α)) (arena : List (Option α)) (free : List ℕ) : Prop where
  holds : ∀ x ∈ taken, arena[x.1]? = some (some x.2)
  slots : (taken.map Prod.fst ++ free).Perm (List.range arena.length)

theorem slots_nil : Slots ([] : List (ℕ × α)) [] [] := ⟨fun _ hx => absurd hx List.not_mem_nil, .refl _⟩

/-- To take slots is to find their values in free ones. -/
theorem slots_append {ts : List (ℕ × α)} : Slots (ts ++ taken) arena free ↔
    (∀ x ∈ ts, arena[x.1]? = some (some x.2)) ∧ Slots taken arena (ts.map Prod.fst ++ free) := by
  have hperm : ((ts ++ taken).map Prod.fst ++ free).Perm (taken.map Prod.fst ++ (ts.map Prod.fst ++ free)) := by
    rw [List.map_append, List.append_assoc]
    exact List.perm_append_comm_assoc _ _ _
  constructor
  · intro h
    exact ⟨fun x hx => h.holds x (List.mem_append_left _ hx), fun x hx => h.holds x (List.mem_append_right _ hx),
      hperm.symm.trans h.slots⟩
  · rintro ⟨hts, h⟩
    refine ⟨fun x hx => ?_, hperm.trans h.slots⟩
    rcases List.mem_append.mp hx with hx | hx
    · exact hts x hx
    · exact h.holds x hx

theorem Slots.of_perm (h : Slots taken arena free) (hp : taken.Perm taken') : Slots taken' arena free :=
  ⟨fun x hx => h.holds x (hp.mem_iff.mpr hx), ((hp.map _).symm.append_right free).trans h.slots⟩

theorem Slots.lt (h : Slots taken arena free) (hi : i ∈ free) : i < arena.length :=
  List.mem_range.mp (h.slots.mem_iff.mp (List.mem_append_right _ hi))

theorem Slots.nodup (h : Slots taken arena free) : (taken.map Prod.fst ++ free).Nodup :=
  h.slots.nodup_iff.mpr List.nodup_range

theorem Slots.count (h : Slots taken arena free) : taken.length + free.length = arena.length := by
  have hlen := h.slots.length_eq
  rwa [List.length_append, List.length_map, List.length_range] at hlen

theorem Slots.set (h : Slots taken arena (i :: free)) (y : Option α) :
    Slots taken (arena.set i y) (i :: free) := by
  refine ⟨fun x hx => ?_, by rw [List.length_set]; exact h.slots⟩
  have hne : i ≠ x.1 := fun he =>
    (List.nodup_append.mp h.nodup).2.2 x.1 (List.mem_map_of_mem hx) i List.mem_cons_self he.symm
  rw [List.getElem?_set_ne hne]
  exact h.holds x hx

theorem Slots.push (h : Slots taken arena free) (y : Option α) :
    Slots taken (arena ++ [y]) (arena.length :: free) := by
  refine ⟨fun x hx => ?_, ?_⟩
  · have hat := h.holds x hx
    rw [List.getElem?_append_left (List.getElem?_eq_some_iff.mp hat).1]
    exact hat
  · rw [List.length_append, List.length_singleton, List.range_succ]
    exact List.perm_middle.trans ((h.slots.cons _).trans (List.perm_append_singleton _ _).symm)

end Slab

namespace SortedAssoc

variable {α β : Type} {l : List (ℕ × α)} {k : ℕ} {v : α}

theorem lookup_map_snd (f : α → β) (k : ℕ) (l : List (ℕ × α)) :
    (l.map fun x => (x.1, f x.2)).lookup k = (l.lookup k).map f := by
  induction l with
  | nil => rfl
  | cons x l ih =>
    rw [List.map_cons, List.lookup_cons, List.lookup_cons, ih]
    cases k == x.1 <;> rfl

theorem perm_put (hs : KeySorted l) : (put k v l).Perm ((k, v) :: del k l) := by
  rcases hs.cut_cases k with ⟨l₁, w, l₂, rfl, hcut⟩ | ⟨l₁, l₂, rfl, hcut⟩
  · rw [put_cut_mem hcut, del_cut_mem hcut]
    exact List.perm_middle
  · rw [put_cut_new hcut, del_of_not_mem hcut.not_mem]
    exact List.perm_middle

theorem perm_del (hs : KeySorted l) (hk : l.lookup k = some v) : l.Perm ((k, v) :: del k l) := by
  obtain ⟨l₁, l₂, rfl, hcut⟩ := exists_cut_of_mem hs ((lookup_eq_some_iff hs).mp hk)
  rw [del_cut_mem hcut]
  exact List.perm_middle

theorem del_eq_self (hs : KeySorted l) (hk : l.lookup k = none) : del k l = l := by
  refine del_of_not_mem fun v hv => ?_
  rw [lookup_of_mem hs hv] at hk
  exact Option.some_ne_none v hk

end SortedAssoc

namespace Runs

/-- A visitor that goes on to the end is a fold. -/
theorem visitAll_foldl {σ α : Type} {visit : σ → α → Bool × σ} {l : List α} (f : σ → α → σ)
    (h : ∀ s, ∀ x ∈ l, visit s x = (true, f s x)) (s : σ) : visitAll visit s l = (true, l.foldl f s) := by
  induction l generalizing s with
  | nil => rfl
  | cons x l ih =>
    rw [visitAll_cons, h s x List.mem_cons_self, if_pos rfl, List.foldl_cons]
    exact ih (fun s y hy => h s y (List.mem_cons_of_mem x hy)) _

end Runs

end Expanse
