import Mathlib.Data.List.Nodup

/-!
# Association lists

Lookups in a list of bindings around one binding, for keys of any type. The first
binding of a key counts.
-/

namespace Expanse.Assoc

variable {α β : Type*} [BEq α] [LawfulBEq α] {l l₁ l₂ : List (α × β)} {k x : α} {v w : β}

theorem lookup_absent (h : k ∉ l.map Prod.fst) : l.lookup k = none := by
  rw [List.lookup_eq_none_iff]
  intro e he
  exact bne_iff_ne.mpr fun heq => h (List.mem_map.mpr ⟨e, he, heq.symm⟩)

theorem isSome_lookup : (l.lookup k).isSome ↔ k ∈ l.map Prod.fst := by
  constructor
  · intro h
    by_contra hn
    rw [lookup_absent hn] at h
    cases h
  · intro h
    rw [Option.isSome_iff_ne_none]
    intro hnone
    rw [List.lookup_eq_none_iff] at hnone
    obtain ⟨e, he, rfl⟩ := List.mem_map.mp h
    exact absurd rfl (bne_iff_ne.mp (hnone e he))

theorem lookup_middle [DecidableEq α] (h : k ∉ l₁.map Prod.fst) :
    (l₁ ++ (k, v) :: l₂).lookup x = if x = k then some v else (l₁ ++ l₂).lookup x := by
  rw [List.lookup_append, List.lookup_append]
  split_ifs with hx
  · rw [hx, lookup_absent h, Option.none_or, List.lookup_cons, beq_self_eq_true]
  · rw [List.lookup_cons, beq_false_of_ne hx]

theorem lookup_concat [DecidableEq α] (h : k ∉ l.map Prod.fst) :
    (l ++ [(k, v)]).lookup x = if x = k then some v else l.lookup x := by
  rw [lookup_middle h, List.append_nil]

theorem lookup_erased [DecidableEq α] (h : ((l₁ ++ (k, v) :: l₂).map Prod.fst).Nodup) :
    (l₁ ++ l₂).lookup x = if x = k then none else (l₁ ++ (k, v) :: l₂).lookup x := by
  rw [List.map_append, List.map_cons, List.nodup_middle, List.nodup_cons, ← List.map_append] at h
  have h₁ : k ∉ l₁.map Prod.fst := fun hm => h.1 (by rw [List.map_append]; exact List.mem_append_left _ hm)
  split_ifs with hx
  · rw [hx, lookup_absent h.1]
  · rw [lookup_middle h₁, if_neg hx]

end Expanse.Assoc
