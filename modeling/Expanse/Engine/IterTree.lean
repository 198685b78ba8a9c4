import Expanse.Engine.InsertBranch
import Expanse.Engine.IterRun
import Expanse.Engine.PathSpec

/-!
# Walks of a whole tree

In a well-formed tree every branch has children, so a walker can be seeded at the
root. The constructors leave it with the entries of the tree, or with those at or
beyond their key, in the order of the walk.
-/

namespace Expanse

open Radix SortedAssoc Edge

namespace Edge

variable {V : Type} [Inhabited V] {fl : Flavour} {lo : ℕ → ℕ → ℕ} {L n u aux : ℕ} {e t : Edge V}
  {node : Branch (Edge V)} {route : List ℕ}

theorem BranchShape.populated (h : BranchShape fl lo L node) (hne : entries L (branch aux node) ≠ []) :
    Populated node := by
  intro hs
  have h2 := h.two_le
  rw [entries_branch (by omega) h.le, hs] at hne
  exact hne rfl

/-- Every branch of a well-formed tree has a child. -/
theorem WF.populated (h : WF fl lo L e) (hne : L ≤ 7 ∨ entries L e ≠ []) :
    Readable fl Populated L e := by
  induction L using Nat.strong_induction_on generalizing e with
  | _ L ih =>
    cases e with
    | branch aux node =>
      have hb := shape_branch.mp h.1
      have h2 := hb.two_le
      have hl := hb.le
      have h8 := hb.le_eight
      have hne' : entries L (branch aux node) ≠ [] := by
        rcases hne with h7 | hne
        · exact List.ne_nil_of_length_pos (h.entries_pos (by simp) h7)
        · exact hne
      refine readable_branch.mpr ⟨hb.ok, hb.filled, hb.populated hne', h2, hl, ?_⟩
      intro d c hf
      exact ih _ (by omega) (hb.kids d c hf) (.inl (by omega))
    | null => simp [Readable]
    | immed kb cols =>
      have hr := h.1.readable
      rw [Readable] at hr ⊢
      exact hr
    | leaf kb aux cols =>
      have hr := h.1.readable
      rw [Readable] at hr ⊢
      exact hr
    | leafB1 aux node =>
      have hr := h.1.readable
      rw [Readable] at hr ⊢
      exact hr
    | fullExpanse aux =>
      have hr := h.1.readable
      rw [Readable] at hr ⊢
      exact hr

omit [Inhabited V] in
theorem populated_of_child {d : ℕ} (hok : node.Ok) (hf : node.Filled) (hc : node.child d ≠ null) :
    Populated node := by
  intro hs
  have := (Branch.mem_slots_iff hok hf).mpr ⟨rfl, hc⟩
  rw [hs] at this
  cases this

omit [Inhabited V] in
theorem populated_of_flush (h : Readable fl (fun _ => True) L e)
    (hr : resolve L e route = some (u, t)) (ht : t ≠ null)
    (hp : Readable fl Populated L (flushRoute n L e route)) : Readable fl Populated L e := by
  induction route generalizing L e u with
  | nil => cases e <;> exact hp
  | cons d ds ih =>
    obtain ⟨aux, node, rfl⟩ := resolve_branch hr
    have hb := readable_branch.mp h
    obtain ⟨hd, u', hr', rfl⟩ := resolve_cons hr ht
    rw [flushRoute] at hp
    have hp := readable_branch.mp hp
    have hne : node.child d ≠ null := by
      intro hnull
      rw [hnull] at hr'
      exact ht (resolve_null hr')
    refine readable_branch.mpr ⟨hb.ok, hb.filled, populated_of_child hb.ok hb.filled hne, hb.two_le,
      hb.le, ?_⟩
    intro x c hx
    have hkid := hp.kids x
    rw [Branch.level_setChild, Branch.find_setChild hb.ok hd] at hkid
    by_cases hxd : x = d
    · have hc : node.child d = c := by
        rw [Branch.child, ← hxd, hx]
        rfl
      rw [← hc]
      exact ih (hb.child d) hr' (hkid _ (by rw [if_pos hxd]))
    · exact hkid c (by rw [if_neg hxd, hx])

/-- A descent that ends at a full expanse has found its key, in a set. -/
theorem mem_of_terminal_full {P : Branch (Edge V) → Prop} {key : ℕ} (h : Readable fl P L e)
    (hf : (terminal L e key).2.isFull = true) :
    fl = .set ∧ (low key L, default) ∈ entries L e := by
  induction L using Nat.strong_induction_on generalizing e with
  | _ L ih =>
    cases e with
    | branch aux node =>
      have hb := readable_branch.mp h
      have h2 := hb.two_le
      have hl := hb.le
      rw [terminal, dif_pos ⟨by omega, hl⟩] at hf
      split_ifs at hf with hg
      · obtain ⟨hset, hm⟩ := ih _ (by omega) (hb.child _) hf
        refine ⟨hset, hb.mem_entries.mpr ⟨low_lt key L, ?_, ?_⟩⟩
        · rw [slice_low le_rfl hl]
          exact hg
        · rw [digit_low (by omega) hl, low_low (by omega)]
          exact hm
      · cases hf
    | fullExpanse aux =>
      rw [Readable] at h
      exact ⟨h.1, mem_entries_full.mpr ⟨low_lt key L, rfl⟩⟩
    | _ =>
      rw [terminal] at hf
      · cases hf
      · intro _ _ he
        cases he

omit [Inhabited V] in
/-- A flush leaves the forms at the end of every descent. -/
theorem isFull_flush {P : Branch (Edge V) → Prop} (h : Readable fl P L e)
    (hr : resolve L e route = some (u, t)) (ht : t ≠ null) (key : ℕ) :
    (terminal L (flushRoute n L e route) key).2.isFull = (terminal L e key).2.isFull := by
  induction route generalizing L e u with
  | nil => cases e <;> rfl
  | cons d ds ih =>
    obtain ⟨aux, node, rfl⟩ := resolve_branch hr
    have hb := readable_branch.mp h
    have h2 := hb.two_le
    obtain ⟨hd, u', hr', rfl⟩ := resolve_cons hr ht
    rw [flushRoute, terminal, terminal, Branch.level_setChild, dif_pos ⟨by omega, hb.le⟩,
      dif_pos ⟨by omega, hb.le⟩, slice_flushed]
    by_cases hg : slice key (node.level L) L = slice aux (node.level L) L
    · rw [if_pos hg, if_pos hg, Branch.child_setChild hb.ok hd]
      by_cases hk : digit key (node.level L) = d
      · rw [if_pos hk, hk]
        exact ih (hb.child d) hr'
      · rw [if_neg hk]
    · rw [if_neg hg, if_neg hg]
      rfl

end Edge

namespace Iter

variable {V : Type} [Inhabited V] {dir : Direction} {fl : Flavour} {full : Bool} {e : Edge V}
  {all l : List (ℕ × V)} {it : Iter V} {start : ℕ}

/-- What walks of a tree need of its root. -/
structure Rooted (fl : Flavour) (full : Bool) (top : Edge V) : Prop where
  readable : Readable fl Populated 8 top
  ne_null : top ≠ null
  full_eq : (terminal 8 top (256 ^ 8 - 1)).2.isFull = full

theorem Rooted.entry (h : Rooted fl full e) (dir : Direction) : Entry dir fl full (entries 8 e) 8 0 e [] where
  readable := h.readable
  ne_null := h.ne_null
  one_le := by omega
  room := by simp
  place := At.root
  top := fun _ => h.full_eq
  frames := trivial
  beyond := fun y hy => (by cases hy)
  nested := by
    rw [shift_zero]
    exact List.suffix_rfl

/-- After a seek that found nothing in its leaf the walk goes on to the next one. -/
theorem orAdvance_spec (hV : fl = .set → ∀ v : V, v = default) (h : Arrives dir fl full all it l) :
    ∃ it', orAdvance dir fl it = .ok it' ∧ Walking dir fl full all it' ∧ it'.left dir = l := by
  cases hne : it.leaf.isEmpty with
  | false =>
    refine ⟨it, by rw [orAdvance, hne]; rfl, ⟨h.standing, ?_⟩, h.left_eq⟩
    rw [hne]
    intro hc
    cases hc
  | true =>
    have hl : it.leaf.left dir = [] := by
      cases hleaf : it.leaf with
      | empty => rfl
      | _ =>
        rw [hleaf] at hne
        cases hne
    have hn := h.standing.nested
    have hleft := h.left_eq
    rw [hl] at hn
    rw [left, hl, List.nil_append] at hleft
    rw [orAdvance, hne]
    rcases stepLeaf_spec it.leaf hV h.standing.stack hn with
      ⟨hnil, hs⟩ | ⟨it', hs, harr, he, _⟩
    · refine ⟨⟨.empty, []⟩, by rw [hs]; rfl, walking_end, ?_⟩
      rw [← hleft, hnil]
      rfl
    · refine ⟨it', by rw [hs]; rfl, ⟨harr.standing, ?_⟩, harr.left_eq.trans hleft⟩
      rw [he]
      intro hc
      cases hc

theorem Walking.sorted (h : Walking dir fl full all it) (hs : KeySorted all) :
    (it.left dir).Pairwise fun x y => dir.Before x.1 y.1 :=
  (dir.order_pairwise hs).sublist h.standing.nested.left_suffix.sublist

section Constructors

variable (hV : fl = .set → ∀ v : V, v = default) (h : Rooted fl full e)

include hV h

variable (dir) in
theorem descend_root : ∃ it, descendBy dir fl DESCENT_FUEL e 8 0 new = .ok it ∧
    Walking dir fl full (entries 8 e) it ∧ it.left dir = dir.order (entries 8 e) := by
  obtain ⟨it, hit, harr, hne, _⟩ := enter_spec hV .empty (h.entry dir)
  refine ⟨it, hit, ⟨harr.standing, ?_⟩, ?_⟩
  · rw [hne]
    intro hc
    cases hc
  · rw [harr.left_eq, shift_zero]
    exact List.append_nil _

theorem fromTreeRange_spec (start : ℕ) : ∃ it, fromTreeRange fl e start = .ok it ∧
    Walking .forward fl full (entries 8 e) it ∧
    it.left .forward = (entries 8 e).filter (start ≤ ·.1) := by
  obtain ⟨it, hit, harr⟩ := seek_spec hV .empty start (h.entry .forward)
  obtain ⟨it', hit', hw, hl⟩ := orAdvance_spec hV harr
  refine ⟨it', ?_, hw, ?_⟩
  · rw [fromTreeRange, new, hit]
    exact hit'
  · rw [hl, shift_zero]
    exact List.append_nil _

theorem fromTreeRangeRev_spec (bound : ℕ) : ∃ it, fromTreeRangeRev fl e bound = .ok it ∧
    Walking .backward fl full (entries 8 e) it ∧
    it.left .backward = ((entries 8 e).filter (·.1 ≤ bound)).reverse := by
  obtain ⟨it, hit, harr⟩ := seekBack_spec hV .empty bound (h.entry .backward)
  obtain ⟨it', hit', hw, hl⟩ := orAdvance_spec hV harr
  refine ⟨it', ?_, hw, ?_⟩
  · rw [fromTreeRangeRev, new, hit]
    exact hit'
  · rw [hl, shift_zero]
    exact List.append_nil _

end Constructors

end Iter

end Expanse
