import Expanse.Engine.Content

/-!
# Replacing one child of a branch

What a store through one slot does to the entries of the whole branch. The
insert descent, the warm path and stores through value slots all end in such a
store; a removal ends in one or in closing the slot.
-/

namespace Expanse.Edge

open Radix SortedAssoc

variable {V : Type} [Inhabited V] {fl : Flavour} {lo : ℕ → ℕ → ℕ} {L : ℕ}

/-- `opened` reads like `node`, has a slot for `d`, and stays in range once that slot is filled. -/
structure Opened (L : ℕ) (node opened : Branch (Edge V)) (d : ℕ) : Prop where
  ok : opened.Ok
  level : opened.level L = node.level L
  slot : (opened.find d).isSome
  child : ∀ x, opened.child x = node.child x
  others : opened.isSparse = true → ∀ x e, x ≠ d → opened.find x = some e → e ≠ null
  range : ∀ c, c ≠ null → InRange (opened.setChild d c)

variable {node opened : Branch (Edge V)} {d : ℕ}

omit [Inhabited V] in
theorem inRange_setChild (h : InRange node) {c : Edge V} (hc : c ≠ null) :
    InRange (node.setChild d c) := by
  cases node with
  | linear form hdr edges =>
    rw [Branch.setChild]
    split <;> trivial
  | bitmap level kids => exact h
  | uncompressed edges =>
    have hnn : (!Nullable.isNull c) = true := by
      rw [Bool.not_eq_true', ← Bool.not_eq_true, Nullable.isNull_iff]
      exact hc
    simp only [InRange, Branch.setChild, Branch.count, ← List.countP_eq_length_filter] at h ⊢
    by_cases hd : d < edges.length
    · rw [List.countP_set hd, if_pos hnn]
      split_ifs <;> omega
    · rwa [List.set_eq_of_length_le (by omega)]

theorem Opened.refl (h : BranchShape fl lo L node) (hd : (node.find d).isSome) :
    Opened L node node d where
  ok := h.ok
  level := rfl
  slot := hd
  child := fun _ => rfl
  others := fun hs x e _ he => h.filled hs x e he
  range := fun _ hc => inRange_setChild h.range hc

theorem Opened.insertSlot (h : BranchShape fl lo L node) (hd : node.find d = none) (h256 : d < 256)
    (hroom : node.HasRoom) (hup : ∀ level kids, node = .bitmap level kids →
      Bitmap.count kids.bits + 1 ≤ BRANCHB_UP) : Opened L node (node.insertSlot d) d where
  ok := Branch.insertSlot_ok h.ok hd h256 hroom
  level := Branch.level_insertSlot node d L
  slot := by simp [Branch.find_insertSlot h.ok hd h256 hroom]
  child := Branch.child_insertSlot h.ok hd h256 hroom
  others := Branch.insertSlot_filled h.ok hd h256 hroom h.filled
  range := by
    intro c hc
    apply inRange_setChild _ hc
    cases node with
    | linear form hdr edges => trivial
    | bitmap level kids =>
      have hb : kids.bits.testBit d = false := by
        rw [← Bool.not_eq_true, ← Ranked.get_isSome h.ok]
        simp [show kids.get d = none from hd]
      have hcount : Bitmap.count (Bitmap.set kids.bits d) = Bitmap.count kids.bits + 1 :=
        Bitmap.count_set hb h256
      have hlow := h.range.1
      have := hup level kids rfl
      exact ⟨by simp only [Ranked.insert]; omega, by simp only [Ranked.insert]; omega⟩
    | uncompressed edges => exact h.range

section Store

variable (h : BranchShape fl lo L node) (o : Opened L node opened d) {c : Edge V}

include h o

theorem BranchShape.store (hc : WF fl lo (node.level L - 1) c) (hn : c ≠ null) :
    BranchShape fl lo L (opened.setChild d c) where
  le_eight := h.le_eight
  top := by
    intro h8
    rw [Branch.level_setChild, o.level]
    exact h.top h8
  ok := Branch.setChild_ok o.ok o.slot c
  filled := Branch.setChild_filled o.ok o.slot hn o.others
  range := o.range c hn
  two_le := by
    rw [Branch.level_setChild, o.level]
    exact h.two_le
  le := by
    rw [Branch.level_setChild, o.level]
    exact h.le
  kids := by
    intro x e he
    rw [Branch.level_setChild, o.level]
    rw [Branch.find_setChild o.ok o.slot] at he
    split_ifs at he with hx
    · cases he
      exact hc
    · have hxc := o.child x
      rw [Branch.child, he] at hxc
      rw [show e = node.child x from hxc]
      exact h.child x

omit [Inhabited V] h in
theorem child_store (x : ℕ) :
    (opened.setChild d c).child x = if x = d then c else node.child x := by
  rw [Branch.child_setChild o.ok o.slot, o.child]

theorem mem_entries_store {aux' : ℕ} (hc : WF fl lo (node.level L - 1) c) (hn : c ≠ null) {k : ℕ}
    {v : V} :
    (k, v) ∈ entries L (branch aux' (opened.setChild d c)) ↔ k < 256 ^ L ∧
      slice k (node.level L) L = slice aux' (node.level L) L ∧
      (low k (node.level L - 1), v) ∈ entries (node.level L - 1)
        (if digit k (node.level L) = d then c else node.child (digit k (node.level L))) := by
  rw [mem_entries_branch (h.store o hc hn), Branch.level_setChild, o.level, child_store o]

/-- An update below one slot is the same update of the branch, at the composed key. -/
theorem updated_store (aux aux' : ℕ) {x : ℕ} {v : V} (hc : WF fl lo (node.level L - 1) c)
    (hn : c ≠ null)
    (haux : slice aux' (node.level L) L = slice aux (node.level L) L)
    (hd : d < 256) (hx : x < 256 ^ (node.level L - 1))
    (hu : Updated x v (entries (node.level L - 1) (node.child d))
      (entries (node.level L - 1) c)) :
    Updated (slice aux (node.level L) L * 256 ^ node.level L + d * 256 ^ (node.level L - 1) + x) v
      (entries L (branch aux node)) (entries L (branch aux' (opened.setChild d c))) := by
  have h2 := h.two_le
  have h1 : 1 ≤ node.level L := by omega
  have hl : node.level L - (node.level L - 1) = 1 := by omega
  have hb : slice aux (node.level L) L * 256 ^ node.level L + d * 256 ^ (node.level L - 1) + x
      < 256 ^ L := by
    rw [Nat.add_assoc]
    exact mul_add_lt h.le (slice_lt _ _ _) (mul_add_lt (Nat.sub_le _ 1) (by simpa [hl] using hd) hx)
  intro k w
  rw [mem_entries_store h o hc hn, mem_entries_branch h, haux]
  by_cases hk : k < 256 ^ L
  · simp only [ne_eq, eq_compose_iff h1 h.le hk hd hx]
    by_cases hs : slice k (node.level L) L = slice aux (node.level L) L
    · by_cases hdig : digit k (node.level L) = d
      · have := hu (low k (node.level L - 1)) w
        simp only [hdig, if_true, hk, hs, true_and] at this ⊢
        exact this
      · simp [hk, hs, hdig]
    · simp [hs]
  · have : k ≠ slice aux (node.level L) L * 256 ^ node.level L +
        d * 256 ^ (node.level L - 1) + x := by
      rintro rfl
      exact hk hb
    simp [hk, this]

end Store

/-- A removal below one digit, whatever becomes of that digit's slot and of the layout. -/
theorem erased_of_child {node' : Branch (Edge V)} {c : Edge V} {aux aux' x : ℕ}
    (h : BranchShape fl lo L node) (h' : BranchShape fl lo L node')
    (hlev : node'.level L = node.level L)
    (hchild : ∀ y, node'.child y = if y = d then c else node.child y)
    (haux : slice aux' (node.level L) L = slice aux (node.level L) L)
    (hd : d < 256) (hx : x < 256 ^ (node.level L - 1))
    (hu : Erased x (entries (node.level L - 1) (node.child d)) (entries (node.level L - 1) c)) :
    Erased (slice aux (node.level L) L * 256 ^ node.level L + d * 256 ^ (node.level L - 1) + x)
      (entries L (branch aux node)) (entries L (branch aux' node')) := by
  have h2 := h.two_le
  have h1 : 1 ≤ node.level L := by omega
  intro k w
  rw [mem_entries_branch h', mem_entries_branch h, hlev, hchild, haux]
  by_cases hk : k < 256 ^ L
  · simp only [ne_eq, eq_compose_iff h1 h.le hk hd hx]
    by_cases hs : slice k (node.level L) L = slice aux (node.level L) L
    · by_cases hdig : digit k (node.level L) = d
      · have := hu (low k (node.level L - 1)) w
        simp only [hdig, if_true, hk, hs, true_and] at this ⊢
        exact this
      · simp [hk, hs, hdig]
    · simp [hs]
  · simp [hk]

end Expanse.Edge
