import Expanse.Engine.Edge

/-!
# Reading the entries of a well-formed edge

Keys below an edge fit in its level, ascend strictly, and split by digit: a key
lies below a branch exactly when it agrees with the skipped bytes and its rest
lies below the child of its digit.
-/

namespace Expanse.Edge

open Radix SortedAssoc

variable {V : Type} {fl : Flavour} {lo : ℕ → ℕ → ℕ} {P : Branch (Edge V) → Prop} {L : ℕ}

section Shift

variable {n k : ℕ} {v : V} {l : List (ℕ × V)}

theorem mem_shift : (k, v) ∈ shift n l ↔ ∃ x, (x, v) ∈ l ∧ k = n + x := by
  simp only [shift, List.mem_map, Prod.mk.injEq, Prod.exists]
  constructor
  · rintro ⟨x, w, hm, rfl, rfl⟩
    exact ⟨x, hm, rfl⟩
  · rintro ⟨x, hm, rfl⟩
    exact ⟨x, v, hm, rfl, rfl⟩

@[simp] theorem length_shift : (shift n l).length = l.length := List.length_map _

theorem keySorted_shift (h : KeySorted l) : KeySorted (shift n l) := by
  rw [KeySorted, shift, List.pairwise_map]
  exact h.imp fun hab => by simpa using hab

@[simp] theorem shift_zero : shift 0 l = l := by simp [shift]

end Shift

/-- The branch clause of `Readable`, by field. -/
structure BranchReadable (fl : Flavour) (P : Branch (Edge V) → Prop) (L : ℕ)
    (node : Branch (Edge V)) : Prop where
  ok : node.Ok
  filled : node.Filled
  holds : P node
  two_le : 2 ≤ node.level L
  le : node.level L ≤ L
  kids : ∀ d c, node.find d = some c → Readable fl P (node.level L - 1) c

theorem readable_branch {aux : ℕ} {node : Branch (Edge V)} :
    Readable fl P L (branch aux node) ↔ BranchReadable fl P L node := by
  rw [Readable]
  constructor
  · rintro ⟨ho, hf, hp, h2, hk⟩
    exact ⟨ho, hf, hp, h2.1, h2.2, hk⟩
  · rintro ⟨ho, hf, hp, h2, hl, hk⟩
    exact ⟨ho, hf, hp, ⟨h2, hl⟩, hk⟩

theorem BranchReadable.child {node : Branch (Edge V)} (h : BranchReadable fl P L node) (d : ℕ) :
    Readable fl P (node.level L - 1) (node.child d) := by
  rw [Branch.child]
  cases hf : node.find d with
  | none => simp [Readable]
  | some c => exact h.kids d c hf

theorem BranchReadable.slot {node : Branch (Edge V)} (h : BranchReadable fl P L node) {d : ℕ}
    {c : Edge V} (hm : (d, c) ∈ node.slots) : d < 256 ∧ Readable fl P (node.level L - 1) c := by
  have hf := ((Branch.mem_slots h.ok).mp hm).1
  exact ⟨Branch.find_lt h.ok hf, h.kids d c hf⟩

variable [Inhabited V]

theorem entries_branch {aux : ℕ} {node : Branch (Edge V)} (h1 : 1 ≤ node.level L)
    (h2 : node.level L ≤ L) :
    entries L (branch aux node) = node.slots.flatMap fun s =>
      shift (slice aux (node.level L) L * 256 ^ node.level L + s.1 * 256 ^ (node.level L - 1))
        (entries (node.level L - 1) s.2) := by
  rw [entries, dif_pos ⟨h1, h2⟩]

/-- Only the skipped bytes of a branch's aux word matter to its entries. -/
theorem entries_branch_aux {aux aux' : ℕ} {node : Branch (Edge V)}
    (h : slice aux' (node.level L) L = slice aux (node.level L) L) :
    entries L (branch aux' node) = entries L (branch aux node) := by
  rw [entries, entries, h]

theorem mem_entries_branch_slots {aux : ℕ} {node : Branch (Edge V)} (h1 : 1 ≤ node.level L)
    (h2 : node.level L ≤ L) {k : ℕ} {v : V} :
    (k, v) ∈ entries L (branch aux node) ↔ ∃ d c x, (d, c) ∈ node.slots ∧
      (x, v) ∈ entries (node.level L - 1) c ∧
      k = slice aux (node.level L) L * 256 ^ node.level L + d * 256 ^ (node.level L - 1) + x := by
  rw [entries_branch h1 h2]
  simp only [List.mem_flatMap, mem_shift, Prod.exists]
  constructor
  · rintro ⟨d, c, hm, x, hx, hk⟩
    exact ⟨d, c, x, hm, hx, hk⟩
  · rintro ⟨d, c, x, hm, hx, hk⟩
    exact ⟨d, c, hm, x, hx, hk⟩

/-- Keys below an edge fit in its undecoded bytes. -/
theorem Readable.bound {e : Edge V} (h : Readable fl P L e) {k : ℕ} {v : V} (hm : (k, v) ∈ entries L e) :
    k < 256 ^ L := by
  induction L using Nat.strong_induction_on generalizing e k v with
  | _ L ih =>
    cases e with
    | null => simp [entries] at hm
    | immed kb cols =>
      rw [Readable] at h
      rw [entries] at hm
      rw [← h.1]
      exact h.2.2.1.bound k (Columns.mem_keys hm)
    | leaf kb aux cols =>
      rw [Readable] at h
      rw [entries] at hm
      obtain ⟨x, hx, rfl⟩ := mem_shift.mp hm
      exact mul_add_lt h.2.1 (slice_lt _ _ _) (h.2.2.1.bound x (Columns.mem_keys hx))
    | leafB1 aux node =>
      rw [Readable] at h
      rw [entries] at hm
      obtain ⟨x, hx, rfl⟩ := mem_shift.mp hm
      have := Ranked.get_bound h.2.1 ((Ranked.mem_entries h.2.1).mp hx)
      exact mul_add_lt h.1 (slice_lt _ _ _) (by simpa using this)
    | fullExpanse aux =>
      rw [entries] at hm
      simp only [List.mem_map, List.mem_range, Prod.mk.injEq] at hm
      obtain ⟨x, hx, rfl, -⟩ := hm
      exact hx
    | branch aux node =>
      have hb := readable_branch.mp h
      have h2 := hb.two_le
      rw [mem_entries_branch_slots (by omega) hb.le] at hm
      obtain ⟨d, c, x, hs, hx, rfl⟩ := hm
      obtain ⟨hd, hc⟩ := hb.slot hs
      have hlt := ih (node.level L - 1) (by have := hb.le; omega) hc hx
      have hl : node.level L - (node.level L - 1) = 1 := by omega
      rw [Nat.add_assoc]
      exact mul_add_lt hb.le (slice_lt _ _ _) (mul_add_lt (Nat.sub_le _ 1) (by simpa [hl] using hd) hlt)

theorem Readable.sorted {e : Edge V} (h : Readable fl P L e) : KeySorted (entries L e) := by
  induction L using Nat.strong_induction_on generalizing e with
  | _ L ih =>
    cases e with
    | null => simp [entries, KeySorted]
    | immed kb cols =>
      rw [Readable] at h
      rw [entries]
      exact h.2.2.1.keySorted
    | leaf kb aux cols =>
      rw [Readable] at h
      rw [entries]
      exact keySorted_shift h.2.2.1.keySorted
    | leafB1 aux node =>
      rw [Readable] at h
      rw [entries]
      exact keySorted_shift (Ranked.entries_sorted h.2.1)
    | fullExpanse aux =>
      rw [entries, KeySorted, List.pairwise_map]
      exact List.pairwise_lt_range
    | branch aux node =>
      have hb := readable_branch.mp h
      have h2 := hb.two_le
      rw [entries_branch (by omega) hb.le, KeySorted, List.pairwise_flatMap]
      refine ⟨fun s hs => ?_, (Branch.slots_sorted hb.ok).imp_of_mem ?_⟩
      · exact keySorted_shift (ih _ (by have := hb.le; omega) (hb.slot hs).2)
      -- keys of a smaller digit lie below keys of a larger one
      · rintro ⟨d, c⟩ ⟨d', c'⟩ hs hs' hlt ⟨k, v⟩ hk ⟨k', v'⟩ hk'
        obtain ⟨x, hx, rfl⟩ := mem_shift.mp hk
        obtain ⟨x', hx', rfl⟩ := mem_shift.mp hk'
        have hxb := (hb.slot hs).2.bound hx
        have hxb' := (hb.slot hs').2.bound hx'
        have := (mul_add_lt_iff hxb hxb').mpr (Or.inl (show d < d' from hlt))
        simp only
        omega

/-- A key lies below a branch when it agrees with the skipped bytes and its rest lies below the
child of its digit. -/
theorem BranchReadable.mem_entries {aux : ℕ} {node : Branch (Edge V)}
    (h : BranchReadable fl P L node)
    {k : ℕ} {v : V} :
    (k, v) ∈ entries L (branch aux node) ↔ k < 256 ^ L ∧
      slice k (node.level L) L = slice aux (node.level L) L ∧
      (low k (node.level L - 1), v) ∈
        entries (node.level L - 1) (node.child (digit k (node.level L))) := by
  have h2 := h.two_le
  have h1 : 1 ≤ node.level L := by omega
  constructor
  · intro hm
    have hk := (readable_branch.mpr h : Readable fl P L (branch aux node)).bound hm
    rw [mem_entries_branch_slots h1 h.le] at hm
    obtain ⟨d, c, x, hs, hx, rfl⟩ := hm
    obtain ⟨hd, hc⟩ := h.slot hs
    have hxb := hc.bound hx
    refine ⟨hk, ?_, ?_⟩
    · rw [slice_eq_div h.le hk, div_compose h1 hd hxb]
    · rw [low_compose h1 hxb, digit_compose h1 hd hxb, Branch.child, ((Branch.mem_slots h.ok).mp hs).1]
      exact hx
  · rintro ⟨hk, hs, hm⟩
    rw [mem_entries_branch_slots h1 h.le]
    refine ⟨digit k (node.level L), node.child (digit k (node.level L)), low k (node.level L - 1),
      ?_, hm, ?_⟩
    · rw [Branch.mem_slots_iff h.ok h.filled]
      refine ⟨rfl, ?_⟩
      intro hn
      rw [hn] at hm
      simp [entries] at hm
    · rw [← hs, ← low_eq_split h1 h.le, low_of_lt hk]

theorem mem_entries_leaf {kb aux : ℕ} {cols : Columns V} (hkb : kb ≤ L) (hp : cols.Packed kb)
    {k : ℕ} {v : V} :
    (k, v) ∈ entries L (leaf kb aux cols) ↔ k < 256 ^ L ∧ slice k kb L = slice aux kb L ∧
      (low k kb, v) ∈ cols.entries := by
  rw [entries, mem_shift]
  constructor
  · rintro ⟨x, hx, rfl⟩
    have hxb := hp.bound x (Columns.mem_keys hx)
    have hk := mul_add_lt hkb (slice_lt aux kb L) hxb
    refine ⟨hk, ?_, ?_⟩
    · rw [slice_eq_div hkb hk, mul_add_div hxb]
    · rw [low, mul_add_mod hxb]
      exact hx
  · rintro ⟨hk, hs, hm⟩
    refine ⟨low k kb, hm, ?_⟩
    rw [← hs, ← low_eq_slice hkb, low_of_lt hk]

theorem mem_entries_leafB1 {aux : ℕ} {node : Ranked V} (h1 : 1 ≤ L) (hok : node.Ok)
    {k : ℕ} {v : V} :
    (k, v) ∈ entries L (leafB1 aux node) ↔ k < 256 ^ L ∧ slice k 1 L = slice aux 1 L ∧
      node.get (low k 1) = some v := by
  rw [entries, mem_shift]
  constructor
  · rintro ⟨x, hx, rfl⟩
    have hg := (Ranked.mem_entries hok).mp hx
    have hxb : x < 256 ^ 1 := by simpa using Ranked.get_bound hok hg
    have hk := mul_add_lt h1 (slice_lt aux 1 L) hxb
    refine ⟨hk, ?_, ?_⟩
    · rw [slice_eq_div h1 hk, mul_add_div hxb]
    · rw [low, mul_add_mod hxb]
      exact hg
  · rintro ⟨hk, hs, hg⟩
    refine ⟨low k 1, (Ranked.mem_entries hok).mpr hg, ?_⟩
    rw [← hs, ← low_eq_slice h1, low_of_lt hk]

theorem mem_entries_full {aux k : ℕ} {v : V} :
    (k, v) ∈ entries L (fullExpanse aux : Edge V) ↔ k < 256 ^ L ∧ v = default := by
  rw [entries]
  simp only [List.mem_map, List.mem_range, Prod.mk.injEq]
  constructor
  · rintro ⟨x, hx, rfl, rfl⟩
    exact ⟨hx, rfl⟩
  · rintro ⟨hk, rfl⟩
    exact ⟨k, hk, rfl, rfl⟩

/-- The branch clause of the invariant, by field. -/
structure BranchShape (fl : Flavour) (lo : ℕ → ℕ → ℕ) (L : ℕ) (node : Branch (Edge V)) : Prop where
  le_eight : L ≤ 8
  top : L = 8 → node.level L = 8
  ok : node.Ok
  filled : node.Filled
  range : InRange node
  two_le : 2 ≤ node.level L
  le : node.level L ≤ L
  kids : ∀ d c, node.find d = some c → WF fl lo (node.level L - 1) c

theorem shape_branch {aux : ℕ} {node : Branch (Edge V)} :
    Shape fl lo L (branch aux node) ↔ BranchShape fl lo L node := by
  rw [Shape]
  constructor
  · rintro ⟨h8, ht, ho, hf, hr, h2, hk⟩
    exact ⟨h8, ht, ho, hf, hr, h2.1, h2.2, hk⟩
  · rintro ⟨h8, ht, ho, hf, hr, h2, hl, hk⟩
    exact ⟨h8, ht, ho, hf, hr, ⟨h2, hl⟩, hk⟩

theorem BranchShape.child {node : Branch (Edge V)} (h : BranchShape fl lo L node) (d : ℕ) :
    WF fl lo (node.level L - 1) (node.child d) := by
  rw [Branch.child]
  cases hf : node.find d with
  | none => exact ⟨by simp [Shape], trivial⟩
  | some c => exact h.kids d c hf

theorem BranchShape.slot {node : Branch (Edge V)} (h : BranchShape fl lo L node) {d : ℕ}
    {c : Edge V} (hm : (d, c) ∈ node.slots) : d < 256 ∧ WF fl lo (node.level L - 1) c := by
  have hf := ((Branch.mem_slots h.ok).mp hm).1
  exact ⟨Branch.find_lt h.ok hf, h.kids d c hf⟩

theorem Shape.readable {e : Edge V} (h : Shape fl lo L e) : Readable fl (fun _ => True) L e := by
  induction L using Nat.strong_induction_on generalizing e with
  | _ L ih =>
    cases e with
    | null => simp [Readable]
    | immed kb cols =>
      rw [Shape] at h
      rw [Readable]
      exact ⟨h.1, h.2.1, h.2.2.2.1, h.2.2.2.2.1⟩
    | leaf kb aux cols =>
      rw [Shape] at h
      rw [Readable]
      exact ⟨h.1, h.2.1, h.2.2.2.1, h.2.2.2.2.1, h.2.2.2.2.2.2.1⟩
    | leafB1 aux node =>
      rw [Shape] at h
      rw [Readable]
      exact ⟨h.1, h.2.2.1, le_trans (by decide) h.2.2.2.1, h.2.2.2.2⟩
    | fullExpanse aux =>
      rw [Shape] at h
      rw [Readable]
      exact ⟨h.1, h.2.1⟩
    | branch aux node =>
      have hb := shape_branch.mp h
      have h2 := hb.two_le
      have hl := hb.le
      exact readable_branch.mpr ⟨hb.ok, hb.filled, trivial, h2, hl,
        fun d c hf => ih _ (by omega) (hb.kids d c hf).1⟩

theorem BranchShape.readable {node : Branch (Edge V)} (h : BranchShape fl lo L node) :
    BranchReadable fl (fun _ => True) L node :=
  readable_branch.mp (shape_branch.mpr h : Shape fl lo L (branch 0 node)).readable

theorem Shape.bound {e : Edge V} (h : Shape fl lo L e) {k : ℕ} {v : V} (hm : (k, v) ∈ entries L e) :
    k < 256 ^ L := h.readable.bound hm

theorem Shape.sorted {e : Edge V} (h : Shape fl lo L e) : KeySorted (entries L e) :=
  h.readable.sorted

theorem mem_entries_branch {aux : ℕ} {node : Branch (Edge V)} (h : BranchShape fl lo L node)
    {k : ℕ} {v : V} :
    (k, v) ∈ entries L (branch aux node) ↔ k < 256 ^ L ∧
      slice k (node.level L) L = slice aux (node.level L) L ∧
      (low k (node.level L - 1), v) ∈
        entries (node.level L - 1) (node.child (digit k (node.level L))) :=
  h.readable.mem_entries

end Expanse.Edge
