import Expanse.Trie32.Rep

/-!
# What a tree costs

The bytes and the nodes that a tree takes from its arena depend on the tree alone: on the
capacity classes of its leaves, on the classes of the rows of its bitmap nodes, on the forms of
its branches. A tree without entries takes nothing.
-/

namespace Expanse.Trie32

open SortedAssoc Trie32.Tree

variable {fl : Flavour} {kb : ℕ} {form : Form} {kids : List (ℕ × Tree)} {t : Tree} {e : Edge32}
  {es : List (ℕ × Edge32)} {C : Cells} {a : Arena}

def branchBytes (form : Form) (digits : List ℕ) : ℕ :=
  (branchNode form 0 0 (digits.map fun d => (d, .null))).heapBytes

namespace Tree

def bytes (fl : Flavour) : ℕ → Tree → ℕ
  | kb, leaf l => leafSize (valueWidth fl) kb l.length
  | _, bitmap l => (bitmapNode fl l).heapBytes
  | kb + 1, branch form kids => branchBytes form (kids.map Prod.fst) + (kids.map fun c => bytes fl kb c.2).sum
  | _, _ => 0

def nodes : ℕ → Tree → ℕ
  | _, leaf _ => 1
  | _, bitmap _ => 1
  | kb + 1, branch _ kids => 1 + (kids.map fun c => nodes kb c.2).sum
  | _, _ => 0

end Tree

theorem row_lengths {α β : Type} {es : List (ℕ × α)} {fs : List (ℕ × β)} (h : es.map Prod.fst = fs.map Prod.fst)
    (i : ℕ) : (row es i).length = (row fs i).length := by
  have hrow : ∀ {γ : Type} (gs : List (ℕ × γ)),
      (row gs i).length = ((gs.map Prod.fst).filter fun d => d / 32 = i).length := by
    intro γ gs
    rw [row, List.length_map, List.filter_map, List.length_map]
    rfl
  rw [hrow es, hrow fs, h]

theorem branchBytes_eq (level count : ℕ) :
    (branchNode form level count es).heapBytes = branchBytes form (es.map Prod.fst) := by
  have hkeys : es.map Prod.fst = ((es.map Prod.fst).map fun d => (d, Edge32.null)).map Prod.fst := by
    rw [List.map_map]
    simp [Function.comp_def]
  calc (branchNode form level count es).heapBytes =
    (branchNode form 0 count es).heapBytes := by cases form <;> rfl
    _ = branchBytes form (es.map Prod.fst) := (heapBytes_branchNode fun i => row_lengths hkeys i)

theorem cells_bytes_add (C₁ C₂ : Cells) : Cells.bytes (C₁ + C₂) = C₁.bytes + C₂.bytes := by
  rw [Cells.bytes, Multiset.map_add, Multiset.sum_add, Cells.bytes, Cells.bytes]

theorem RepKids.cost (h : RepKids (Rep fl kb) es kids C)
    (ih : ∀ {e t C}, Rep fl kb e t C → C.bytes = t.bytes fl kb ∧ Multiset.card C = t.nodes kb) :
    C.bytes = (kids.map fun c => c.2.bytes fl kb).sum ∧
      Multiset.card C = (kids.map fun c => c.2.nodes kb).sum := by
  induction es generalizing kids C with
  | nil =>
    obtain ⟨rfl, rfl⟩ := h.nil
    exact ⟨rfl, rfl⟩
  | cons x es hi =>
    cases kids with
    | nil => exact absurd h id
    | cons y kids =>
      obtain ⟨-, D₁, D₂, hr, hs, rfl⟩ := h
      obtain ⟨hb₁, hn₁⟩ := ih hr
      obtain ⟨hb₂, hn₂⟩ := hi hs
      rw [cells_bytes_add, Multiset.card_add, hb₁, hb₂, hn₁, hn₂, List.map_cons, List.sum_cons, List.map_cons,
        List.sum_cons]
      exact ⟨rfl, rfl⟩

theorem cells_bytes_single (h : ℕ) (d : Desc) : Cells.bytes {(h, d)} = d.bytes := by
  rw [Cells.bytes, Multiset.map_singleton, Multiset.sum_singleton]

/-- The cells of a stored tree, in bytes and in number. -/
theorem Rep.cost (h : Rep fl kb e t C) : C.bytes = t.bytes fl kb ∧ Multiset.card C = t.nodes kb := by
  induction kb generalizing e t C with
  | zero =>
    cases t with
    | null =>
      rw [(rep_null.mp h).2]
      exact ⟨rfl, rfl⟩
    | immed l =>
      rw [(rep_immed.mp h).2]
      exact ⟨rfl, rfl⟩
    | leaf l =>
      obtain ⟨h, -, rfl⟩ := rep_leaf.mp h
      exact ⟨cells_bytes_single _ _, rfl⟩
    | bitmap l =>
      obtain ⟨h, -, rfl⟩ := rep_bitmap.mp h
      exact ⟨cells_bytes_single _ _, rfl⟩
    | branch form kids => exact absurd h id
  | succ kb ih =>
    cases t with
    | null =>
      rw [(rep_null.mp h).2]
      exact ⟨rfl, rfl⟩
    | immed l =>
      rw [(rep_immed.mp h).2]
      exact ⟨rfl, rfl⟩
    | leaf l =>
      obtain ⟨h, -, rfl⟩ := rep_leaf.mp h
      exact ⟨cells_bytes_single _ _, rfl⟩
    | bitmap l =>
      obtain ⟨h, -, rfl⟩ := rep_bitmap.mp h
      exact ⟨cells_bytes_single _ _, rfl⟩
    | branch form kids =>
      obtain ⟨h, es, Ck, -, hk, rfl⟩ := rep_branch.mp h
      obtain ⟨hbytes, hnodes⟩ := hk.cost ih
      rw [cells_bytes_cons, Multiset.card_cons, hbytes, hnodes, Tree.bytes, Tree.nodes, ← hk.keys,
        Nat.add_comm 1]
      exact ⟨congrArg (· + _) (branchBytes_eq _ _), rfl⟩

/-- Byte count and live slots of an arena that holds one tree. -/
theorem Rep.footprint (h : Rep fl kb e t C) (ho : Owned a C) :
    a.bytes = t.bytes fl kb ∧ a.liveAllocs = t.nodes kb := by
  obtain ⟨hb, hn⟩ := h.cost
  exact ⟨ho.bytes.trans hb, ho.liveAllocs.trans hn⟩

def Arena.slotBytes (a : Arena) : ℕ := (a.slots.map fun s => s.elim 0 Node.heapBytes).sum

theorem Owned.slotBytes (ho : Owned a C) : a.slotBytes = a.bytes := by
  have hslots : a.slotBytes = ∑ h ∈ Finset.range a.slots.length, (a.node h).elim 0 Node.heapBytes := by
    rw [Arena.slotBytes, ← Fin.sum_univ_fun_getElem, Finset.sum_range]
    refine Finset.sum_congr rfl fun i _ => ?_
    rw [Arena.node, List.getElem?_eq_getElem i.isLt, Option.join_some]
  have hlive : ∑ h ∈ Finset.range a.slots.length, (a.node h).elim 0 Node.heapBytes =
      ∑ h ∈ (C.map Prod.fst).toFinset, (a.node h).elim 0 Node.heapBytes := by
    refine (Finset.sum_subset (fun h hm => ?_) fun h _ hm => ?_).symm
    · obtain ⟨c, hc, rfl⟩ := Multiset.mem_map.mp (Multiset.mem_toFinset.mp hm)
      obtain ⟨n, hn, -⟩ := ho.fits c hc
      exact Finset.mem_range.mpr (node_lt hn)
    · cases hn : a.node h with
      | none => rfl
      | some n => exact absurd (Multiset.mem_toFinset.mpr (ho.live h n hn)) hm
  have hcells : ∑ h ∈ (C.map Prod.fst).toFinset, (a.node h).elim 0 Node.heapBytes = C.bytes := by
    rw [Finset.sum_eq_multiset_sum, Multiset.toFinset_val, Multiset.dedup_eq_self.mpr ho.nodup,
      Multiset.map_map, Cells.bytes]
    refine congrArg _ (Multiset.map_congr rfl fun c hc => ?_)
    obtain ⟨n, hn, hfit⟩ := ho.fits c hc
    rw [Function.comp_apply, hn]
    exact hfit.heapBytes
  rw [hslots, hlive, hcells, ho.bytes]

theorem Tree.eq_null (hok : Ok fl kb t) (h : entries kb t = []) : t = null := by
  by_contra hne
  exact hok.held.2 hne h

end Expanse.Trie32
