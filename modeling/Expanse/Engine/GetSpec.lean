import Expanse.Engine.Get
import Expanse.Engine.Skip

/-!
# Lookup finds exactly the stored entries

On a readable edge the read descent answers membership in `entries`, and the
addresses handed out are those of the key asked for. A store through an address
rebinds its key and nothing else.
-/

namespace Expanse.Edge

open Radix SortedAssoc

variable {V : Type} [Inhabited V] {fl : Flavour} {lo : ℕ → ℕ → ℕ} {P : Branch (Edge V) → Prop}
  {L fuel key : ℕ} {e : Edge V} {v : V}

theorem mem_entries_immed {kb : ℕ} {cols : Columns V} (h : Readable fl P L (immed kb cols)) {k : ℕ} :
    (low k L, v) ∈ entries L (immed kb cols) ↔ (low k kb, v) ∈ cols.entries := by
  rw [Readable] at h
  rw [entries, h.1]

/-- Membership of a key below a narrow or full-width leaf, as the descents test it. -/
theorem mem_low_leaf {kb aux : ℕ} {cols : Columns V} (h : Readable fl P L (leaf kb aux cols)) {k : ℕ} :
    (low k L, v) ∈ entries L (leaf kb aux cols) ↔
      slice k kb L = slice aux kb L ∧ (low k kb, v) ∈ cols.entries := by
  rw [Readable] at h
  rw [mem_entries_leaf h.2.1 h.2.2.1, slice_low le_rfl h.2.1, low_low h.2.1]
  simp [low_lt]

theorem mem_low_leafB1 {aux : ℕ} {node : Ranked V} (h : Readable fl P L (leafB1 aux node)) {k : ℕ} :
    (low k L, v) ∈ entries L (leafB1 aux node) ↔
      slice k 1 L = slice aux 1 L ∧ node.get (digit k 1) = some v := by
  rw [Readable] at h
  rw [mem_entries_leafB1 h.1 h.2.1, slice_low le_rfl h.1, low_low h.1]
  have : low k 1 = digit k 1 := by simp [low, digit]
  simp [low_lt, this]

theorem mem_low_branch {aux : ℕ} {node : Branch (Edge V)} (h : BranchReadable fl P L node) {k : ℕ} :
    (low k L, v) ∈ entries L (branch aux node) ↔
      slice k (node.level L) L = slice aux (node.level L) L ∧
      (low k (node.level L - 1), v) ∈
        entries (node.level L - 1) (node.child (digit k (node.level L))) := by
  have h2 := h.two_le
  have hl := h.le
  rw [h.mem_entries, slice_low le_rfl hl, digit_low (by omega) hl, low_low (by omega)]
  simp [low_lt]

omit [Inhabited V] in
theorem terminal_leaf {kb aux : ℕ} {cols : Columns V} :
    terminal L (leaf kb aux cols) key = (L, leaf kb aux cols) := by
  rw [terminal]
  intro _ _ he
  cases he

omit [Inhabited V] in
theorem terminal_null : terminal L (null : Edge V) key = (L, null) := by
  rw [terminal]
  intro _ _ he
  cases he

theorem terminal_branch {aux : ℕ} {node : Branch (Edge V)} (h : BranchShape fl lo L node)
    (hg : slice key (node.level L) L = slice aux (node.level L) L) :
    terminal L (branch aux node) key =
      terminal (node.level L - 1) (node.child (digit key (node.level L))) key := by
  have h2 := h.two_le
  rw [terminal, dif_pos ⟨by omega, h.le⟩, if_pos hg]

theorem terminal_shape (h : Shape fl lo L e) (key : ℕ) :
    Shape fl lo (terminal L e key).1 (terminal L e key).2 ∧ (terminal L e key).1 ≤ L := by
  induction L using Nat.strong_induction_on generalizing e with
  | _ L ih =>
    cases e with
    | branch aux node =>
      have hb := shape_branch.mp h
      have h2 := hb.two_le
      have hl := hb.le
      by_cases hg : slice key (node.level L) L = slice aux (node.level L) L
      · rw [terminal_branch hb hg]
        obtain ⟨hs, hle⟩ := ih _ (by omega) (hb.child (digit key (node.level L))).1
        exact ⟨hs, by omega⟩
      · rw [terminal, dif_pos ⟨by omega, hl⟩, if_neg hg]
        exact ⟨h, le_rfl⟩
    | _ => simpa [terminal] using h

/-- The read descent finds exactly the stored entries. -/
theorem walk_spec (h : Readable fl P L e) (hf : L ≤ fuel) (h1 : 1 ≤ L) :
    walk fuel e key L = some v ↔ (low key L, v) ∈ entries L e := by
  induction fuel generalizing L e with
  | zero => omega
  | succ fuel ih =>
    cases e with
    | null => simp [walk, entries]
    | immed kb cols =>
      rw [mem_entries_immed h, walk]
      rw [Readable] at h
      exact h.2.2.1.find_iff
    | leaf kb aux cols =>
      rw [mem_low_leaf h, walk]
      rw [Readable] at h
      by_cases hg : slice key kb L = slice aux kb L
      · rw [(Aux.decode_guard h.2.1).mpr hg]
        simp [hg, h.2.2.1.find_iff]
      · have hg' := hg
        rw [← Aux.decode_guard h.2.1, Bool.not_eq_false] at hg'
        simp [hg', hg]
    | leafB1 aux node =>
      rw [mem_low_leafB1 h, walk]
      rw [Readable] at h
      by_cases hg : slice key 1 L = slice aux 1 L
      · rw [(Aux.decode_guard h.1).mpr hg]
        simp [hg]
      · have hg' := hg
        rw [← Aux.decode_guard h.1, Bool.not_eq_false] at hg'
        simp [hg', hg]
    | fullExpanse aux =>
      rw [walk, mem_entries_full]
      simp [low_lt, eq_comm]
    | branch aux node =>
      have hb := readable_branch.mp h
      have h2 := hb.two_le
      have hl := hb.le
      rw [mem_low_branch hb, walk]
      by_cases hg : slice key (node.level L) L = slice aux (node.level L) L
      · rw [(Aux.decode_guard hl).mpr hg]
        simp only [Bool.false_eq_true, if_false, hg, true_and, Branch.child]
        cases hfd : node.find (digit key (node.level L)) with
        | none => simp [entries]
        | some c =>
          simp only [Option.getD_some]
          exact ih (hb.kids _ c hfd) (by omega) (by omega)
      · have hg' := hg
        rw [← Aux.decode_guard hl, Bool.not_eq_false] at hg'
        simp [hg', hg]

omit [Inhabited V] in
theorem row_bitmapPos {node : Ranked V} (h : node.Ok) {d : ℕ} (hg : node.get d = some v) :
    (node.row (d / 32))[Bitmap.subexpanseRank node.bits d]? = some (d, v) := by
  have hb : node.bits.testBit d = true := (Ranked.get_isSome h).mp (by rw [hg]; rfl)
  rw [Ranked.row, List.getElem?_zip_eq_some]
  constructor
  · rw [Bitmap.subexpanseRank_eq]
    exact getElem?_lowerBound (Bitmap.subDigits_sorted _ _) (Bitmap.mem_subDigits.mpr ⟨rfl, hb⟩)
  · rw [Ranked.get, if_pos hb] at hg
    exact hg

theorem locateSlot_spec (h : Readable fl P L e) (hfl : fl = .map) (hf : L ≤ fuel) (h1 : 1 ≤ L)
    (hm : (low key L, v) ∈ entries L e) :
    ∃ s, locateSlot fuel e key L = some s ∧ slotEntry L e s.route s.pos = some (low key L, v) := by
  induction fuel generalizing L e with
  | zero => omega
  | succ fuel ih =>
    cases e with
    | null => simp [entries] at hm
    | immed kb cols =>
      rw [mem_entries_immed h] at hm
      rw [Readable] at h
      obtain ⟨rfl, -, hp, -⟩ := h
      have hk := Columns.mem_keys hm
      refine ⟨⟨[], .index (lowerBound cols.keys (low key kb))⟩, ?_, ?_⟩
      · simp [locateSlot, indexOf?_of_mem hp.sorted hk]
      · obtain ⟨w, -, hw⟩ := Columns.exists_val (getElem?_lowerBound hp.sorted hk)
        rw [slotEntry, hw, hp.keySorted.value_unique (List.mem_of_getElem? hw) hm]
    | leaf kb aux cols =>
      rw [mem_low_leaf h] at hm
      rw [Readable] at h
      obtain ⟨hk1, hkl, hp, -⟩ := h
      obtain ⟨hg, hm⟩ := hm
      have hk := Columns.mem_keys hm
      refine ⟨⟨[], .index (lowerBound cols.keys (low key kb))⟩, ?_, ?_⟩
      · rw [locateSlot]
        simp [(Aux.decode_guard hkl).mpr hg, indexOf?_of_mem hp.sorted hk]
      · obtain ⟨w, -, hw⟩ := Columns.exists_val (getElem?_lowerBound hp.sorted hk)
        rw [slotEntry, hw, hp.keySorted.value_unique (List.mem_of_getElem? hw) hm, ← hg,
          low_eq_slice hkl]
        rfl
    | leafB1 aux node =>
      rw [mem_low_leafB1 h] at hm
      rw [Readable] at h
      obtain ⟨hg, hm⟩ := hm
      have hb : node.bits.testBit (digit key 1) = true :=
        (Ranked.get_isSome h.2.1).mp (by rw [hm]; rfl)
      refine ⟨⟨[], bitmapPos node (digit key 1)⟩, ?_, ?_⟩
      · rw [locateSlot]
        simp [(Aux.decode_guard h.1).mpr hg, hb]
      · rw [bitmapPos, slotEntry, row_bitmapPos h.2.1 hm, ← hg, low_eq_slice h.1]
        have : low key 1 = digit key 1 := by simp [low, digit]
        simp [this]
    | fullExpanse aux =>
      rw [Readable] at h
      rw [hfl] at h
      exact absurd h.1 (by decide)
    | branch aux node =>
      have hb := readable_branch.mp h
      have h2 := hb.two_le
      have hl := hb.le
      rw [mem_low_branch hb] at hm
      obtain ⟨hg, hm⟩ := hm
      cases hfd : node.find (digit key (node.level L)) with
      | none =>
        rw [Branch.child, hfd] at hm
        simp [entries] at hm
      | some c =>
        have hc : node.child (digit key (node.level L)) = c := by rw [Branch.child, hfd]; rfl
        rw [hc] at hm
        obtain ⟨s, hs, he⟩ := ih (hb.kids _ c hfd) (by omega) (by omega) hm
        refine ⟨s.under (digit key (node.level L)), ?_, ?_⟩
        · rw [locateSlot]
          simp [(Aux.decode_guard hl).mpr hg, hfd, hs]
        · rw [Slot.under, slotEntry, hc, he, ← hg, low_eq_split (by omega) hl]
          rfl

theorem locateSlot_eq_none (h : Readable fl P L e) (hf : L ≤ fuel) (h1 : 1 ≤ L)
    (hm : ∀ v, (low key L, v) ∉ entries L e) : locateSlot fuel e key L = none := by
  induction fuel generalizing L e with
  | zero => omega
  | succ fuel ih =>
    cases e with
    | null => rfl
    | immed kb cols =>
      have hn : low key kb ∉ cols.keys := by
        intro hk
        rw [← Columns.map_fst_entries] at hk
        obtain ⟨⟨k, w⟩, hw, he⟩ := List.mem_map.mp hk
        apply hm w
        rw [mem_entries_immed h, ← he]
        exact hw
      simp [locateSlot, indexOf?_of_not_mem hn]
    | leaf kb aux cols =>
      rw [locateSlot]
      split_ifs with hg
      · rfl
      · have hs := h
        rw [Readable] at hs
        rw [Bool.not_eq_true, Aux.decode_guard hs.2.1] at hg
        have hn : low key kb ∉ cols.keys := by
          intro hk
          rw [← Columns.map_fst_entries] at hk
          obtain ⟨⟨k, w⟩, hw, he⟩ := List.mem_map.mp hk
          apply hm w
          rw [mem_low_leaf h, ← he]
          exact ⟨hg, hw⟩
        simp [indexOf?_of_not_mem hn]
    | leafB1 aux node =>
      rw [locateSlot]
      split_ifs with hg hb
      · rfl
      · have hs := h
        rw [Readable] at hs
        rw [Bool.not_eq_true, Aux.decode_guard hs.1] at hg
        obtain ⟨w, hw⟩ := Option.isSome_iff_exists.mp ((Ranked.get_isSome hs.2.1).mpr hb)
        exact absurd ((mem_low_leafB1 h).mpr ⟨hg, hw⟩) (hm w)
      · rfl
    | fullExpanse aux => rfl
    | branch aux node =>
      have hb := readable_branch.mp h
      have h2 := hb.two_le
      have hl := hb.le
      rw [locateSlot]
      split_ifs with hg
      · rfl
      · rw [Bool.not_eq_true, Aux.decode_guard hl] at hg
        cases hfd : node.find (digit key (node.level L)) with
        | none => rfl
        | some c =>
          have hc : node.child (digit key (node.level L)) = c := by rw [Branch.child, hfd]; rfl
          have := ih (hb.kids _ c hfd) (by omega) (by omega) (by
            intro w hw
            apply hm w
            rw [mem_low_branch hb, hc]
            exact ⟨hg, hw⟩)
          simp [this]

end Expanse.Edge
