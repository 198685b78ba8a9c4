import Expanse.Engine.Remove
import Expanse.Engine.Cascade

/-!
# Removal deletes exactly its key

By induction on the slot level, for both engines: the removal answers whether
the key is stored, and then leaves a well-formed edge without that key.
-/

namespace Expanse

open Radix SortedAssoc

namespace Branch

variable {α : Type} [Nullable α] {b : Branch α} {d L : ℕ}

omit [Nullable α] in
theorem findSlot_eq (h : b.Ok) (d : ℕ) : b.findSlot d = b.find d := by
  cases b with
  | linear form hdr edges =>
    cases form with
    | l3 => exact find_relabel h (upgradeL3ToL7_ok h) d
    | l7 => rfl
  | bitmap level kids => rfl
  | uncompressed edges => rfl

/-- Closing a populated slot takes one digit from the population. -/
theorem count_removeSlot (h : b.Ok) (hf : b.Filled) (hd : (b.find d).isSome)
    (hn : b.child d ≠ Nullable.null) : (b.removeSlot d).count + 1 = b.count := by
  have hok := removeSlot_ok h hd
  have hfil := removeSlot_filled h hd hf
  rw [count_eq_slots hok, count_eq_slots h]
  have he : Erased d b.slots (b.removeSlot d).slots := by
    intro x c
    rw [mem_slots_iff hok hfil, mem_slots_iff h hf, child_removeSlot h hd]
    by_cases hx : x = d
    · simp [hx, eq_comm]
    · simp [hx]
  apply he.length (slots_sorted h) (slots_sorted hok)
  rw [List.mem_map]
  exact ⟨(d, b.child d), (mem_slots_iff h hf).mpr ⟨rfl, hn⟩, rfl⟩

theorem child_of_count_zero (h : b.Ok) (hf : b.Filled) (hc : b.count = 0) (x : ℕ) :
    b.child x = Nullable.null := by
  by_contra hn
  have hm := (mem_slots_iff h hf).mpr ⟨rfl, hn⟩
  rw [count_eq_slots h, List.length_eq_zero_iff] at hc
  rw [hc] at hm
  cases hm

theorem exists_child_of_count (h : b.Ok) (hf : b.Filled) (hc : b.count ≠ 0) :
    ∃ x, b.child x ≠ Nullable.null := by
  rw [count_eq_slots h] at hc
  obtain ⟨⟨x, c⟩, hm⟩ := List.exists_mem_of_length_pos (Nat.pos_of_ne_zero hc)
  obtain ⟨hx, hn⟩ := (mem_slots_iff h hf).mp hm
  exact ⟨x, hx ▸ hn⟩

end Branch

namespace Edge

variable {V : Type} [Inhabited V] {fl : Flavour} {lo : ℕ → ℕ → ℕ} {L fuel key aux : ℕ} {e : Edge V}

/-- Populations a layout may have just before it is demoted. -/
def Demotable : Branch (Edge V) → Prop
  | .linear _ _ _ => True
  | .bitmap _ kids => Bitmap.count kids.bits ≤ BRANCHB_UP
  | .uncompressed edges => BRANCH_L7_CAP ≤ (Branch.uncompressed edges).count

omit [Inhabited V] in
/-- Demotion keeps the children and restores the range. -/
theorem demote_spec {node : Branch (Edge V)} (h : node.Ok) (hf : node.Filled)
    (hd : Demotable node) :
    (node.demote L).Ok ∧ (node.demote L).Filled ∧ InRange (node.demote L) ∧
      (node.demote L).level L = node.level L ∧ ∀ x, (node.demote L).child x = node.child x := by
  cases node with
  | linear form hdr edges =>
    cases form with
    | l3 => exact ⟨h, hf, trivial, rfl, fun _ => rfl⟩
    | l7 =>
      simp only [Branch.demote]
      split_ifs with hc
      · obtain ⟨he, hok⟩ := Branch.downgradeL7ToL3_ok h (Nat.le_of_lt hc)
        rw [he]
        have hfind := Branch.find_relabel h hok
        exact ⟨hok, Branch.filled_congr hfind rfl hf, trivial, rfl, Branch.child_congr hfind⟩
      · exact ⟨h, hf, trivial, rfl, fun _ => rfl⟩
  | bitmap level kids =>
    simp only [Branch.demote]
    split_ifs with hc
    · have hle : Bitmap.count kids.bits ≤ BRANCH_L7_CAP := le_trans hc (by decide)
      have hfind := Branch.find_downgradeBToL7 h hle
      exact ⟨Branch.downgradeBToL7_ok h hle, Branch.filled_congr hfind rfl hf, trivial, rfl,
        Branch.child_congr hfind⟩
    · refine ⟨h, hf, ⟨?_, hd⟩, rfl, fun _ => rfl⟩
      simp only [Branch.count, BRANCHB_TO_L7_DOWN, BRANCH_L7_CAP] at hc ⊢
      omega
  | uncompressed edges =>
    simp only [Branch.demote]
    split_ifs with hc
    · have hok := Branch.downgradeUToB_ok L h
      have hchild := Branch.child_downgradeUToB L h
      have hfil := Branch.downgradeUToB_filled L h
      have hcount := Branch.count_eq_of_child h hf hok hfil hchild
      refine ⟨hok, hfil, ?_, rfl, hchild⟩
      simp only [Branch.downgradeUToB, Branch.count, InRange] at hcount ⊢
      simp only [Demotable, Branch.count] at hd
      simp only [Branch.count] at hc
      rw [hcount]
      exact ⟨hd, le_trans hc (by decide)⟩
    · exact ⟨h, hf, lt_of_not_ge hc, rfl, fun _ => rfl⟩

/-- The slot levels also admit the narrow leaves that removals leave. -/
def AdmitsNarrow (fl : Flavour) (lo : ℕ → ℕ → ℕ) : Prop :=
  ∀ kb L, 1 ≤ kb → kb ≤ L → L ≤ 7 → lo L kb ≤ fl.immedMax L

/-- The contract of a removal from one slot. -/
def RemoveSpec (fl : Flavour) (lo : ℕ → ℕ → ℕ) (L : ℕ) (e : Edge V) (key : ℕ) :
    Option (V × Edge V) → Prop
  | none => ∀ v, (low key L, v) ∉ entries L e
  | some (old, e') => (low key L, old) ∈ entries L e ∧ WF fl lo L e' ∧
      Erased (low key L) (entries L e) (entries L e')

omit [Inhabited V] in
theorem erased_shift {l l' : List (ℕ × V)} {k n : ℕ} (h : Erased k l l') :
    Erased (n + k) (shift n l) (shift n l') := by
  intro x w
  rw [mem_shift, mem_shift]
  constructor
  · rintro ⟨y, hy, rfl⟩
    obtain ⟨hne, hy⟩ := (h y w).mp hy
    exact ⟨by omega, y, hy, rfl⟩
  · rintro ⟨hne, y, hy, rfl⟩
    exact ⟨y, (h y w).mpr ⟨by omega, hy⟩, rfl⟩

theorem erased_null {k : ℕ} {l l' : List (ℕ × V)} (h : Erased k l l') (hl : l'.length = 0) :
    Erased k l (entries L (null : Edge V)) := by
  rw [List.length_eq_zero_iff] at hl
  rw [entries, ← hl]
  exact h

theorem wf_null : WF fl lo L (null : Edge V) := ⟨by rw [Shape]; trivial, trivial⟩

theorem remove_immed {kb : ℕ} {cols : Columns V} (h : Shape fl lo L (immed kb cols)) :
    ∃ out, removeFlat fl (fuel + 1) (immed kb cols) key L = .ok out ∧
      RemoveSpec fl lo L (immed kb cols) key out := by
  have hs := h
  rw [Shape] at hs
  obtain ⟨rfl, h1, h7, hp, hn1, hmax⟩ := hs
  rw [removeFlat]
  cases hl : locate cols.keys (low key kb) with
  | error pos =>
    refine ⟨none, rfl, ?_⟩
    intro v hm
    rw [entries] at hm
    exact (locate_error hp.sorted hl).1 (Columns.mem_keys hm)
  | ok pos =>
    have hk := locate_ok hl
    obtain ⟨old, hv, he⟩ := Columns.exists_val hk
    have her := Columns.erased_removeAt hp hk
    have hsz := Columns.size_removeAt hk
    have hm : (low key kb, old) ∈ entries kb (immed kb cols) := by
      rw [entries]
      exact List.mem_of_getElem? he
    simp only [hv, Option.getD_some]
    split_ifs with hone
    · refine ⟨_, rfl, hm, wf_null, ?_⟩
      rw [show entries kb (immed kb cols) = cols.entries by rw [entries]]
      exact erased_null her (by rw [Columns.length_entries]; omega)
    · refine ⟨_, rfl, hm, ⟨?_, trivial⟩, ?_⟩
      · rw [Shape]
        exact ⟨rfl, h1, h7, hp.removeAt pos, by omega, by omega⟩
      · rw [entries, entries]
        exact her

theorem remove_leaf {kb : ℕ} {cols : Columns V} (h : Shape fl lo L (leaf kb aux cols))
    (ha : AdmitsNarrow fl lo) :
    ∃ out, removeFlat fl (fuel + 1) (leaf kb aux cols) key L = .ok out ∧
      RemoveSpec fl lo L (leaf kb aux cols) key out := by
  have hs := h
  rw [Shape] at hs
  obtain ⟨h1, hkl, h7, hp, hn1, hcap, hpop, hlo⟩ := hs
  have hmem := fun v => mem_low_leaf (v := v) (k := key) h.readable
  rw [removeFlat]
  by_cases hg : slice key kb L = slice aux kb L
  · simp only [(Aux.decode_guard hkl).mpr hg, Bool.false_eq_true, if_false, hpop]
    have hkey := low_of_match hkl hg
    cases hl : locate cols.keys (low key kb) with
    | error pos =>
      refine ⟨none, rfl, ?_⟩
      intro v hm
      exact (locate_error hp.sorted hl).1 (Columns.mem_keys ((hmem v).mp hm).2)
    | ok pos =>
      have hk := locate_ok hl
      obtain ⟨old, hv, he⟩ := Columns.exists_val hk
      have hsz := Columns.size_removeAt hk
      have hp' := hp.removeAt pos
      have hm : (low key L, old) ∈ entries L (leaf kb aux cols) :=
        (hmem old).mpr ⟨hg, List.mem_of_getElem? he⟩
      have her : Erased (low key L) (entries L (leaf kb aux cols))
          (entries L (leaf kb aux (cols.removeAt pos))) := by
        rw [entries, entries, hkey]
        exact erased_shift (Columns.erased_removeAt hp hk)
      have himm := immedMax_pos fl (show 1 ≤ L by omega) h7
      simp only [hv, Option.getD_some]
      split_ifs with hstay hone
      · have hlo' := ha kb L h1 hkl h7
        have := leafCap_le kb
        refine ⟨_, rfl, hm, ⟨?_, trivial⟩, ?_⟩
        · rw [Shape]
          refine ⟨h1, hkl, h7, hp', by omega, by omega, ?_, by omega⟩
          rw [Aux.pop0_setPop0 (small_lt_pow (by omega) h1)]
          omega
        · rw [show entries L (leaf kb (Aux.setPop0 aux kb (cols.size - 2)) (cols.removeAt pos)) =
            entries L (leaf kb aux (cols.removeAt pos)) by
              rw [entries, entries, Aux.slice_setPop0 le_rfl]]
          exact her
      · refine ⟨_, rfl, hm, wf_null, erased_null her ?_⟩
        rw [entries, length_shift, Columns.length_entries]
        omega
      · rw [absorbDecode_eq hkl hp']
        refine ⟨_, rfl, hm, ⟨?_, trivial⟩, ?_⟩
        · rw [Shape]
          refine ⟨rfl, by omega, h7, Columns.Packed.ofEntries ?_ ?_, ?_, ?_⟩
          · rw [entries]
            exact keySorted_shift hp'.keySorted
          · intro k v hkv
            exact ((mem_entries_leaf hkl hp').mp hkv).1
          · rw [← Columns.length_entries, Columns.entries_ofEntries, entries, length_shift,
              Columns.length_entries]
            omega
          · rw [← Columns.length_entries, Columns.entries_ofEntries, entries, length_shift,
              Columns.length_entries]
            omega
        · rw [entries, Columns.entries_ofEntries]
          exact her
  · have hg' := hg
    rw [← Aux.decode_guard hkl, Bool.not_eq_false] at hg'
    simp only [hg', if_true]
    exact ⟨none, rfl, fun v hm => hg ((hmem v).mp hm).1⟩

variable (fuel key) in
theorem remove_leafB1 {node : Ranked V} (h : Shape fl lo L (leafB1 aux node)) (ha : AdmitsNarrow fl lo) :
    ∃ out, removeFlat fl (fuel + 1) (leafB1 aux node) key L = .ok out ∧
      RemoveSpec fl lo L (leafB1 aux node) key out := by
  have hmem := fun v => mem_low_leafB1 (v := v) (k := key) h.readable
  have hs := h
  rw [Shape] at hs
  obtain ⟨h1, h7, hok, hdown, hpop⟩ := hs
  rw [removeFlat]
  by_cases hg : slice key 1 L = slice aux 1 L
  · simp only [(Aux.decode_guard h1).mpr hg, Bool.false_eq_true, if_false]
    have hkey := low_of_match h1 hg
    cases hget : node.get (digit key 1) with
    | none =>
      refine ⟨none, rfl, ?_⟩
      intro v hm
      have := ((hmem v).mp hm).2
      rw [hget] at this
      cases this
    | some old =>
      have hb := (Ranked.get_isSome hok).mp (by rw [hget]; rfl)
      have hok' := Ranked.remove_ok hok hb
      have hget' := Ranked.get_remove hok hb
      set node' := node.remove (digit key 1) with hnode'
      have hern : Erased (digit key 1) node.entries node'.entries := by
        intro x w
        rw [Ranked.mem_entries hok', Ranked.mem_entries hok, hget']
        split_ifs with hx <;> simp [hx]
      have her : Erased (low key L) (entries L (leafB1 aux node))
          (entries L (leafB1 aux node')) := by
        rw [entries, entries, hkey, low_one]
        exact erased_shift hern
      have hlen : node'.entries.length + 1 = node.entries.length := by
        apply hern.length (Ranked.entries_sorted hok) (Ranked.entries_sorted hok')
        rw [List.mem_map]
        exact ⟨_, (Ranked.mem_entries hok).mpr hget, rfl⟩
      have hcount : ∀ r : Ranked V, r.Ok → r.entries.length = Bitmap.count r.bits := by
        intro r hr
        rw [Bitmap.count, ← Ranked.entries_keys hr, List.length_map]
      rw [hcount _ hok, ← hpop] at hlen
      have hc' := hcount _ hok'
      have himm : fl.immedMax L ≤ 15 := by
        cases fl <;> simp only [Flavour.immedMax, IMMED_PAYLOAD_BYTES] <;> interval_cases L <;> decide
      simp only [LEAFB1_DOWN] at hdown
      refine ⟨_, rfl, (hmem old).mpr ⟨hg, hget⟩, ?_⟩
      by_cases hlow : Aux.pop0 aux 1 < LEAFB1_DOWN
      -- one below the floor: a linear leaf again
      · rw [shrinkBitmap, if_pos hlow, if_neg (by omega)]
        simp only [LEAFB1_DOWN] at hlow
        obtain ⟨haux, hp0⟩ := restoreDecode_slice (w := aux)
          (show node'.entries.length - 1 < 256 by omega) h1
        have hlo := ha 1 L le_rfl h1 h7
        refine ⟨⟨?_, trivial⟩, ?_⟩
        · rw [Shape, hp0, ← Columns.length_entries, Columns.entries_ofEntries]
          have hcap : leafCap 1 = 25 := rfl
          refine ⟨le_rfl, h1, h7, Columns.Packed.ofEntries (Ranked.entries_sorted hok') ?_, by omega,
            by omega, by omega, by omega⟩
          intro k v hkv
          simpa using Ranked.get_bound hok' ((Ranked.mem_entries hok').mp hkv)
        · rw [entries, entries, haux, Columns.entries_ofEntries, hkey, low_one]
          exact erased_shift hern
      · rw [shrinkBitmap, if_neg hlow]
        simp only [LEAFB1_DOWN] at hlow
        have hp0 : Aux.pop0 (Aux.setPop0 aux 1 (Aux.pop0 aux 1 - 1)) 1 = Aux.pop0 aux 1 - 1 := by
          have := Bitmap.count_le node.bits
          exact Aux.pop0_setPop0 (by simp only [pow_one]; omega)
        refine ⟨⟨?_, trivial⟩, ?_⟩
        · rw [Shape, hp0]
          simp only [LEAFB1_DOWN]
          exact ⟨h1, h7, hok', by omega, by omega⟩
        · rw [show entries L (leafB1 (Aux.setPop0 aux 1 (Aux.pop0 aux 1 - 1)) node') =
            entries L (leafB1 aux node') by rw [entries, entries, Aux.slice_setPop0 le_rfl]]
          exact her
  · have hg' := hg
    rw [← Aux.decode_guard h1, Bool.not_eq_false] at hg'
    simp only [hg', if_true]
    exact ⟨none, rfl, fun v hm => hg ((hmem v).mp hm).1⟩

variable (fl lo aux) in
theorem materializeFull_spec :
    ∃ aux' node, (materializeFull 1 : Edge V) = leafB1 aux' node ∧
      Shape fl lo 1 (leafB1 aux' node) ∧
      entries 1 (leafB1 aux' node) = entries 1 (fullExpanse aux : Edge V) := by
  set l : List (ℕ × V) := (List.range 256).map fun d => (d, default) with hl
  have hs : KeySorted l := by
    rw [hl, KeySorted, List.pairwise_map]
    exact List.pairwise_lt_range
  have hb : ∀ e ∈ l, e.1 < 256 := by
    intro e he
    obtain ⟨d, hd, rfl⟩ := List.mem_map.mp he
    exact List.mem_range.mp hd
  have hok := Ranked.ofEntries_ok hs hb
  have hent := Ranked.entries_ofEntries hs hb
  have hcount : Bitmap.count (Ranked.ofEntries l).bits = 256 := by
    rw [Bitmap.count, ← Ranked.entries_keys hok, List.length_map, hent, hl, List.length_map,
      List.length_range]
  refine ⟨_, _, if_pos rfl, ?_, ?_⟩
  · rw [Shape, hcount]
    refine ⟨le_rfl, by decide, hok, by decide, ?_⟩
    rw [Aux.pop0_setPop0 (by decide)]
  · rw [entries, entries, hent, slice_self, Nat.zero_mul, shift_zero]
    rfl

theorem remove_fullExpanse (h : Shape .set lo L (fullExpanse aux : Edge V)) (ha : AdmitsNarrow .set lo) :
    ∃ out, removeFlat .set (fuel + 2) (fullExpanse aux : Edge V) key L = .ok out ∧
      RemoveSpec .set lo L (fullExpanse aux : Edge V) key out := by
  have hs := h
  rw [Shape] at hs
  obtain ⟨-, rfl, -⟩ := hs
  obtain ⟨aux', node, he, hsh, hent⟩ := materializeFull_spec (V := V) .set lo aux
  obtain ⟨out, hr, hsp⟩ := remove_leafB1 fuel key hsh ha
  refine ⟨out, ?_, ?_⟩
  · rw [removeFlat]
    simp only [he]
    exact hr
  · cases out with
    | none =>
      intro v
      rw [← hent]
      exact hsp v
    | some p =>
      obtain ⟨hm, hw, her⟩ := hsp
      rw [hent] at hm her
      exact ⟨hm, hw, her⟩

section Branch

variable {node : Branch (Edge V)} {d : ℕ} {c : Edge V}

theorem BranchShape.entries_pos (h : BranchShape fl lo L node) (aux : ℕ) {x : ℕ} (hx : node.child x ≠ null) :
    0 < (entries L (branch aux node)).length := by
  have hm := (Branch.mem_slots_iff h.ok h.filled).mpr ⟨rfl, hx⟩
  have hpos := List.length_pos_of_mem hm
  have hc := h.count_le_length aux
  rw [Branch.count_eq_slots h.ok] at hc
  omega

theorem exact_decPop0 {node' : Branch (Edge V)} {k : ℕ} {v : V} (h : BranchShape fl lo L node)
    (h' : BranchShape fl lo L node') (hlev : node'.level L = node.level L)
    (hm : (k, v) ∈ entries L (branch aux node))
    (he : Erased k (entries L (branch aux node))
      (entries L (branch (Aux.decPop0 aux (node.level L)) node')))
    {x : ℕ} (hx : node'.child x ≠ null) (hex : Exact L (branch aux node)) :
    Exact L (branch (Aux.decPop0 aux (node.level L)) node') := by
  intro h7
  rw [hlev] at h7 ⊢
  have hlen := he.length (shape_branch.mpr h).sorted (shape_branch.mpr h').sorted
    (List.mem_map_of_mem (f := Prod.fst) hm)
  have hpos := h'.entries_pos (Aux.decPop0 aux (node.level L)) hx
  have hpop := hex h7
  have hle := h.length_le aux
  generalize (entries L (branch (Aux.decPop0 aux (node.level L)) node')).length = n at hlen hpos ⊢
  rw [Aux.decPop0, if_pos h7, Aux.pop0_setPop0 (by omega)]
  omega

theorem afterRemove_spec {k : ℕ} {v : V} (h : WF fl lo L (branch aux node)) (hd : d < 256)
    (hslot : node.find d = some c) (hk : k < 256 ^ (node.level L - 1))
    (hm : (k, v) ∈ entries (node.level L - 1) c) {c' : Edge V}
    (hc' : WF fl lo (node.level L - 1) c')
    (he : Erased k (entries (node.level L - 1) c) (entries (node.level L - 1) c')) :
    WF fl lo L (afterRemove aux node L d c') ∧
      Erased (slice aux (node.level L) L * 256 ^ node.level L + d * 256 ^ (node.level L - 1) + k)
        (entries L (branch aux node)) (entries L (afterRemove aux node L d c')) := by
  have hb := shape_branch.mp h.1
  have h2 := hb.two_le
  have hl := hb.le
  have hchild : node.child d = c := by rw [Branch.child, hslot]; rfl
  have hsome : (node.find d).isSome := by rw [hslot]; rfl
  have hcn : c ≠ null := by
    rintro rfl
    rw [entries] at hm
    cases hm
  have haux : slice (Aux.decPop0 aux (node.level L)) (node.level L) L =
      slice aux (node.level L) L := Aux.slice_decPop0 le_rfl
  have hkm : (slice aux (node.level L) L * 256 ^ node.level L + d * 256 ^ (node.level L - 1) + k, v) ∈
      entries L (branch aux node) := by
    rw [mem_entries_branch_slots (by omega) hl]
    exact ⟨d, c, k, (Branch.mem_slots_iff hb.ok hb.filled).mpr ⟨hchild, hcn⟩, hm, rfl⟩
  rw [← hchild] at he
  -- the branch with the slot stored or closed: its shape decides the rest
  have key : ∀ (node' : Branch (Edge V)) (x : ℕ), BranchShape fl lo L node' →
      node'.level L = node.level L → (∀ y, node'.child y = if y = d then c' else node.child y) →
      node'.child x ≠ null →
      WF fl lo L (branch (Aux.decPop0 aux (node.level L)) node') ∧
        Erased (slice aux (node.level L) L * 256 ^ node.level L + d * 256 ^ (node.level L - 1) + k)
          (entries L (branch aux node))
          (entries L (branch (Aux.decPop0 aux (node.level L)) node')) := by
    intro node' x hs' hlev hch hx
    have her := erased_of_child hb hs' hlev hch haux hd hk he
    exact ⟨⟨shape_branch.mpr hs', exact_decPop0 hb hs' hlev hkm her hx h.2⟩, her⟩
  unfold afterRemove
  by_cases hnull : c' = null
  · subst hnull
    have hok := Branch.removeSlot_ok hb.ok hsome
    have hfil := Branch.removeSlot_filled hb.ok hsome hb.filled
    have hch : ∀ y, (node.removeSlot d).child y = if y = d then null else node.child y :=
      Branch.child_removeSlot hb.ok hsome
    have hcnt := Branch.count_removeSlot hb.ok hb.filled hsome (by rw [hchild]; exact hcn)
    simp only [isNull, if_true]
    split_ifs with hzero
    -- the last slot: as an empty branch would read
    · refine ⟨wf_null, ?_⟩
      have hnew : BranchShape fl lo L (Branch.newL3 (node.level L) : Branch (Edge V)) :=
        branchShape_newL3 hb.le_eight hb.top h2 hl
      have her := erased_of_child hb hnew rfl (fun y => by
        rw [child_newL3, ← hch, Branch.child_of_count_zero hok hfil hzero]
        rfl) (rfl : slice aux _ L = slice aux _ L) hd hk he
      rw [entries_newL3 (by omega) hl] at her
      rw [entries]
      exact her
    · have hdem : Demotable (node.removeSlot d) := by
        have hr := hb.range
        cases node with
        | linear form hdr edges =>
          rw [Branch.removeSlot]
          split <;> trivial
        | bitmap level kids =>
          simp only [InRange] at hr
          simp only [Branch.removeSlot, Branch.count] at hcnt
          simp only [Branch.removeSlot, Demotable]
          omega
        | uncompressed edges =>
          simp only [InRange, BRANCHU_TO_B_DOWN] at hr
          simp only [Branch.removeSlot] at hcnt
          simp only [Branch.removeSlot, Demotable, BRANCH_L7_CAP]
          omega
      obtain ⟨hok', hfil', hrange, hlev, hdch⟩ := demote_spec (L := L) hok hfil hdem
      rw [Branch.level_removeSlot] at hlev
      obtain ⟨x, hx⟩ := Branch.exists_child_of_count hok hfil hzero
      refine key _ x ⟨hb.le_eight, by rw [hlev]; exact hb.top, hok', hfil', hrange,
        by rw [hlev]; exact h2, by rw [hlev]; exact hl, ?_⟩ hlev (fun y => by rw [hdch, hch])
        (by rw [hdch]; exact hx)
      intro y e hy
      have hye : (node.removeSlot d).child y = e := by
        rw [← hdch, Branch.child, hy]
        rfl
      rw [hlev, ← hye, hch]
      split_ifs
      · exact wf_null
      · exact hb.child y
  · have hin : c'.isNull = false := by
      rw [← Bool.not_eq_true]
      intro hn
      exact hnull ((Nullable.isNull_iff c').mp hn)
    simp only [hin, Bool.false_eq_true, if_false]
    have ho := Opened.refl hb hsome
    refine key _ d (hb.store ho hc' hnull) (Branch.level_setChild _ _ _ _)
      (child_store ho) ?_
    rw [child_store ho, if_pos rfl]
    exact hnull

end Branch

variable (key) in
/-- Every removal returns and meets its contract. -/
theorem removeFlat_spec (h : WF fl lo L e) (h1 : 1 ≤ L) (ha : AdmitsNarrow fl lo)
    (hfuel : L + 1 ≤ fuel) :
    ∃ out, removeFlat fl fuel e key L = .ok out ∧ RemoveSpec fl lo L e key out := by
  induction L using Nat.strong_induction_on generalizing e fuel with
  | _ L ih =>
    obtain ⟨f, rfl⟩ := Nat.exists_eq_add_of_le' (show 2 ≤ fuel by omega)
    cases e with
    | null => exact ⟨none, rfl, by intro v hm; rw [entries] at hm; cases hm⟩
    | immed kb cols => exact remove_immed h.1
    | leaf kb aux cols => exact remove_leaf h.1 ha
    | leafB1 aux node => exact remove_leafB1 _ _ h.1 ha
    | fullExpanse aux =>
      have hs := h.1
      rw [Shape] at hs
      obtain ⟨rfl, -⟩ := hs
      exact remove_fullExpanse h.1 ha
    | branch aux node =>
      have hb := shape_branch.mp h.1
      have h2 := hb.two_le
      have hl := hb.le
      have hmem := fun v : V => (mem_low_branch hb.readable :
        (low key L, v) ∈ entries L (branch aux node) ↔ _)
      rw [removeFlat]
      by_cases hg : slice key (node.level L) L = slice aux (node.level L) L
      · simp only [(Aux.decode_guard hl).mpr hg, Bool.false_eq_true, if_false,
          Branch.findSlot_eq hb.ok]
        cases hf : node.find (digit key (node.level L)) with
        | none =>
          refine ⟨none, rfl, ?_⟩
          intro v hm
          have := ((hmem v).mp hm).2
          rw [Branch.child, hf] at this
          simp [entries] at this
        | some c =>
          have hchild : node.child (digit key (node.level L)) = c := by rw [Branch.child, hf]; rfl
          obtain ⟨out, hr, hsp⟩ := ih (node.level L - 1) (by omega) (hb.kids _ c hf) (by omega)
            (show node.level L - 1 + 1 ≤ f + 1 by omega)
          simp only [hr]
          cases out with
          | none =>
            refine ⟨none, rfl, ?_⟩
            intro v hm
            have := ((hmem v).mp hm).2
            rw [hchild] at this
            exact hsp v this
          | some p =>
            obtain ⟨old, c'⟩ := p
            obtain ⟨hm, hw, her⟩ := hsp
            obtain ⟨hwf, her'⟩ := afterRemove_spec h (digit_lt _ _) hf (low_lt _ _) hm hw her
            rw [← hg, ← low_eq_split (by omega) hl] at her'
            refine ⟨_, rfl, (hmem old).mpr ⟨hg, ?_⟩, hwf, her'⟩
            rw [hchild]
            exact hm
      · have hg' := hg
        rw [← Aux.decode_guard hl, Bool.not_eq_false] at hg'
        simp only [hg', if_true]
        exact ⟨none, rfl, fun v hm => hg ((hmem v).mp hm).1⟩

end Edge

end Expanse
