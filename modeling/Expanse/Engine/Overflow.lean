import Mathlib.Data.Nat.Bitwise
import Expanse.Engine.InsertBranch

/-!
# A leaf that overflows

The keys of a full leaf, the slot's skipped digits absorbed, go into a bitmap
leaf when they differ in their last byte only, and otherwise into a fresh branch
at the level where they part.
-/

namespace Expanse.Edge

open Radix SortedAssoc

variable {V : Type} [Inhabited V] {fl : Flavour} {lo : ℕ → ℕ → ℕ} {L fuel key kb aux : ℕ}
  {keep : Bool} {val : V} {cols : Columns V} {E : List (ℕ × V)}

theorem xor_lt_iff {a b n : ℕ} : (a ^^^ b) < 2 ^ n ↔ a / 2 ^ n = b / 2 ^ n := by
  have hdiv : (a ^^^ b) / 2 ^ n = a / 2 ^ n ^^^ b / 2 ^ n := by
    simp only [← Nat.shiftRight_eq_div_pow, Nat.shiftRight_xor_distrib]
  rw [← Nat.div_eq_zero_iff_lt (by positivity), hdiv, Nat.xor_eq_zero_iff]

theorem divergenceLevel_spec {a b : ℕ} (ha : a < 256 ^ L) (hb : b < 256 ^ L) (hne : a ≠ b) :
    1 ≤ divergenceLevel a b L ∧ divergenceLevel a b L ≤ L ∧
      a / 256 ^ divergenceLevel a b L = b / 256 ^ divergenceLevel a b L ∧
      digit a (divergenceLevel a b L) ≠ digit b (divergenceLevel a b L) := by
  have hpow : ∀ n, 256 ^ n = 2 ^ (8 * n) := fun n => by rw [Nat.pow_mul]
  have hx : a ^^^ b ≠ 0 := fun h0 => hne (Nat.xor_eq_zero_iff.mp h0)
  have hlt : a ^^^ b < 256 ^ L := by
    rw [hpow, xor_lt_iff, ← hpow, Nat.div_eq_of_lt ha, Nat.div_eq_of_lt hb]
  set d := divergenceLevel a b L with hd
  have hdef : d = Nat.log2 (a ^^^ b) / 8 + 1 := by rw [hd, divergenceLevel, low_of_lt hlt]
  have hlo : 2 ^ (8 * (d - 1)) ≤ a ^^^ b :=
    le_trans (Nat.pow_le_pow_right (by decide) (by omega)) (Nat.log2_self_le hx)
  have hhi : a ^^^ b < 2 ^ (8 * d) :=
    lt_of_lt_of_le Nat.lt_log2_self (Nat.pow_le_pow_right (by decide) (by omega))
  have hup : a / 256 ^ d = b / 256 ^ d := by
    rw [hpow]
    exact xor_lt_iff.mp hhi
  refine ⟨by omega, ?_, hup, ?_⟩
  · by_contra hgt
    have h1 : 256 ^ L ≤ 2 ^ (8 * (d - 1)) := by
      rw [hpow]
      exact Nat.pow_le_pow_right (by decide) (by omega)
    omega
  · intro hdig
    have hlow : a / 256 ^ (d - 1) = b / 256 ^ (d - 1) := by
      have hsplit : ∀ k, k / 256 ^ (d - 1) = k / 256 ^ d * 256 + digit k d := by
        intro k
        rw [pow_pred (show 1 ≤ d by omega), ← Nat.div_div_eq_div_mul, digit]
        omega
      rw [hsplit, hsplit, hup, hdig]
    rw [hpow, ← xor_lt_iff] at hlow
    omega

omit [Inhabited V] in
theorem firstKey_cons (e : ℕ × V) (l : List (ℕ × V)) : firstKey (e :: l) = e.1 := rfl

omit [Inhabited V] in
theorem firstKey_mem (h : E ≠ []) : firstKey E ∈ E.map Prod.fst := by
  cases E with
  | nil => exact absurd rfl h
  | cons e l => simp [firstKey]

omit [Inhabited V] in
theorem lastKey_concat (l : List (ℕ × V)) (e : ℕ × V) : lastKey (l ++ [e]) = e.1 := by
  simp [lastKey]

omit [Inhabited V] in
theorem lastKey_mem (h : E ≠ []) : lastKey E ∈ E.map Prod.fst := by
  rw [lastKey, List.getLast?_eq_some_getLast h]
  exact List.mem_map_of_mem (List.getLast_mem h)

omit [Inhabited V] in
theorem firstKey_le (hs : KeySorted E) {k : ℕ} (hk : k ∈ E.map Prod.fst) : firstKey E ≤ k := by
  cases E with
  | nil => simp at hk
  | cons e l =>
    rw [firstKey_cons]
    rcases List.mem_cons.mp hk with rfl | hk
    · exact le_rfl
    · obtain ⟨x, hx, rfl⟩ := List.mem_map.mp hk
      exact (List.rel_of_pairwise_cons hs hx).le

omit [Inhabited V] in
theorem le_lastKey (hs : KeySorted E) {k : ℕ} (hk : k ∈ E.map Prod.fst) : k ≤ lastKey E := by
  induction E using List.reverseRecOn with
  | nil => simp at hk
  | append_singleton l e _ =>
    rw [lastKey_concat]
    rw [List.map_append, List.mem_append] at hk
    rcases hk with hk | hk
    · obtain ⟨x, hx, rfl⟩ := List.mem_map.mp hk
      exact ((List.pairwise_append.mp hs).2.2 x hx e (by simp)).le
    · rw [List.mem_map] at hk
      obtain ⟨x, hx, rfl⟩ := hk
      rw [List.mem_singleton.mp hx]

omit [Inhabited V] in
theorem div_eq_of_ends {d k : ℕ} (hs : KeySorted E) (hk : k ∈ E.map Prod.fst)
    (h : firstKey E / 256 ^ d = lastKey E / 256 ^ d) : k / 256 ^ d = firstKey E / 256 ^ d := by
  have h1 := Nat.div_le_div_right (c := 256 ^ d) (firstKey_le hs hk)
  have h2 := Nat.div_le_div_right (c := 256 ^ d) (le_lastKey hs hk)
  omega

theorem absorbDecode_eq (hkl : kb ≤ L) (hp : cols.Packed kb) :
    absorbDecode aux kb L cols.entries = entries L (leaf kb aux cols) := by
  rw [entries, absorbDecode]
  split_ifs with hlt
  · apply List.map_congr_left
    rintro ⟨k, v⟩ hm
    have hk := hp.bound k (Columns.mem_keys hm)
    rw [show 256 ^ kb = 2 ^ (8 * kb) by rw [Nat.pow_mul]] at hk ⊢
    rw [Nat.or_comm, ← Nat.shiftLeft_add_eq_or_of_lt hk, Nat.shiftLeft_eq]
    rfl
  · have : kb = L := by omega
    rw [this, slice_self, Nat.zero_mul, shift_zero]

variable (val) in
theorem overflowEntries_spec (h : Shape fl lo L (leaf kb aux cols))
    (hg : slice key kb L = slice aux kb L) (hn : low key kb ∉ cols.keys) :
    KeySorted (overflowEntries kb aux L key val cols) ∧
      (∀ k v, (k, v) ∈ overflowEntries kb aux L key val cols →
        k < 256 ^ L ∧ slice k kb L = slice aux kb L) ∧
      (overflowEntries kb aux L key val cols).length = cols.size + 1 ∧
      Updated (low key L) val (entries L (leaf kb aux cols))
        (overflowEntries kb aux L key val cols) := by
  rw [Shape] at h
  obtain ⟨-, hkl, -, hp, -⟩ := h
  have hp' := hp.insertAt (low_lt key kb) hn val
  have hsz := Columns.size_insertAt (c := cols) (k := low key kb) val
  rw [overflowEntries, absorbDecode_eq hkl hp']
  refine ⟨?_, ?_, ?_, ?_⟩
  · rw [entries]
    exact keySorted_shift hp'.keySorted
  · intro k v hm
    obtain ⟨hk, hsl, -⟩ := (mem_entries_leaf hkl hp').mp hm
    exact ⟨hk, hsl⟩
  · rw [entries, length_shift, Columns.length_entries, hsz]
  · rw [entries, entries, low_of_match hkl hg]
    exact updated_shift (Columns.updated_insertAt hn val)

/-- An overflow that returns: the contract follows from the new edge's entries and its path. -/
theorem insert_overflow {e' : Edge V} {path : Option InsertPath}
    (h : Shape fl lo L (leaf kb aux cols)) (hg : slice key kb L = slice aux kb L)
    (hn : low key kb ∉ cols.keys) (hfull : cols.size = leafCap kb) (hfuel : L ≤ fuel)
    (ho : leafOverflow fl (fun e k v => insertFlat fl keep fuel e k v L) kb aux
      (cols.insertAt (lowerBound cols.keys (low key kb)) (low key kb) val) key L = .ok (e', path))
    (hw : WF fl lo L e') (hnn : e' ≠ null)
    (he : entries L e' = overflowEntries kb aux L key val cols)
    (hpath : ∀ w, path = some w → Armed fl L (leaf kb aux cols) key val e' w) :
    ∃ slot, insertFlat fl keep (fuel + 1) (leaf kb aux cols) key val L = .ok ⟨e', none, slot, path⟩ ∧
      InsertSpec fl lo keep L (leaf kb aux cols) key val ⟨e', none, slot, path⟩ := by
  obtain ⟨-, -, -, hu⟩ := overflowEntries_spec val h hg hn
  have hs := h
  rw [Shape] at hs
  have hin : (low key L, val) ∈ entries L e' := by
    rw [he]
    exact (hu _ _).mpr (.inl ⟨rfl, rfl⟩)
  obtain ⟨slot, hslot, hent⟩ : ∃ slot, overflowSlot fl fuel e' key L = some slot ∧
      (fl = .map → slotEntry L e' slot.route slot.pos = some (low key L, val)) := by
    cases fl with
    | set => exact ⟨_, rfl, (by simp)⟩
    | map =>
      obtain ⟨slot, h1, h2⟩ := locateSlot_spec hw.1.readable rfl hfuel (by omega) hin
      exact ⟨slot, h1, fun _ => h2⟩
  refine ⟨slot, ?_, hw.1, fun _ => hw.2, hnn, ?_, ?_, ?_, hpath⟩
  · rw [insertFlat_leaf h hg, locate_of_not_mem hn]
    simp only [if_neg (show ¬ cols.size < leafCap kb by omega), ho, hslot]
  · intro v
    rw [mem_low_leaf h.readable]
    exact ⟨(by simp), fun hm => absurd (Columns.mem_keys hm.2) hn⟩
  · rw [stored_none, he]
    exact hu
  · intro hm
    rw [stored_none]
    exact hent hm

section Bitmap

variable (fl lo) in
theorem bitmap_of_entries {p aux' : ℕ} (hs : KeySorted E) (h1 : 1 ≤ L) (h7 : L ≤ 7)
    (hp : ∀ k v, (k, v) ∈ E → k = p * 256 ^ 1 + low k 1)
    (hdown : LEAFB1_DOWN ≤ E.length) (hpop : Aux.pop0 aux' 1 + 1 = E.length)
    (haux : slice aux' 1 L = p) :
    Shape fl lo L (leafB1 aux' (buildBitmapLeafSet E)) ∧
      entries L (leafB1 aux' (buildBitmapLeafSet E)) = E := by
  set E' := E.map fun e => (low e.1 1, e.2) with hE'
  have hshift : E = shift (p * 256 ^ 1) E' := by
    rw [shift, hE', List.map_map]
    conv_lhs => rw [← List.map_id E]
    apply List.map_congr_left
    rintro ⟨k, v⟩ hm
    simp only [id, Function.comp, Prod.mk.injEq, and_true]
    exact hp k v hm
  have hs' : KeySorted E' := by
    rw [hshift, shift, KeySorted, List.pairwise_map] at hs
    exact hs.imp fun hab => by simpa using hab
  have hb' : ∀ e ∈ E', e.1 < 256 := by
    intro e he
    obtain ⟨x, -, rfl⟩ := List.mem_map.mp he
    exact low_lt x.1 1
  have hok : (buildBitmapLeafSet E).Ok := Ranked.ofEntries_ok hs' hb'
  have hent : (buildBitmapLeafSet E).entries = E' := Ranked.entries_ofEntries hs' hb'
  have hcount : Bitmap.count (buildBitmapLeafSet E).bits = E.length := by
    rw [Bitmap.count, ← Ranked.entries_keys hok, List.length_map, hent, hE', List.length_map]
  constructor
  · rw [Shape, hcount]
    exact ⟨h1, h7, hok, hdown, hpop⟩
  · rw [entries, hent, haux]
    exact hshift.symm

omit [Inhabited V] in
theorem buildBitmapLeafMap_eq (hb : ∀ e ∈ E, e.1 < 256) :
    buildBitmapLeafMap E = .ok (buildBitmapLeafSet E) := by
  have hany : (E.any fun e => decide (8 ≤ e.1 / 32)) = false := by
    rw [List.any_eq_false]
    intro e he
    have := hb e he
    simp only [decide_eq_true_eq]
    omega
  have hmap : (E.map fun e => (low e.1 1, e.2)) = E := by
    conv_rhs => rw [← List.map_id E]
    apply List.map_congr_left
    intro e he
    rw [low_of_lt (by simpa using hb e he)]
    rfl
  rw [buildBitmapLeafMap, hany, buildBitmapLeafSet, hmap]
  rfl

omit [Inhabited V] in
theorem buildBitmapLeafMap_low :
    buildBitmapLeafMap (E.map fun e => (low e.1 1, e.2)) = .ok (buildBitmapLeafSet E) := by
  rw [buildBitmapLeafMap_eq, buildBitmapLeafSet, buildBitmapLeafSet, List.map_map]
  · congr 2
    apply List.map_congr_left
    intro e _
    simp only [Function.comp]
    rw [low_low le_rfl]
  · intro e he
    obtain ⟨x, -, rfl⟩ := List.mem_map.mp he
    exact low_lt x.1 1

/-- A fresh bitmap leaf's aux word: its population, under the skipped digits of `w`. -/
theorem bitmap_aux {w n aux' : ℕ} (hn : n < 256)
    (haux : aux' = setSlice (Aux.setPop0 0 1 n) 1 L (slice w 1 L)) (h1 : 1 ≤ L) :
    slice aux' 1 L = slice w 1 L ∧ Aux.pop0 aux' 1 = n := by
  rw [haux]
  constructor
  · rw [slice_setSlice h1, Nat.mod_eq_of_lt (slice_lt _ _ _)]
  · rw [Aux.pop0, low_setSlice_below h1 le_rfl]
    exact Aux.pop0_setPop0 (by simpa using hn)

theorem restoreDecode_slice {w n : ℕ} (hn : n < 256) (h1 : 1 ≤ L) :
    slice (Aux.restoreDecode (Aux.setPop0 0 1 n) 1 L w) 1 L = slice w 1 L ∧
      Aux.pop0 (Aux.restoreDecode (Aux.setPop0 0 1 n) 1 L w) 1 = n := by
  rw [Aux.restoreDecode]
  split_ifs with hlt
  · exact bitmap_aux hn rfl h1
  · have : L = 1 := by omega
    rw [this, slice_self, slice_self]
    exact ⟨rfl, Aux.pop0_setPop0 (by simpa using hn)⟩

variable (keep val) in
/-- A full byte-wide leaf becomes a bitmap leaf. A map panics here when the leaf skips digits that
are not all zero. -/
theorem insert_leaf1_overflow (h : Shape fl lo L (leaf 1 aux cols))
    (hg : slice key 1 L = slice aux 1 L) (hn : low key 1 ∉ cols.keys)
    (hfull : cols.size = leafCap 1) (hfuel : L ≤ fuel)
    (hsafe : fl = .map → slice key 1 L = 0) :
    ∃ aux' node slot path, insertFlat fl keep (fuel + 1) (leaf 1 aux cols) key val L =
        .ok ⟨leafB1 aux' node, none, slot, path⟩ ∧ (fl = .map → path = none) ∧
      InsertSpec fl lo keep L (leaf 1 aux cols) key val ⟨leafB1 aux' node, none, slot, path⟩ := by
  obtain ⟨hsort, hmem, hlen, -⟩ := overflowEntries_spec val h hg hn
  have hs := h
  rw [Shape] at hs
  obtain ⟨-, h1, h7, -⟩ := hs
  have hcap : leafCap 1 = 25 := rfl
  set E := overflowEntries 1 aux L key val cols with hE
  obtain ⟨haux, hpop⟩ := restoreDecode_slice (w := aux) (show E.length - 1 < 256 by omega) h1
  set aux' := Aux.restoreDecode (Aux.setPop0 0 1 (E.length - 1)) 1 L aux
  have hkeys : ∀ k v, (k, v) ∈ E → k = slice aux 1 L * 256 ^ 1 + low k 1 := by
    intro k v hm
    obtain ⟨hk, hsl⟩ := hmem k v hm
    rw [← hsl, ← low_eq_slice h1, low_of_lt hk]
  obtain ⟨hshape, hent⟩ := bitmap_of_entries fl lo hsort h1 h7 hkeys
    (by simp only [LEAFB1_DOWN]; omega) (by omega) haux
  set path := if fl = .map then none else
    if L = 1 then InsertPath.arm key .bitmap E.length else none with hpath
  have ho : leafOverflow fl (fun e k v => insertFlat fl keep fuel e k v L) 1 aux
      (cols.insertAt (lowerBound cols.keys (low key 1)) (low key 1) val) key L =
        .ok (leafB1 aux' (buildBitmapLeafSet E), path) := by
    unfold leafOverflow
    simp only
    rw [← overflowEntries, ← hE, if_neg (by omega)]
    cases fl with
    | set => simp [hpath, aux']
    | map =>
      have hb : ∀ e ∈ E, e.1 < 256 := by
        rintro ⟨k, v⟩ hm
        have := hkeys k v hm
        rw [← hg, hsafe rfl] at this
        have := low_lt k 1
        simp only
        omega
      simp [buildBitmapLeafMap_eq hb, hpath, aux']
  obtain ⟨slot, hins, hspec⟩ := insert_overflow h hg hn hfull hfuel ho ⟨hshape, trivial⟩ (by simp) hent (by
    intro w hw
    rw [hpath] at hw
    split at hw
    · cases hw
    · refine armed_here ?_ hw
      simp only [warmPop, hpop]
      congr 1
      omega)
  refine ⟨aux', buildBitmapLeafSet E, slot, path, hins, ?_, hspec⟩
  intro hm
  rw [hpath, if_pos hm]

/-- A full wide leaf whose keys differ in the last byte only becomes a narrow bitmap leaf. -/
theorem insert_leaf_overflow_bitmap (h : Shape fl lo L (leaf kb aux cols)) (h2 : 2 ≤ kb)
    (hg : slice key kb L = slice aux kb L) (hn : low key kb ∉ cols.keys)
    (hfull : cols.size = leafCap kb) (hfuel : L ≤ fuel)
    (hd : divergenceLevel (firstKey (overflowEntries kb aux L key val cols))
      (lastKey (overflowEntries kb aux L key val cols)) L = 1) :
    ∃ r, insertFlat fl keep (fuel + 1) (leaf kb aux cols) key val L = .ok r ∧
      InsertSpec fl lo keep L (leaf kb aux cols) key val r := by
  obtain ⟨hsort, hmem, hlen, -⟩ := overflowEntries_spec val h hg hn
  have hs := h
  rw [Shape] at hs
  obtain ⟨-, hkl, h7, -⟩ := hs
  have h1 : 1 ≤ L := by omega
  have hcap : leafCap kb = 32 := if_neg (by omega)
  set E := overflowEntries kb aux L key val cols with hE
  have hbound : ∀ k ∈ E.map Prod.fst, k < 256 ^ L := by
    intro k hk
    obtain ⟨⟨k, v⟩, hm, rfl⟩ := List.mem_map.mp hk
    exact (hmem k v hm).1
  have hne : E ≠ [] := List.ne_nil_of_length_pos (by omega)
  have hfirst := hbound _ (firstKey_mem hne)
  have hends : firstKey E / 256 ^ 1 = lastKey E / 256 ^ 1 := by
    by_cases heq : firstKey E = lastKey E
    · rw [heq]
    · have := (divergenceLevel_spec hfirst (hbound _ (lastKey_mem hne)) heq).2.2.1
      rwa [hd] at this
  obtain ⟨haux, hpop⟩ := bitmap_aux (w := firstKey E) (show E.length - 1 < 256 by omega) rfl h1
  set aux' := setSlice (Aux.setPop0 0 1 (E.length - 1)) 1 L (slice (firstKey E) 1 L)
  have hkeys : ∀ k v, (k, v) ∈ E → k = slice (firstKey E) 1 L * 256 ^ 1 + low k 1 := by
    intro k v hm
    have hk := List.mem_map_of_mem (f := Prod.fst) hm
    rw [slice_eq_div h1 hfirst, ← div_eq_of_ends hsort hk hends, low_div_add]
  obtain ⟨hshape, hent⟩ := bitmap_of_entries fl lo hsort h1 h7 hkeys
    (by simp only [LEAFB1_DOWN]; omega) (by omega) haux
  have ho : leafOverflow fl (fun e k v => insertFlat fl keep fuel e k v L) kb aux
      (cols.insertAt (lowerBound cols.keys (low key kb)) (low key kb) val) key L =
        .ok (leafB1 aux' (buildBitmapLeafSet E),
          if L = 1 then InsertPath.arm key .bitmap E.length else none) := by
    unfold leafOverflow
    simp only
    rw [← overflowEntries, ← hE, if_neg (by omega), if_neg (by omega)]
    rw [← firstKey, ← lastKey, hd, if_pos rfl]
    cases fl with
    | set => rfl
    | map =>
      rw [buildBitmapLeafMap_low]
      rfl
  obtain ⟨slot, hins, hspec⟩ := insert_overflow h hg hn hfull hfuel ho ⟨hshape, trivial⟩ (by simp) hent (by
    intro w hw
    refine armed_here ?_ hw
    simp only [warmPop, hpop]
    congr 1
    omega)
  exact ⟨_, hins, hspec⟩

end Bitmap

end Expanse.Edge
