import Expanse.Engine.BranchStep
import Expanse.Engine.Path

/-!
# What an insert leaves behind

`InsertSpec` is the contract of the insert descent on one slot. This module
proves it for the forms that absorb the key without restructuring: null slots,
immediates, leaves with room, bitmap leaves and full expanses.
-/

namespace Expanse

open Radix SortedAssoc

namespace SortedAssoc

variable {α : Type*} {l l' : List (ℕ × α)} {k : ℕ} {v : α}

theorem updated_self (hs : KeySorted l) (hm : (k, v) ∈ l) : Updated k v l l := by
  intro x w
  constructor
  · intro hx
    by_cases hk : x = k
    · subst hk
      exact .inl ⟨rfl, hs.value_unique hx hm⟩
    · exact .inr ⟨hk, hx⟩
  · rintro (⟨rfl, rfl⟩ | ⟨-, hx⟩)
    · exact hm
    · exact hx

end SortedAssoc

theorem Ranked.updated_of_get {α : Type*} {r r' : Ranked α} {d : ℕ} {v : α} (h : r.Ok) (h' : r'.Ok)
    (hg : ∀ x, r'.get x = if x = d then some v else r.get x) :
    Updated d v r.entries r'.entries := by
  intro x w
  rw [mem_entries h', mem_entries h, hg]
  split_ifs with hx <;> simp [hx, eq_comm]

namespace Edge

variable {V : Type}

theorem updated_shift {l l' : List (ℕ × V)} {k n : ℕ} {v : V} (h : Updated k v l l') :
    Updated (n + k) v (shift n l) (shift n l') := by
  intro x w
  rw [mem_shift, mem_shift]
  constructor
  · rintro ⟨y, hy, rfl⟩
    rcases (h y w).mp hy with ⟨rfl, rfl⟩ | ⟨hne, hy⟩
    · exact .inl ⟨rfl, rfl⟩
    · exact .inr ⟨by omega, y, hy, rfl⟩
  · rintro (⟨rfl, rfl⟩ | ⟨hne, y, hy, rfl⟩)
    · exact ⟨k, (h k w).mpr (.inl ⟨rfl, rfl⟩), rfl⟩
    · exact ⟨y, (h y w).mpr (.inr ⟨by omega, hy⟩), rfl⟩

theorem leafPos_eq_locate {keys : List ℕ} (hs : keys.Pairwise (· < ·)) (h1 : 1 ≤ keys.length)
    (k : ℕ) : leafPos keys keys.length k = locate keys k := by
  have hlast : keys[keys.length - 1]? = some (keys[keys.length - 1]) :=
    List.getElem?_eq_getElem (by omega)
  have hle : ∀ x ∈ keys, x ≤ keys[keys.length - 1] := by
    intro x hx
    obtain ⟨i, hi, rfl⟩ := List.getElem_of_mem hx
    rcases Nat.lt_or_ge i (keys.length - 1) with hlt | hge
    · exact (List.pairwise_iff_getElem.mp hs i (keys.length - 1) hi (by omega) hlt).le
    · have : i = keys.length - 1 := by omega
      subst this
      exact le_rfl
  unfold leafPos
  rw [hlast]
  simp only
  split_ifs with hlt heq
  -- past the last key: append
  · have hall : ∀ x ∈ keys, x < k := fun x hx => (hle x hx).trans_lt hlt
    have hn : k ∉ keys := fun hk => absurd (hall k hk) (lt_irrefl k)
    rw [locate_of_not_mem hn, lowerBound_of_all_lt hall]
  -- the last key itself
  · have hm : k ∈ keys := heq ▸ List.getElem_mem _
    rw [locate_of_mem hs hm]
    congr 1
    have hat := getElem?_lowerBound hs hm
    rw [heq] at hat ⊢
    obtain ⟨hb, he⟩ := List.getElem?_eq_some_iff.mp hat
    have hnd : keys.Nodup := hs.imp Nat.ne_of_lt
    exact (hnd.getElem_inj_iff.mp he).symm
  · rfl

variable [Inhabited V] {fl : Flavour} {lo : ℕ → ℕ → ℕ} {L fuel key : ℕ} {keep : Bool} {val : V}

/-- The value left at the key: a present one stays when the insert keeps. -/
def stored (keep : Bool) (old : Option V) (val : V) : V := if keep then old.getD val else val

omit [Inhabited V] in
@[simp] theorem stored_none : stored keep none val = val := by
  cases keep <;> rfl

/-- The keys of a leaf that overflows on `key`, as the overflow arm collects them. -/
def overflowEntries (kb aux M key : ℕ) (val : V) (cols : Columns V) : List (ℕ × V) :=
  absorbDecode aux kb M (cols.insertAt (lowerBound cols.keys (low key kb)) (low key kb) val).entries

def firstKey (l : List (ℕ × V)) : ℕ := (l.head?.map Prod.fst).getD 0

def lastKey (l : List (ℕ × V)) : ℕ := (l.getLast?.map Prod.fst).getD 0

/-- The size of the last run of keys that differ in their low byte only. -/
def lastGroup (l : List (ℕ × V)) : ℕ := (l.filter fun e => e.1 / 256 = lastKey l / 256).length

/-- Re-inserting the keys of an overflowing leaf in a slot at level `M` leaves the insert path
armed: they part at level 2, and the last group grows past an immediate and then once more. A map
that promotes the group to a bitmap leaf with its very last key arms nothing. -/
def ArmsTruncated (fl : Flavour) (L : ℕ) (e : Edge V) (key : ℕ) (val : V) (M : ℕ) : Prop :=
  ∃ kb aux cols, terminal L e key = (M, leaf kb aux cols) ∧ 2 ≤ kb ∧
    slice key kb M = slice aux kb M ∧ cols.size = LEAF_CAP ∧ low key kb ∉ cols.keys ∧
    divergenceLevel (firstKey (overflowEntries kb aux M key val cols))
      (lastKey (overflowEntries kb aux M key val cols)) M = 2 ∧
    fl.immedMax 1 + 2 ≤ lastGroup (overflowEntries kb aux M key val cols) ∧
    (fl = .map → lastGroup (overflowEntries kb aux M key val cols) ≠ LEAF1_CAP + 1)

/-- What an armed insert path refers to: a level-1 leaf, under the key bits the path stores. -/
structure Armed (fl : Flavour) (L : ℕ) (e : Edge V) (key : ℕ) (val : V) (edge : Edge V)
    (w : InsertPath) : Prop where
  pending : w.pendingPop = 0
  leads : ∃ u t, resolve L edge w.route = some (u, t) ∧ warmPop w.leaf t = some w.terminalPop ∧
    (u = low key L / 256 ∧ w.keyPrefix = key / 256 ∨
      ∃ M, ArmsTruncated fl L e key val M ∧ u = slice key M L * 256 ^ (M - 1) + w.keyPrefix)

/-- The contract of an insert into one slot. -/
structure InsertSpec (fl : Flavour) (lo : ℕ → ℕ → ℕ) (keep : Bool) (L : ℕ) (e : Edge V) (key : ℕ)
    (val : V) (r : Inserted V) : Prop where
  shape : Shape fl lo L r.edge
  exact : Exact L e → Exact L r.edge
  nonnull : r.edge ≠ null
  old : ∀ v, r.old = some v ↔ (low key L, v) ∈ entries L e
  content : Updated (low key L) (stored keep r.old val) (entries L e) (entries L r.edge)
  slot : fl = .map →
    slotEntry L r.edge r.slot.route r.slot.pos = some (low key L, stored keep r.old val)
  path : ∀ w, r.path = some w → Armed fl L e key val r.edge w

/-- Every slot level admits at least the leaves that outgrow an immediate. -/
def Admits (fl : Flavour) (lo : ℕ → ℕ → ℕ) : Prop :=
  ∀ L, 1 ≤ L → L ≤ 7 → lo L L ≤ fl.immedMax L

theorem immedMax_pos (fl : Flavour) {kb : ℕ} (h1 : 1 ≤ kb) (h7 : kb ≤ 7) : 1 ≤ fl.immedMax kb := by
  cases fl <;> simp only [Flavour.immedMax, IMMED_PAYLOAD_BYTES] <;> interval_cases kb <;> decide

theorem immedMax_lt_leafCap (fl : Flavour) {kb : ℕ} (h1 : 1 ≤ kb) (h7 : kb ≤ 7) :
    fl.immedMax kb < leafCap kb := by
  cases fl <;> simp only [Flavour.immedMax, IMMED_PAYLOAD_BYTES] <;> interval_cases kb <;> decide

theorem leafCap_le (kb : ℕ) : leafCap kb ≤ 32 := by
  unfold leafCap
  split_ifs <;> decide

/-- Populations of packed forms fit in any population field. -/
theorem small_lt_pow {n l : ℕ} (hn : n ≤ 255) (hl : 1 ≤ l) : n < 256 ^ l :=
  lt_of_lt_of_le (Nat.lt_succ_of_le hn) (Nat.le_self_pow (by omega) 256)

section Columns

variable {kb k pos : ℕ} {cols : Columns V}

/-- The columns after an insert that found its key. -/
def rebind (keep : Bool) (cols : Columns V) (pos : ℕ) (val : V) : Columns V :=
  if keep then cols else cols.setVal pos val

variable (keep val) in
omit [Inhabited V] in
theorem rebind_spec (hp : cols.Packed kb) (hk : cols.keys[pos]? = some k) :
    ∃ old, cols.vals[pos]? = some old ∧ (k, old) ∈ cols.entries ∧
      Updated k (stored keep (some old) val) cols.entries (rebind keep cols pos val).entries ∧
      (rebind keep cols pos val).entries[pos]? = some (k, stored keep (some old) val) ∧
      (rebind keep cols pos val).Packed kb ∧ (rebind keep cols pos val).size = cols.size := by
  obtain ⟨old, hv, he⟩ := Columns.exists_val hk
  have hm := List.mem_of_getElem? he
  refine ⟨old, hv, hm, ?_⟩
  cases keep with
  | true => exact ⟨updated_self hp.keySorted hm, he, hp, rfl⟩
  | false =>
    refine ⟨Columns.updated_setVal hp hk val, ?_, hp.setVal pos val, rfl⟩
    have hlt := (List.getElem?_eq_some_iff.mp hv).1
    exact Columns.getElem?_entries (c := cols.setVal pos val) hk (by simp [Columns.setVal, hlt, stored])

variable (cols val) in
omit [Inhabited V] in
theorem getElem?_insertAt :
    (cols.insertAt (lowerBound cols.keys k) k val).entries[lowerBound cols.keys k]? =
      some (k, val) := by
  have hle := lowerBound_le cols.keys k
  rw [Columns.entries_insertAt, List.getElem?_insertIdx_self, if_pos]
  rw [Columns.length_entries]
  exact hle

end Columns

variable (fl lo fuel key keep val) in
theorem insert_null (h1 : 1 ≤ L) (h7 : L ≤ 7) :
    ∃ r, insertFlat fl keep (fuel + 1) null key val L = .ok r ∧
      InsertSpec fl lo keep L null key val r := by
  refine ⟨⟨immed L (Columns.single (low key L) val), none, ⟨[], .index 0⟩, none⟩, ?_, ?_⟩
  · rw [insertFlat]
    simp only [if_neg (show ¬ L = 8 by omega)]
  · refine ⟨?_, fun _ => trivial, (by simp), ?_, ?_, ?_, (by simp)⟩
    · rw [Shape]
      exact ⟨rfl, h1, h7, Columns.packed_single (low_lt key L) val,
        by simp [Columns.single, Columns.size], immedMax_pos fl h1 h7⟩
    · simp [entries]
    · intro x w
      simp [entries, stored]
    · intro _
      simp [slotEntry, stored]

variable (fuel key keep val) in
/-- The two immediate outcomes of a growing immediate share their columns. -/
theorem insert_immed {kb : ℕ} {cols : Columns V} (h : Shape fl lo L (immed kb cols))
    (ha : Admits fl lo) :
    ∃ r, insertFlat fl keep (fuel + 1) (immed kb cols) key val L = .ok r ∧
      InsertSpec fl lo keep L (immed kb cols) key val r := by
  have hs := h
  rw [Shape] at hs
  obtain ⟨rfl, h1, h7, hp, hn1, hmax⟩ := hs
  rw [insertFlat]
  cases hl : locate cols.keys (low key kb) with
  | ok pos =>
    obtain ⟨old, hv, hm, hu, hat, hp', hsz⟩ := rebind_spec keep val hp (locate_ok hl)
    have he : (if keep then immed kb cols else immed kb (cols.setVal pos val)) =
        immed kb (rebind keep cols pos val) := by
      unfold rebind
      split <;> rfl
    refine ⟨_, rfl, ?_, fun _ => ?_, ?_, ?_, ?_, ?_, (by simp)⟩ <;> simp only [he, hv]
    · rw [Shape]
      exact ⟨rfl, h1, h7, hp', by omega, by omega⟩
    · trivial
    · simp
    · intro v
      rw [entries]
      refine ⟨?_, fun hm' => ?_⟩
      · rintro ⟨⟩
        exact hm
      · rw [hp.keySorted.value_unique hm' hm]
    · rw [entries, entries]
      exact hu
    · intro _
      exact hat
  | error pos =>
    obtain ⟨hn, rfl⟩ := locate_error hp.sorted hl
    have hp' := hp.insertAt (low_lt key kb) hn val
    have hu := Columns.updated_insertAt hn val
    have hsz := Columns.size_insertAt (c := cols) (k := low key kb) val
    have hold : ∀ v, none = some v ↔ (low key kb, v) ∈ entries kb (immed kb cols) := by
      intro v
      rw [entries]
      exact ⟨(by simp), fun hm => absurd (Columns.mem_keys hm) hn⟩
    simp only
    split_ifs with hlt
    · refine ⟨_, rfl, ?_, fun _ => trivial, (by simp), hold, ?_, ?_, (by simp)⟩
      · rw [Shape]
        exact ⟨rfl, h1, h7, hp', by omega, by omega⟩
      · rw [entries, entries]
        simpa [stored] using hu
      · intro _
        simpa [slotEntry, stored] using getElem?_insertAt val cols
    -- the immediate is full: its keys move to a leaf
    · have hcap := immedMax_lt_leafCap fl h1 h7
      have hlo := ha kb h1 h7
      refine ⟨_, rfl, ?_, fun _ => trivial, (by simp), hold, ?_, ?_, (by simp)⟩
      · rw [Shape]
        refine ⟨h1, le_rfl, h7, hp', by omega, by omega, ?_, by omega⟩
        rw [Aux.pop0_setPop0, hsz]
        have := leafCap_le kb
        exact small_lt_pow (by omega) h1
      · rw [entries, entries, slice_self, Nat.zero_mul, shift_zero]
        simpa [stored] using hu
      · intro _
        have := getElem?_insertAt val cols (k := low key kb)
        simp only [slotEntry, slice_self, this, stored]
        simp

theorem insert_fullExpanse {aux : ℕ} (h : Shape .set lo L (fullExpanse aux : Edge V))
    (hV : ∀ v : V, v = default) :
    ∃ r, insertFlat .set keep (fuel + 1) (fullExpanse aux) key val L = .ok r ∧
      InsertSpec .set lo keep L (fullExpanse aux) key val r := by
  refine ⟨⟨fullExpanse aux, some default, ⟨[], .index 0⟩, none⟩, by rw [insertFlat], ?_⟩
  refine ⟨h, fun _ => trivial, (by simp), ?_, ?_, (by simp), (by simp)⟩
  · intro v
    rw [mem_entries_full]
    simp [low_lt, eq_comm]
  · rw [hV (stored _ _ _)]
    exact updated_self h.sorted (mem_entries_full.mpr ⟨low_lt _ _, rfl⟩)

theorem low_one (k : ℕ) : low k 1 = digit k 1 := by simp [low, digit]

/-- A key below a matching narrow or full-width level-1 node. -/
theorem low_of_match {aux m : ℕ} (hm : m ≤ L) (hg : slice key m L = slice aux m L) :
    low key L = slice aux m L * 256 ^ m + low key m := by
  rw [← hg, ← low_eq_slice hm]

omit [Inhabited V] in
theorem armed_here {e edge : Edge V} {leaf : WarmLeaf} {pop : ℕ}
    (hw : warmPop leaf edge = some pop) {w : InsertPath}
    (h : (if L = 1 then InsertPath.arm key leaf pop else none) = some w) :
    Armed fl L e key val edge w := by
  split_ifs at h with hL
  cases h
  subst hL
  refine ⟨rfl, 0, edge, by simp [resolve], hw, .inl ⟨?_, rfl⟩⟩
  have := low_lt key 1
  omega

variable (fuel keep val) in
theorem insert_leafB1 {aux : ℕ} {node : Ranked V} (h : Shape fl lo L (leafB1 aux node))
    (hg : slice key 1 L = slice aux 1 L) (hV : fl = .set → ∀ v : V, v = default) :
    ∃ r, insertFlat fl keep (fuel + 1) (leafB1 aux node) key val L = .ok r ∧
      InsertSpec fl lo keep L (leafB1 aux node) key val r := by
  have hs := h
  rw [Shape] at hs
  obtain ⟨h1, h7, hok, hdown, hpop⟩ := hs
  have hkey := low_of_match h1 hg
  have hmem := fun v => mem_low_leafB1 (v := v) (k := key) h.readable
  rw [insertFlat]
  simp only [(Aux.decode_guard h1).mpr hg, Bool.false_eq_true, if_false]
  cases hget : node.get (digit key 1) with
  | some old =>
    have hb := (Ranked.get_isSome hok).mp (by rw [hget]; rfl)
    set node' := if keep then node else node.set (digit key 1) val with hnode'
    have he : (if keep then leafB1 aux node else leafB1 aux (node.set (digit key 1) val)) =
        leafB1 aux node' := by
      rw [hnode']
      split <;> rfl
    have hok' : node'.Ok := by
      rw [hnode']
      split
      · exact hok
      · exact Ranked.set_ok hok (digit_lt _ _) val
    have hget' : ∀ x, node'.get x = if x = digit key 1 then some (stored keep (some old) val)
        else node.get x := by
      intro x
      cases keep with
      | true =>
        simp only [hnode', if_true, stored]
        split_ifs with hx
        · rw [hx, hget]
          rfl
        · rfl
      | false => simp [hnode', Ranked.get_set hok hb, stored]
    have hbits : node'.bits = node.bits := by
      rw [hnode']
      split <;> rfl
    refine ⟨_, rfl, ?_, fun _ => ?_, ?_, ?_, ?_, ?_, (by simp)⟩ <;> simp only [he]
    · rw [Shape, hbits]
      exact ⟨h1, h7, hok', hdown, hpop⟩
    · trivial
    · simp
    · intro v
      rw [hmem, hget]
      simp [hg]
    · rw [entries, entries, hkey, low_one]
      exact updated_shift (Ranked.updated_of_get hok hok' hget')
    · intro _
      have hrow := row_bitmapPos hok' (by rw [hget', if_pos rfl])
      rw [hbits] at hrow
      simp only [bitmapPos, slotEntry, hrow, hkey, low_one, Option.map_some]
  | none =>
    have hb : node.bits.testBit (digit key 1) = false := by
      rw [← Bool.not_eq_true, ← Ranked.get_isSome hok, hget]
      simp
    have hok' := Ranked.insert_ok hok (digit_lt key 1) hb val
    have hget' := Ranked.get_insert hok (digit_lt key 1) hb val
    have hcount : Bitmap.count (node.insert (digit key 1) val).bits = Bitmap.count node.bits + 1 :=
      Bitmap.count_set hb (digit_lt key 1)
    have hold : ∀ v, none = some v ↔ (low key L, v) ∈ entries L (leafB1 aux node) := by
      intro v
      rw [hmem, hget]
      simp
    have hu : Updated (low key L) val (entries L (leafB1 aux node))
        (entries L (leafB1 aux (node.insert (digit key 1) val))) := by
      rw [entries, entries, hkey, low_one]
      exact updated_shift (Ranked.updated_of_get hok hok' hget')
    have hle : Bitmap.count (node.insert (digit key 1) val).bits ≤ 256 := Bitmap.count_le _
    simp only
    by_cases hfull : fl = .set ∧ Aux.pop0 aux 1 + 2 = 256 ∧ L = 1
    -- the last absent digit: a full expanse
    · obtain ⟨rfl, hp, rfl⟩ := hfull
      rw [if_pos ⟨rfl, hp, rfl⟩]
      refine ⟨_, rfl, ?_, fun _ => trivial, (by simp), hold, ?_, (by simp), (by simp)⟩
      · rw [Shape]
        exact ⟨rfl, rfl, Aux.pop0_setPop0 (by decide)⟩
      · rw [stored_none]
        intro x w
        rw [mem_entries_full, ← hu x w, mem_entries_leafB1 le_rfl hok', slice_self, slice_self]
        -- every digit is present, and a set has one value
        have hall : ∀ y, y < 256 → (node.insert (digit key 1) val).get y = some default := by
          intro y hy
          have hy' := (Ranked.get_isSome hok').mpr
            (Bitmap.testBit_of_count (by omega) hy)
          obtain ⟨v, hv⟩ := Option.isSome_iff_exists.mp hy'
          rw [hv, hV rfl v]
        have hlow := low_lt x 1
        rw [hall _ (by simpa using hlow)]
        simp [eq_comm]
    · rw [if_neg hfull]
      have haux : slice (Aux.setPop0 aux 1 (Aux.pop0 aux 1 + 2 - 1)) 1 L = slice aux 1 L :=
        Aux.slice_setPop0 le_rfl
      have hp0 : Aux.pop0 (Aux.setPop0 aux 1 (Aux.pop0 aux 1 + 2 - 1)) 1 = Aux.pop0 aux 1 + 1 :=
        Aux.pop0_setPop0 (by simp only [pow_one]; omega)
      refine ⟨_, rfl, ?_, fun _ => trivial, (by simp), hold, ?_, ?_, ?_⟩
      · rw [Shape]
        exact ⟨h1, h7, hok', by omega, by omega⟩
      · rw [show entries L (leafB1 _ (node.insert (digit key 1) val)) =
          entries L (leafB1 aux (node.insert (digit key 1) val)) by rw [entries, entries, haux]]
        rw [stored_none]
        exact hu
      · intro _
        have hrow := row_bitmapPos hok' (by rw [hget', if_pos rfl])
        rw [show (node.insert (digit key 1) val).bits = Bitmap.set node.bits (digit key 1) from rfl,
          Bitmap.subexpanseRank_set] at hrow
        simp only [bitmapPos, slotEntry, hrow, haux, hkey, low_one, Option.map_some, stored_none]
      · intro w hw
        exact armed_here (by simp only [warmPop, hp0]) hw

section Leaf

variable {kb aux : ℕ} {cols : Columns V}

/-- The unrolled start of the leaf arm: the append fast path and the search agree. -/
theorem insertFlat_leaf (h : Shape fl lo L (leaf kb aux cols))
    (hg : slice key kb L = slice aux kb L) :
    insertFlat fl keep (fuel + 1) (leaf kb aux cols) key val L =
      match locate cols.keys (low key kb) with
      | .ok pos =>
        .ok ⟨if keep then leaf kb aux cols else leaf kb aux (cols.setVal pos val), cols.vals[pos]?,
          ⟨[], .index pos⟩, none⟩
      | .error pos =>
        if cols.size < leafCap kb then
          .ok ⟨leaf kb (Aux.setPop0 aux kb cols.size) (cols.insertAt pos (low key kb) val), none,
            ⟨[], .index pos⟩,
            if kb = 1 ∧ L = 1 then InsertPath.arm key .leaf1 (cols.size + 1) else none⟩
        else
          match leafOverflow fl (fun e k v => insertFlat fl keep fuel e k v L) kb aux
            (cols.insertAt pos (low key kb) val) key L with
          | .ok (e', path) =>
            match overflowSlot fl fuel e' key L with
            | some slot => .ok ⟨e', none, slot, path⟩
            | none => .error .unreachable
          | .error f => .error f := by
  rw [Shape] at h
  obtain ⟨-, hkl, -, hp, hn1, -, hpop, -⟩ := h
  rw [insertFlat]
  simp only [(Aux.decode_guard hkl).mpr hg, Bool.false_eq_true, if_false, hpop]
  rewrite [show cols.size = cols.keys.length from rfl, leafPos_eq_locate hp.sorted hn1]
  rfl

variable (fuel keep val) in
theorem insert_leaf (h : Shape fl lo L (leaf kb aux cols)) (hg : slice key kb L = slice aux kb L)
    (hroom : low key kb ∈ cols.keys ∨ cols.size < leafCap kb) :
    ∃ r, insertFlat fl keep (fuel + 1) (leaf kb aux cols) key val L = .ok r ∧
      InsertSpec fl lo keep L (leaf kb aux cols) key val r := by
  rw [insertFlat_leaf h hg]
  have hmem := fun v => mem_low_leaf (v := v) (k := key) h.readable
  have hs := h
  rw [Shape] at hs
  obtain ⟨h1, hkl, h7, hp, hn1, hcap, hpop, hlo⟩ := hs
  have hkey := low_of_match hkl hg
  cases hl : locate cols.keys (low key kb) with
  | ok pos =>
    obtain ⟨old, hv, hm, hu, hat, hp', hsz⟩ := rebind_spec keep val hp (locate_ok hl)
    have he : (if keep then leaf kb aux cols else leaf kb aux (cols.setVal pos val)) =
        leaf kb aux (rebind keep cols pos val) := by
      unfold rebind
      split <;> rfl
    refine ⟨_, rfl, ?_, fun _ => ?_, ?_, ?_, ?_, ?_, (by simp)⟩ <;> simp only [he, hv]
    · rw [Shape]
      exact ⟨h1, hkl, h7, hp', by omega, by omega, by omega, by omega⟩
    · trivial
    · simp
    · intro v
      rw [hmem]
      refine ⟨?_, fun hm' => ?_⟩
      · rintro ⟨⟩
        exact ⟨hg, hm⟩
      · rw [hp.keySorted.value_unique hm'.2 hm]
    · rw [entries, entries, hkey]
      exact updated_shift hu
    · intro _
      simp only [slotEntry, hat, hkey, Option.map_some]
  | error pos =>
    obtain ⟨hn, rfl⟩ := locate_error hp.sorted hl
    have hlt : cols.size < leafCap kb := hroom.resolve_left hn
    have hp' := hp.insertAt (low_lt key kb) hn val
    have hsz := Columns.size_insertAt (c := cols) (k := low key kb) val
    have hslice : slice (Aux.setPop0 aux kb cols.size) kb L = slice aux kb L :=
      Aux.slice_setPop0 le_rfl
    have hp0 : Aux.pop0 (Aux.setPop0 aux kb cols.size) kb = cols.size := by
      have := leafCap_le kb
      exact Aux.pop0_setPop0 (small_lt_pow (by omega) h1)
    simp only [if_pos hlt]
    refine ⟨_, rfl, ?_, fun _ => trivial, (by simp), ?_, ?_, ?_, ?_⟩
    · rw [Shape]
      exact ⟨h1, hkl, h7, hp', by omega, by omega, by omega, by omega⟩
    · intro v
      rw [hmem]
      exact ⟨(by simp), fun hm => absurd (Columns.mem_keys hm.2) hn⟩
    · rw [entries, entries, hslice, hkey, stored_none]
      exact updated_shift (Columns.updated_insertAt hn val)
    · intro _
      simp only [slotEntry, getElem?_insertAt, hslice, hkey, Option.map_some, stored_none]
    · intro w hw
      by_cases hk1 : kb = 1
      · subst hk1
        simp only [true_and] at hw
        exact armed_here (by simp only [warmPop, hp0]) hw
      · simp [hk1] at hw

end Leaf

end Edge

end Expanse
