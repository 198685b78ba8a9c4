import Expanse.Library.Puts
import Expanse.Trie32.Bitmap
import Expanse.Trie32.Owned

/-!
# What the bitmap edits do

A bitmap node is determined by the entries it stores: its bitmap, its populations and its
subarrays with their filler are functions of the entry list. Inserting, overwriting and
removing a digit turns the node of a list into the node of the edited list, in either
walk, with the byte difference that the arena adds.
-/

namespace Expanse.Trie32

open Arrays Bitmap SortedAssoc

variable {α : Type} {shared : Bool} {d i n : ℕ} {x filler : α} {l l₁ l₂ : List (ℕ × α)} {items : List α}

theorem wordWidth_pos (shared : Bool) : 0 < wordWidth shared := by
  cases shared with
  | true => decide
  | false => decide

@[simp] theorem testDigit_eq (shared : Bool) (bits d : ℕ) : testDigit shared bits d = bits.testBit d :=
  testBit_field_digit (wordWidth_pos shared) bits d

@[simp] theorem setDigit_eq (shared : Bool) (bits d : ℕ) : setDigit shared bits d = set bits d :=
  storeField_set (wordWidth_pos shared) bits d

@[simp] theorem clearDigit_eq (shared : Bool) (bits d : ℕ) : clearDigit shared bits d = clear bits d :=
  storeField_clear (wordWidth_pos shared) bits d

@[simp] theorem digitRank_eq (shared : Bool) (bits d : ℕ) :
    digitRank shared bits d = subexpanseRank bits d := by
  cases shared with
  | true => exact popcount_half bits d
  | false => exact popcount_word bits d

@[simp] theorem digitPop_eq (shared : Bool) (bits d : ℕ) :
    digitPop shared bits d = (subDigits bits (d / 32)).length := by
  cases shared with
  | true => exact popcount_field bits (d / 32)
  | false =>
    rw [digitPop, if_neg (by decide), bitmapSubPop, ← popcount_field, ← field_field]
    rfl

@[simp] theorem testBit_bitsOf (keys : List ℕ) (d : ℕ) : (bitsOf keys).testBit d = decide (d ∈ keys) := by
  have hgen : ∀ b, (keys.foldl Bitmap.set b).testBit d = (b.testBit d || decide (d ∈ keys)) := by
    induction keys with
    | nil => simp
    | cons k keys ih =>
      intro b
      rw [List.foldl_cons, ih, testBit_set, Bool.or_assoc]
      congr 1
      rw [Bool.eq_iff_iff, Bool.or_eq_true, decide_eq_true_eq, decide_eq_true_eq, decide_eq_true_eq,
        List.mem_cons, eq_comm]
  rw [bitsOf, hgen, Nat.zero_testBit, Bool.false_or]

theorem digits_bitsOf {keys : List ℕ} (hs : keys.Pairwise (· < ·)) (hb : ∀ k ∈ keys, k < 256) :
    digits (bitsOf keys) = keys := by
  apply pairwise_lt_ext (digits_sorted _) hs
  intro x
  rw [mem_digits, testBit_bitsOf, decide_eq_true_eq]
  exact ⟨fun h => h.2, fun h => ⟨hb x h, h⟩⟩

theorem subDigits_bitsOf (hs : KeySorted l) (i : ℕ) :
    subDigits (bitsOf (l.map Prod.fst)) i = (l.filter fun e => e.1 / 32 = i).map Prod.fst := by
  apply pairwise_lt_ext (subDigits_sorted _ _) (keySorted_iff.mp (hs.filter _))
  intro x
  rw [mem_subDigits, testBit_bitsOf, decide_eq_true_eq]
  simp only [List.mem_map, List.mem_filter, decide_eq_true_eq]
  constructor
  · rintro ⟨hx, e, he, rfl⟩
    exact ⟨e, ⟨he, hx⟩, rfl⟩
  · rintro ⟨e, ⟨he, hx⟩, rfl⟩
    exact ⟨hx, e, he, rfl⟩

theorem length_row_eq (hs : KeySorted l) (d : ℕ) :
    (subDigits (bitsOf (l.map Prod.fst)) (d / 32)).length = (row l (d / 32)).length := by
  rw [subDigits_bitsOf hs, List.length_map, row, List.length_map]

/-- The rank of a digit counts the items of its row below it. -/
theorem rank_eq (hs : KeySorted (l₁ ++ l₂)) (h₁ : ∀ e ∈ l₁, e.1 < d) (h₂ : ∀ e ∈ l₂, d ≤ e.1) :
    subexpanseRank (bitsOf ((l₁ ++ l₂).map Prod.fst)) d = (row l₁ (d / 32)).length := by
  have hkeys : (List.range' (32 * (d / 32)) (d % 32)).filter
      (bitsOf ((l₁ ++ l₂).map Prod.fst)).testBit = (l₁.filter fun e => e.1 / 32 = d / 32).map Prod.fst := by
    apply pairwise_lt_ext (List.Pairwise.sublist List.filter_sublist (List.pairwise_lt_range' 1))
      (keySorted_iff.mp (hs.of_append.1.filter _))
    intro x
    simp only [List.mem_filter, List.mem_range'_1, testBit_bitsOf, decide_eq_true_eq, List.mem_map,
      List.mem_append]
    constructor
    · rintro ⟨hx, e, he, rfl⟩
      have hlt : e.1 < d := by omega
      rcases he with he | he
      · exact ⟨e, ⟨he, by omega⟩, rfl⟩
      · exact absurd (h₂ e he) (by omega)
    · rintro ⟨e, ⟨he, hx⟩, rfl⟩
      have := h₁ e he
      exact ⟨by omega, e, .inl he, rfl⟩
  rw [subexpanseRank, hkeys, List.length_map, row, List.length_map]

theorem row_append (l₁ l₂ : List (ℕ × α)) (i : ℕ) : row (l₁ ++ l₂) i = row l₁ i ++ row l₂ i := by
  rw [row, List.filter_append, List.map_append, row, row]

theorem row_cons_self (x : α) (l : List (ℕ × α)) (d : ℕ) :
    row ((d, x) :: l) (d / 32) = x :: row l (d / 32) := by
  simp [row]

theorem row_cons_ne (h : i ≠ d / 32) : row ((d, x) :: l) i = row l i := by
  simp [row, Ne.symm h]

theorem getElem?_subsOf (hi : i < 8) : (subsOf filler l)[i]? = some (packSub filler (row l i)) := by
  rw [subsOf, List.getElem?_map, List.getElem?_range hi]
  rfl

theorem getD_subsOf (hd : d < 256) :
    (subsOf filler l).getD (d / 32) none = packSub filler (row l (d / 32)) := by
  rw [List.getD_eq_getElem?_getD, getElem?_subsOf (by omega)]
  rfl

theorem set_subsOf {l' : List (ℕ × α)} (hrow : ∀ i, i ≠ d / 32 → row l' i = row l i) :
    (subsOf filler l).set (d / 32) (packSub filler (row l' (d / 32))) = subsOf filler l' := by
  apply List.ext_getElem?
  intro m
  rw [List.getElem?_set]
  by_cases hm : m < 8
  · by_cases he : d / 32 = m
    · subst he
      rw [if_pos rfl, if_pos (by simpa [subsOf] using hm), getElem?_subsOf hm]
    · rw [if_neg he, getElem?_subsOf hm, getElem?_subsOf hm, hrow m (Ne.symm he)]
  · have h1 : (subsOf filler l)[m]? = none := List.getElem?_eq_none (by simpa [subsOf] using hm)
    have h2 : (subsOf filler l')[m]? = none := List.getElem?_eq_none (by simpa [subsOf] using hm)
    have hl : (subsOf filler l).length = 8 := by simp [subsOf]
    by_cases he : d / 32 = m
    · rw [if_pos he, if_neg (by omega), h2]
    · rw [if_neg he, h1, h2]

theorem length_packSub (filler : α) (items : List α) :
    ((packSub filler items).getD []).length = capClass items.length := by
  unfold packSub
  split_ifs with h
  · rw [h]
    rfl
  · have := le_capClass items.length
    simp only [Option.getD_some, resize, List.length_append, List.length_take, List.length_replicate]
    omega

theorem sum_modify (f : ℕ → ℤ) (g : ℕ → ℤ) (hi : i < n) (h : ∀ j, j ≠ i → g j = f j) :
    ((List.range n).map g).sum = ((List.range n).map f).sum + (g i - f i) := by
  induction n with
  | zero => omega
  | succ n ih =>
    rw [List.range_succ, List.map_append, List.map_append, List.sum_append, List.sum_append]
    by_cases hn : i = n
    · subst hn
      have he : (List.range i).map g = (List.range i).map f :=
        List.map_congr_left fun j hj => h j (by have := List.mem_range.mp hj; omega)
      rw [he]
      simp
    · rw [ih (by omega), List.map_singleton, List.map_singleton, h n (Ne.symm hn)]
      ring

theorem subBytes_subsOf {l' : List (ℕ × α)} (size : ℕ) (hd : d < 256)
    (hrow : ∀ i, i ≠ d / 32 → row l' i = row l i) :
    (subBytes size (subsOf filler l') : ℤ) = subBytes size (subsOf filler l) +
      subarrayBytesDelta size (row l (d / 32)).length (row l' (d / 32)).length := by
  have hsum : ∀ k : List (ℕ × α), (subBytes size (subsOf filler k) : ℤ) =
      ((List.range 8).map fun i => ((capClass (row k i).length * size : ℕ) : ℤ)).sum := by
    intro k
    rw [subBytes, subsOf, List.map_map, Nat.cast_list_sum, List.map_map]
    congr 1
    apply List.map_congr_left
    intro i _
    simp only [Function.comp, length_packSub]
  rw [hsum, hsum, sum_modify (fun i => ((capClass (row l i).length * size : ℕ) : ℤ)) _
    (show d / 32 < 8 by omega) fun j hj => by rw [hrow j hj]]
  rw [subarrayBytesDelta]
  push_cast
  ring

theorem resize_eq (h : items.length ≤ n) :
    resize n filler items = items ++ List.replicate (n - items.length) filler := by
  rw [resize, List.take_of_length_le h]

/-- Two arrays with the same live items and the same rest. -/
theorem eq_of_take_drop {as bs : List α} (ht : as.take n = bs.take n) (hd : as.drop n = bs.drop n) :
    as = bs := by
  rw [← List.take_append_drop n as, ht, hd, List.take_append_drop]

section Padded

variable {cap : ℕ}

theorem length_resize (h : items.length ≤ cap) : (resize cap filler items).length = cap := by
  rw [resize_eq h, List.length_append, List.length_replicate]
  omega

theorem take_resize (h : items.length ≤ cap) : (resize cap filler items).take items.length = items := by
  rw [resize_eq h, List.take_left]

/-- Opening a place in an array padded to a capacity. -/
theorem insert_padded (hr : n ≤ items.length) (hroom : items.length < cap) (x : α) :
    (copyWithin (resize cap filler items) n items.length (n + 1)).set n x =
      resize cap filler (items.insertIdx n x) := by
  have hlen : (items.insertIdx n x).length = items.length + 1 := List.length_insertIdx_of_le_length hr _
  have hex : (resize cap filler items).length = cap := length_resize hroom.le
  have hlc : (copyWithin (resize cap filler items) n items.length (n + 1)).length = cap := by
    rw [length_copyWithin hr (by omega) (by omega), hex]
  rw [resize_eq (by omega : (items.insertIdx n x).length ≤ cap), hlen]
  apply @eq_of_take_drop _ (items.length + 1)
  · rw [take_insert hr (by omega), take_resize hroom.le, List.take_append_of_le_length (by omega),
      List.take_of_length_le (by omega)]
  · have hdrop : (resize cap filler items).drop (items.length + 1) =
        List.replicate (cap - (items.length + 1)) filler := by
      rw [resize_eq hroom.le, List.drop_append, List.drop_of_length_le (by omega), List.nil_append,
        List.drop_replicate]
      congr 1
      omega
    rw [List.drop_set_of_lt (by omega), List.drop_append_of_le_length (by omega),
      List.drop_of_length_le (by omega : (items.insertIdx n x).length ≤ _), List.nil_append, ← hdrop]
    apply List.ext_getElem?
    intro m
    rw [List.getElem?_drop, List.getElem?_drop, getElem?_copyWithin hr (by omega) (by omega),
      if_neg (by omega)]

theorem remove_padded (hr : n < items.length) (hcap : items.length ≤ cap) :
    (copyWithin (resize cap filler items) (n + 1) items.length n).set (items.length - 1) filler =
      resize cap filler (items.eraseIdx n) := by
  have hlen : (items.eraseIdx n).length = items.length - 1 := List.length_eraseIdx_of_lt hr
  have hex : (resize cap filler items).length = cap := length_resize hcap
  have hlc : (copyWithin (resize cap filler items) (n + 1) items.length n).length = cap := by
    rw [length_copyWithin (by omega) (by omega) (by omega), hex]
  rw [resize_eq (by omega : (items.eraseIdx n).length ≤ cap), hlen]
  apply @eq_of_take_drop _ (items.length - 1)
  · have ht := take_remove (show n ≤ n + 1 by omega) (show n + 1 ≤ items.length by omega)
      (show items.length ≤ (resize cap filler items).length by omega)
    rw [show items.length - (n + 1 - n) = items.length - 1 by omega] at ht
    rw [List.take_set_of_le (by omega), ht, take_append_slice_eq_eraseIdx hr, take_resize hcap,
      List.take_append_of_le_length (by omega), List.take_of_length_le (by omega)]
  · have hdrop : (resize cap filler items).drop items.length =
        List.replicate (cap - items.length) filler := by
      rw [resize_eq hcap, List.drop_left]
    have hrep : List.replicate (cap - (items.length - 1)) filler =
        filler :: List.replicate (cap - items.length) filler := by
      rw [← List.replicate_succ]
      congr 1
      omega
    have hgone : (items.eraseIdx n).drop (items.length - 1) = [] := List.drop_of_length_le hlen.le
    rw [List.drop_append_of_le_length hlen.ge, hgone, List.nil_append, hrep, ← hdrop]
    apply List.ext_getElem?
    intro m
    rw [List.getElem?_drop, List.getElem?_set]
    cases m with
    | zero =>
      rw [if_pos (by omega), if_pos (by omega)]
      rfl
    | succ m =>
      rw [if_neg (by omega), getElem?_copyWithin (by omega) (by omega) (by omega), if_neg (by omega),
        List.getElem?_cons_succ, List.getElem?_drop]
      congr 1
      omega

end Padded

theorem packSub_of_ne (h : items ≠ []) :
    packSub filler items = some (resize (capClass items.length) filler items) := if_neg h

theorem subItem_packSub (h : items[n]? = some x) : subItem (packSub filler items) n = .ok x := by
  have hlt : n < items.length := (List.getElem?_eq_some_iff.mp h).1
  have hne : items ≠ [] := by
    intro he
    simp [he] at hlt
  rw [packSub_of_ne hne, resize_eq (le_capClass _), subItem]
  simp only [List.getElem?_append_left hlt, h]

theorem subarrayInsert_pack (shared : Bool) (hr : n ≤ items.length) :
    ∃ retired, subarrayInsert shared (packSub filler items) items.length n x filler =
      .ok (packSub filler (items.insertIdx n x), retired) := by
  have hlen : (items.insertIdx n x).length = items.length + 1 := List.length_insertIdx_of_le_length hr _
  have hne' : items.insertIdx n x ≠ [] := by
    intro he
    rw [he] at hlen
    simp at hlen
  by_cases hne : items = []
  · subst hne
    rw [List.length_nil] at hr
    obtain rfl : n = 0 := by omega
    exact ⟨none, rfl⟩
  · have hcap := le_capClass items.length
    have hex : (resize (capClass items.length) filler items).length = capClass items.length :=
      length_resize hcap
    rw [packSub_of_ne hne, packSub_of_ne hne', hlen, subarrayInsert]
    simp only [hex, hr, and_self, if_true]
    by_cases hcls : capClass items.length = capClass (items.length + 1)
    · have hroom : items.length < capClass items.length := by
        have := le_capClass (items.length + 1)
        omega
      refine ⟨none, ?_⟩
      rw [if_pos hcls, shiftUp_eq (by omega) hr, ite_self, insert_padded hr hroom, hcls]
    · refine ⟨some (capClass items.length), ?_⟩
      have hins : (resize (capClass items.length) filler items).take n ++
          x :: slice (resize (capClass items.length) filler items) n (items.length - n) =
            items.insertIdx n x := by
        have hdrop : (items.drop n).length = items.length - n := List.length_drop
        rw [resize_eq hcap, slice, List.take_append_of_le_length hr, List.drop_append_of_le_length hr,
          List.take_append_of_le_length hdrop.ge, List.take_of_length_le hdrop.le, insertIdx_eq_append hr]
      rw [if_neg hcls, hins]

theorem subarrayRemove_pack (shared : Bool) (hr : n < items.length) :
    ∃ retired, subarrayRemove shared (packSub filler items) items.length n filler =
      .ok (packSub filler (items.eraseIdx n), retired) := by
  have hlen : (items.eraseIdx n).length = items.length - 1 := List.length_eraseIdx_of_lt hr
  have hne : items ≠ [] := by
    intro he
    simp [he] at hr
  rw [subarrayRemove.eq_def, if_pos hr]
  by_cases hone : items.length - 1 = 0
  · have hnil : items.eraseIdx n = [] := List.length_eq_zero_iff.mp (by omega)
    rw [if_pos hone, hnil]
    exact ⟨_, rfl⟩
  · have hne' : items.eraseIdx n ≠ [] := by
      intro he
      rw [he] at hlen
      simp at hlen
      omega
    have hcap := le_capClass items.length
    have hex : (resize (capClass items.length) filler items).length = capClass items.length :=
      length_resize hcap
    rw [if_neg hone, packSub_of_ne hne, packSub_of_ne hne', hlen]
    simp only [hex, if_true]
    by_cases hcls : capClass items.length = capClass (items.length - 1)
    · refine ⟨none, ?_⟩
      have hmove : shiftDown 1 (items.length - 1 - n) n (resize (capClass items.length) filler items) =
          copyWithin (resize (capClass items.length) filler items) (n + 1) items.length n := by
        rw [shiftDown_eq (by omega) (by omega)]
        congr 1
        omega
      rw [if_pos hcls, hmove, ite_self, remove_padded hr hcap, hcls]
    · refine ⟨some (capClass items.length), ?_⟩
      rw [if_neg hcls, take_append_slice_eq_eraseIdx hr, take_resize hcap]

section MapLeaf

variable {v w : ℕ} {m m₁ m₂ : List (ℕ × ℕ)}

theorem bitsOf_insert (l₁ l₂ : List ℕ) (d : ℕ) :
    Bitmap.set (bitsOf (l₁ ++ l₂)) d = bitsOf (l₁ ++ d :: l₂) := by
  apply Nat.eq_of_testBit_eq
  intro j
  rw [testBit_set, testBit_bitsOf, testBit_bitsOf, Bool.eq_iff_iff]
  simp only [Bool.or_eq_true, decide_eq_true_eq, List.mem_append, List.mem_cons]
  constructor
  · rintro ((h | h) | rfl)
    · exact .inl h
    · exact .inr (.inr h)
    · exact .inr (.inl rfl)
  · rintro (h | rfl | h)
    · exact .inl (.inl h)
    · exact .inr rfl
    · exact .inl (.inr h)

theorem bitsOf_remove {l₁ l₂ : List ℕ} (h₁ : d ∉ l₁) (h₂ : d ∉ l₂) :
    Bitmap.clear (bitsOf (l₁ ++ d :: l₂)) d = bitsOf (l₁ ++ l₂) := by
  apply Nat.eq_of_testBit_eq
  intro j
  rw [testBit_clear, testBit_bitsOf, testBit_bitsOf]
  by_cases hj : d = j
  · subst hj
    simp [h₁, h₂]
  · simp [hj, Ne.symm hj]

theorem not_mem_keys_of_cut {β : Type} {k₁ k₂ : List (ℕ × β)} (hcut : CutAt d k₁ k₂) :
    d ∉ k₁.map Prod.fst ∧ d ∉ k₂.map Prod.fst := by
  constructor
  · intro hm
    obtain ⟨e, he, rfl⟩ := List.mem_map.mp hm
    exact absurd (hcut.below e he) (lt_irrefl _)
  · intro hm
    obtain ⟨e, he, rfl⟩ := List.mem_map.mp hm
    exact absurd (hcut.above e he) (lt_irrefl _)

/-- Only the row of the digit changes when an entry is put in. -/
theorem row_insert (x : α) (hi : i ≠ d / 32) : row (l₁ ++ (d, x) :: l₂) i = row (l₁ ++ l₂) i := by
  rw [row_append, row_cons_ne hi, ← row_append]

theorem row_insert_self (x : α) :
    row (l₁ ++ (d, x) :: l₂) (d / 32) =
      (row (l₁ ++ l₂) (d / 32)).insertIdx (row l₁ (d / 32)).length x := by
  rw [row_append, row_append, row_cons_self, insertIdx_eq_append (by rw [List.length_append]; omega),
    List.take_left, List.drop_left]

theorem row_remove_self (x : α) :
    row (l₁ ++ l₂) (d / 32) =
      (row (l₁ ++ (d, x) :: l₂) (d / 32)).eraseIdx (row l₁ (d / 32)).length := by
  rw [row_append, row_append, row_cons_self, List.eraseIdx_append_of_length_le le_rfl]
  simp

theorem mapBitmapOf_pop0 (m : List (ℕ × ℕ)) : (mapBitmapOf m).pop0 = m.length - 1 := rfl

theorem heapBytes_mapBitmap (m : List (ℕ × ℕ)) :
    (Node.mapBitmap (mapBitmapOf m)).heapBytes = 96 + subBytes VALUE_SIZE (subsOf 0 m) := rfl

theorem mapBitmapInsert_new (shared : Bool) (hs : KeySorted (m₁ ++ m₂)) (hcut : CutAt d m₁ m₂)
    (hd : d < 256) (hne : m₁ ++ m₂ ≠ []) (v : ℕ) :
    ∃ edit : SubEdit, mapBitmapInsert shared (mapBitmapOf (m₁ ++ m₂)) d v =
        .ok (none, mapBitmapOf (m₁ ++ (d, v) :: m₂), edit) ∧
      ((Node.mapBitmap (mapBitmapOf (m₁ ++ (d, v) :: m₂))).heapBytes : ℤ) =
        (Node.mapBitmap (mapBitmapOf (m₁ ++ m₂))).heapBytes + edit.delta := by
  obtain ⟨hn₁, hn₂⟩ := not_mem_keys_of_cut hcut
  have habs : testDigit false (mapBitmapOf (m₁ ++ m₂)).bits d = false := by
    rw [testDigit_eq, mapBitmapOf, testBit_bitsOf, List.map_append]
    simp [hn₁, hn₂]
  have hrank : digitRank shared (mapBitmapOf (m₁ ++ m₂)).bits d = (row m₁ (d / 32)).length := by
    rw [digitRank_eq]
    exact rank_eq hs hcut.below fun e he => (hcut.above e he).le
  have hpop : digitPop shared (mapBitmapOf (m₁ ++ m₂)).bits d = (row (m₁ ++ m₂) (d / 32)).length := by
    rw [digitPop_eq]
    exact length_row_eq hs d
  have hle : (row m₁ (d / 32)).length ≤ (row (m₁ ++ m₂) (d / 32)).length := by
    rw [row_append, List.length_append]
    omega
  have hpos : 0 < (m₁ ++ m₂).length := List.length_pos_iff.mpr hne
  obtain ⟨retired, hsub⟩ := @subarrayInsert_pack _ _ v 0 (row (m₁ ++ m₂) (d / 32)) shared hle
  have hlen : (row (m₁ ++ (d, v) :: m₂) (d / 32)).length = (row (m₁ ++ m₂) (d / 32)).length + 1 := by
    rw [row_insert_self, List.length_insertIdx_of_le_length hle]
  refine ⟨⟨retired.map (· * VALUE_SIZE), subarrayBytesDelta VALUE_SIZE (row (m₁ ++ m₂) (d / 32)).length
    ((row (m₁ ++ m₂) (d / 32)).length + 1)⟩, ?_, ?_⟩
  · unfold mapBitmapInsert
    dsimp only
    rw [habs, if_neg (by decide), hpop, hrank]
    have hslot : (mapBitmapOf (m₁ ++ m₂)).subs.getD (d / 32) none =
        packSub 0 (row (m₁ ++ m₂) (d / 32)) := getD_subsOf hd
    rw [hslot, hsub, ok_bind, pure_eq_ok]
    dsimp only
    rw [← row_insert_self, setDigit_eq]
    have hsubs : (mapBitmapOf (m₁ ++ m₂)).subs.set (d / 32) (packSub 0 (row (m₁ ++ (d, v) :: m₂) (d / 32))) =
        subsOf 0 (m₁ ++ (d, v) :: m₂) := set_subsOf fun i hi => row_insert v hi
    have hbits : Bitmap.set (mapBitmapOf (m₁ ++ m₂)).bits d =
        bitsOf ((m₁ ++ (d, v) :: m₂).map Prod.fst) := by
      rw [mapBitmapOf, List.map_append, bitsOf_insert, List.map_append]
      rfl
    rw [hsubs, hbits]
    have hpop0 : (mapBitmapOf (m₁ ++ m₂)).pop0 + 1 = (m₁ ++ (d, v) :: m₂).length - 1 := by
      rw [List.length_append] at hpos
      rw [mapBitmapOf_pop0, List.length_append, List.length_append, List.length_cons]
      omega
    rw [hpop0]
    rfl
  · rw [heapBytes_mapBitmap, heapBytes_mapBitmap, ← hlen]
    push_cast
    rw [subBytes_subsOf VALUE_SIZE hd fun i hi => row_insert v hi]
    ring

theorem mapBitmapInsert_present (shared : Bool) (hs : KeySorted (m₁ ++ (d, w) :: m₂)) (hd : d < 256)
    (v : ℕ) : mapBitmapInsert shared (mapBitmapOf (m₁ ++ (d, w) :: m₂)) d v =
      .ok (some w, mapBitmapOf (m₁ ++ (d, v) :: m₂), ⟨none, 0⟩) := by
  obtain ⟨-, -, hcut⟩ := hs.of_cut
  have hpres : testDigit false (mapBitmapOf (m₁ ++ (d, w) :: m₂)).bits d = true := by
    rw [testDigit_eq, mapBitmapOf, testBit_bitsOf]
    simp
  have hrank : digitRank false (mapBitmapOf (m₁ ++ (d, w) :: m₂)).bits d = (row m₁ (d / 32)).length := by
    rw [digitRank_eq]
    refine rank_eq hs hcut.below fun e he => ?_
    rcases List.mem_cons.mp he with rfl | he
    · exact le_rfl
    · exact (hcut.above e he).le
  have hrow : ∀ x : ℕ, row (m₁ ++ (d, x) :: m₂) (d / 32) =
      row m₁ (d / 32) ++ x :: row m₂ (d / 32) := fun x => by rw [row_append, row_cons_self]
  have hitem : (row (m₁ ++ (d, w) :: m₂) (d / 32))[(row m₁ (d / 32)).length]? = some w := by
    rw [hrow, List.getElem?_append_right le_rfl]
    simp
  have hne : ∀ x : ℕ, row (m₁ ++ (d, x) :: m₂) (d / 32) ≠ [] := by
    intro x
    rw [hrow]
    simp
  have hslot : (mapBitmapOf (m₁ ++ (d, w) :: m₂)).subs.getD (d / 32) none =
      packSub 0 (row (m₁ ++ (d, w) :: m₂) (d / 32)) := getD_subsOf hd
  have hset : (packSub 0 (row (m₁ ++ (d, w) :: m₂) (d / 32))).map (·.set (row m₁ (d / 32)).length v) =
      packSub 0 (row (m₁ ++ (d, v) :: m₂) (d / 32)) := by
    rw [packSub_of_ne (hne w), packSub_of_ne (hne v), resize_eq (le_capClass _), resize_eq (le_capClass _),
      Option.map_some]
    congr 1
    rw [List.set_append_left _ _ (by rw [hrow, List.length_append, List.length_cons]; omega), hrow, hrow,
      List.set_append_right _ _ le_rfl, Nat.sub_self, List.set_cons_zero]
    simp
  have hsubs : (mapBitmapOf (m₁ ++ (d, w) :: m₂)).subs.set (d / 32)
      (packSub 0 (row (m₁ ++ (d, v) :: m₂) (d / 32))) = subsOf 0 (m₁ ++ (d, v) :: m₂) := by
    refine set_subsOf fun i hi => ?_
    rw [row_insert v hi, row_insert w hi]
  unfold mapBitmapInsert
  dsimp only
  rw [hpres, if_pos rfl, hslot, hrank, subItem_packSub hitem, ok_bind, pure_eq_ok, hset, hsubs]
  simp [mapBitmapOf]

theorem mapBitmapRemove_present (shared : Bool) (hs : KeySorted (m₁ ++ (d, w) :: m₂)) (hd : d < 256) :
    ∃ edit : SubEdit, mapBitmapRemove shared (mapBitmapOf (m₁ ++ (d, w) :: m₂)) d =
        .ok (some (w, (m₁ ++ m₂).length), mapBitmapOf (m₁ ++ m₂), edit) ∧
      ((Node.mapBitmap (mapBitmapOf (m₁ ++ m₂))).heapBytes : ℤ) =
        (Node.mapBitmap (mapBitmapOf (m₁ ++ (d, w) :: m₂))).heapBytes + edit.delta := by
  obtain ⟨-, -, hcut⟩ := hs.of_cut
  obtain ⟨hn₁, hn₂⟩ := not_mem_keys_of_cut hcut
  have hpres : testDigit shared (mapBitmapOf (m₁ ++ (d, w) :: m₂)).bits d = true := by
    rw [testDigit_eq, mapBitmapOf, testBit_bitsOf]
    simp
  have hrank : digitRank shared (mapBitmapOf (m₁ ++ (d, w) :: m₂)).bits d = (row m₁ (d / 32)).length := by
    rw [digitRank_eq]
    refine rank_eq hs hcut.below fun e he => ?_
    rcases List.mem_cons.mp he with rfl | he
    · exact le_rfl
    · exact (hcut.above e he).le
  have hpop : digitPop shared (mapBitmapOf (m₁ ++ (d, w) :: m₂)).bits d =
      (row (m₁ ++ (d, w) :: m₂) (d / 32)).length := by
    rw [digitPop_eq]
    exact length_row_eq hs d
  have hrow : row (m₁ ++ (d, w) :: m₂) (d / 32) = row m₁ (d / 32) ++ w :: row m₂ (d / 32) := by
    rw [row_append, row_cons_self]
  have hitem : (row (m₁ ++ (d, w) :: m₂) (d / 32))[(row m₁ (d / 32)).length]? = some w := by
    rw [hrow, List.getElem?_append_right le_rfl]
    simp
  have hlt := (List.getElem?_eq_some_iff.mp hitem).1
  obtain ⟨retired, hsub⟩ := @subarrayRemove_pack _ _ 0 (row (m₁ ++ (d, w) :: m₂) (d / 32)) shared hlt
  have hslot : (mapBitmapOf (m₁ ++ (d, w) :: m₂)).subs.getD (d / 32) none =
      packSub 0 (row (m₁ ++ (d, w) :: m₂) (d / 32)) := getD_subsOf hd
  have hlen : (row (m₁ ++ m₂) (d / 32)).length = (row (m₁ ++ (d, w) :: m₂) (d / 32)).length - 1 := by
    rw [@row_remove_self _ d m₁ m₂ w, List.length_eraseIdx_of_lt hlt]
  refine ⟨⟨retired.map (· * VALUE_SIZE), subarrayBytesDelta VALUE_SIZE
    (row (m₁ ++ (d, w) :: m₂) (d / 32)).length ((row (m₁ ++ (d, w) :: m₂) (d / 32)).length - 1)⟩, ?_, ?_⟩
  · unfold mapBitmapRemove
    dsimp only
    rw [hpres, if_pos rfl, hslot, hrank, hpop, subItem_packSub hitem, ok_bind, hsub, ok_bind, pure_eq_ok]
    dsimp only
    have hsubs : (mapBitmapOf (m₁ ++ (d, w) :: m₂)).subs.set (d / 32) (packSub 0 (row (m₁ ++ m₂) (d / 32))) =
        subsOf 0 (m₁ ++ m₂) := set_subsOf fun i hi => (row_insert w hi).symm
    have hbits : Bitmap.clear (mapBitmapOf (m₁ ++ (d, w) :: m₂)).bits d =
        bitsOf ((m₁ ++ m₂).map Prod.fst) := by
      rw [mapBitmapOf, List.map_append, List.map_cons, bitsOf_remove hn₁ hn₂, List.map_append]
    have hpop0 : (mapBitmapOf (m₁ ++ (d, w) :: m₂)).pop0 = (m₁ ++ m₂).length := by
      rw [mapBitmapOf_pop0, List.length_append, List.length_append, List.length_cons]
      omega
    rw [← row_remove_self, clearDigit_eq, hsubs, hbits, hpop0]
    congr 3
    rw [mapBitmapOf]
    congr 1
    split_ifs with h
    · rfl
    · omega
  · rw [heapBytes_mapBitmap, heapBytes_mapBitmap, ← hlen]
    push_cast
    rw [subBytes_subsOf VALUE_SIZE hd fun i hi => (row_insert w hi).symm]
    ring

theorem mapBitmapRemove_absent (shared : Bool) (hd : ∀ v, (d, v) ∉ m) :
    mapBitmapRemove shared (mapBitmapOf m) d = .ok (none, mapBitmapOf m, ⟨none, 0⟩) := by
  have habs : testDigit shared (mapBitmapOf m).bits d = false := by
    rw [testDigit_eq, mapBitmapOf, testBit_bitsOf, decide_eq_false]
    intro hm
    obtain ⟨e, he, rfl⟩ := List.mem_map.mp hm
    exact hd e.2 he
  unfold mapBitmapRemove
  rw [habs]
  rfl

theorem mapBitmapGet_eq (hs : KeySorted m) (hd : d < 256) :
    mapBitmapGet (mapBitmapOf m) d = .ok (m.lookup d) := by
  unfold mapBitmapGet
  rcases hs.cut_cases d with ⟨m₁, w, m₂, rfl, hcut⟩ | ⟨m₁, m₂, rfl, hcut⟩
  · have hpres : testDigit false (mapBitmapOf (m₁ ++ (d, w) :: m₂)).bits d = true := by
      rw [testDigit_eq, mapBitmapOf, testBit_bitsOf]
      simp
    have hrank : digitRank false (mapBitmapOf (m₁ ++ (d, w) :: m₂)).bits d = (row m₁ (d / 32)).length := by
      rw [digitRank_eq]
      refine rank_eq hs hcut.below fun e he => ?_
      rcases List.mem_cons.mp he with rfl | he
      · exact le_rfl
      · exact (hcut.above e he).le
    have hslot : (mapBitmapOf (m₁ ++ (d, w) :: m₂)).subs.getD (d / 32) none =
        packSub 0 (row (m₁ ++ (d, w) :: m₂) (d / 32)) := getD_subsOf hd
    have hrow : row (m₁ ++ (d, w) :: m₂) (d / 32) = row m₁ (d / 32) ++ w :: row m₂ (d / 32) := by
      rw [row_append, row_cons_self]
    rw [hpres, if_pos rfl, hslot, hrank, packSub_of_ne (by rw [hrow]; simp),
      resize_eq (le_capClass _), lookup_cut hs]
    simp [hrow]
  · have habs : testDigit false (mapBitmapOf (m₁ ++ m₂)).bits d = false := by
      obtain ⟨hn₁, hn₂⟩ := not_mem_keys_of_cut hcut
      rw [testDigit_eq, mapBitmapOf, testBit_bitsOf, List.map_append]
      simp [hn₁, hn₂]
    rw [habs, lookup_eq_none hs hcut.not_mem]
    rfl

variable {a : Arena} {C : Cells} {h : ℕ} {nd nd₀ : Node}

theorem fits_node (nd : Node) : (Desc.node nd).Fits nd := rfl

theorem commitSub_spec {edit : SubEdit} (ho : Owned a ((h, .node nd₀) ::ₘ C)) (hr : Room a 0 1)
    (hδ : (nd.heapBytes : ℤ) = nd₀.heapBytes + edit.delta) :
    ∃ a', commitSub a h nd edit = .ok a' ∧ Owned a' ((h, .node nd) ::ₘ C) ∧ Spent a a' 0 1 := by
  obtain ⟨ho', hs'⟩ := put_spec ho (fits_node nd) hδ
  obtain ⟨retired, δ⟩ := edit
  unfold commitSub
  cases retired with
  | none => exact ⟨_, rfl, ho', hs'.mono le_rfl (by omega)⟩
  | some b =>
    obtain ⟨a₁, h₁, hs₁, hf₁, hb₁, hal₁, hsp₁⟩ := @retire_spec (a.put h nd) ⟨hr.free, hr.pending⟩ b
    refine ⟨a₁.addBytes δ, ?_, ?_, ?_⟩
    · dsimp only [Arena.retireSub]
      rw [h₁, ok_bind, pure_eq_ok]
    · refine ho'.congr hs₁ hf₁ ?_
      show ((a₁.bytes : ℤ) + δ).toNat = (((a.put h nd).bytes : ℤ) + δ).toNat
      rw [hb₁]
    · obtain ⟨f, df, cp, al, pd, fr⟩ := hsp₁
      exact ⟨f, df, cp, al, pd, fr⟩

theorem mapBitmap_eq {b : MapBitmap} (ho : Owned a ((h, .node (.mapBitmap b)) ::ₘ C)) :
    a.mapBitmap h = .ok b := by
  rw [Arena.mapBitmap, ho.find_node]

theorem bitmap_eq {b : SetBitmap} (ho : Owned a ((h, .node (.bitmap b)) ::ₘ C)) : a.bitmap h = .ok b := by
  rw [Arena.bitmap, ho.find_node]

theorem mapBitmapInsertAt_spec (shared : Bool) (hs : KeySorted m) (hne : m ≠ []) (hd : d < 256)
    (ho : Owned a ((h, .node (.mapBitmap (mapBitmapOf m))) ::ₘ C)) (hr : Room a 0 1) (v : ℕ) :
    ∃ a', mapBitmapInsertAt shared a h d v = .ok (m.lookup d, a') ∧
      Owned a' ((h, .node (.mapBitmap (mapBitmapOf (put d v m)))) ::ₘ C) ∧ Spent a a' 0 1 := by
  unfold mapBitmapInsertAt
  rw [mapBitmap_eq ho, ok_bind]
  rcases hs.cut_cases d with ⟨m₁, w, m₂, rfl, hcut⟩ | ⟨m₁, m₂, rfl, hcut⟩
  · have hb : (Node.mapBitmap (mapBitmapOf (m₁ ++ (d, v) :: m₂))).heapBytes =
        (Node.mapBitmap (mapBitmapOf (m₁ ++ (d, w) :: m₂))).heapBytes := by
      have hrow : ∀ x : ℕ, ∀ i, (row (m₁ ++ (d, x) :: m₂) i).length =
          (row (m₁ ++ (d, w) :: m₂) i).length := by
        intro x i
        by_cases hi : i = d / 32
        · subst hi
          simp [row_append, row_cons_self]
        · rw [row_insert x hi, row_insert w hi]
      rw [heapBytes_mapBitmap, heapBytes_mapBitmap, subBytes, subBytes, subsOf, subsOf, List.map_map,
        List.map_map]
      congr 2
      apply List.map_congr_left
      intro i _
      simp only [Function.comp, length_packSub, hrow]
    have hδ : ((Node.mapBitmap (mapBitmapOf (m₁ ++ (d, v) :: m₂))).heapBytes : ℤ) =
        (Node.mapBitmap (mapBitmapOf (m₁ ++ (d, w) :: m₂))).heapBytes + (⟨none, 0⟩ : SubEdit).delta := by
      rw [hb, add_zero]
    obtain ⟨a', h', ho', hs'⟩ := commitSub_spec ho hr hδ
    rw [mapBitmapInsert_present shared hs hd, ok_bind]
    dsimp only
    rw [h', ok_bind, pure_eq_ok, put_cut_mem hcut, lookup_cut hs]
    exact ⟨a', rfl, ho', hs'⟩
  · obtain ⟨edit, hedit, hδ⟩ := mapBitmapInsert_new shared hs hcut hd hne v
    obtain ⟨a', h', ho', hs'⟩ := commitSub_spec ho hr hδ
    rw [hedit, ok_bind]
    dsimp only
    rw [h', ok_bind, pure_eq_ok, put_cut_new hcut, lookup_eq_none hs hcut.not_mem]
    exact ⟨a', rfl, ho', hs'⟩

theorem mapBitmapRemoveAt_spec (shared : Bool) (hs : KeySorted m) (hd : d < 256)
    (ho : Owned a ((h, .node (.mapBitmap (mapBitmapOf m))) ::ₘ C)) (hr : Room a 0 1) :
    ∃ a', mapBitmapRemoveAt shared a h d = .ok ((m.lookup d).map fun w => (w, m.length - 1), a') ∧
      Owned a' ((h, .node (.mapBitmap (mapBitmapOf (del d m)))) ::ₘ C) ∧ Spent a a' 0 1 := by
  unfold mapBitmapRemoveAt
  rw [mapBitmap_eq ho, ok_bind]
  rcases hs.cut_cases d with ⟨m₁, w, m₂, rfl, hcut⟩ | ⟨m₁, m₂, rfl, hcut⟩
  · obtain ⟨edit, hedit, hδ⟩ := mapBitmapRemove_present shared hs hd
    obtain ⟨a', h', ho', hs'⟩ := commitSub_spec ho hr hδ
    have hlen : (m₁ ++ (d, w) :: m₂).length - 1 = (m₁ ++ m₂).length := by
      rw [List.length_append, List.length_append, List.length_cons]
      omega
    rw [hedit, ok_bind]
    dsimp only
    rw [h', ok_bind, pure_eq_ok, del_cut_mem hcut, lookup_cut hs, Option.map_some, hlen]
    exact ⟨a', rfl, ho', hs'⟩
  · have hδ : ((Node.mapBitmap (mapBitmapOf (m₁ ++ m₂))).heapBytes : ℤ) =
        (Node.mapBitmap (mapBitmapOf (m₁ ++ m₂))).heapBytes + (⟨none, 0⟩ : SubEdit).delta :=
      (add_zero _).symm
    obtain ⟨a', h', ho', hs'⟩ := commitSub_spec ho hr hδ
    rw [mapBitmapRemove_absent shared hcut.not_mem, ok_bind]
    dsimp only
    rw [h', ok_bind, pure_eq_ok, del_of_not_mem hcut.not_mem, lookup_eq_none hs hcut.not_mem,
      Option.map_none]
    exact ⟨a', rfl, ho', hs'⟩

theorem readMapBitmap_eq (hs : KeySorted m) (hb : ∀ e ∈ m, e.1 < 256) :
    readMapBitmap (mapBitmapOf m) = .ok m := by
  have hdig : digits (mapBitmapOf m).bits = m.map Prod.fst :=
    digits_bitsOf (keySorted_iff.mp hs) fun k hk => by
      obtain ⟨e, he, rfl⟩ := List.mem_map.mp hk
      exact hb e he
  have hitem : ∀ e ∈ m, subItem ((mapBitmapOf m).subs.getD (e.1 / 32) none)
      (digitRank false (mapBitmapOf m).bits e.1) = .ok e.2 := by
    intro e he
    have hget := mapBitmapGet_eq hs (hb e he)
    rw [lookup_of_mem hs he, mapBitmapGet, testDigit_eq, mapBitmapOf, testBit_bitsOf,
      decide_eq_true (List.mem_map_of_mem (f := Prod.fst) he), if_pos rfl] at hget
    rw [mapBitmapOf]
    unfold subItem
    dsimp only at hget ⊢
    split at hget
    · split at hget
      · rename_i hs' _ _ hv
        rw [hs']
        dsimp only
        rw [hv]
        simpa using hget
      · cases hget
    · simp at hget
  unfold readMapBitmap
  rw [hdig]
  have hall : ∀ k : List (ℕ × ℕ), (∀ e ∈ k, e ∈ m) → (k.map Prod.fst).mapM (fun d => do
      let v ← subItem ((mapBitmapOf m).subs.getD (d / 32) none) (digitRank false (mapBitmapOf m).bits d)
      (pure (d, v) : Except Fault (ℕ × ℕ))) = .ok k := by
    intro k hk
    induction k with
    | nil => rfl
    | cons e k ih =>
      rw [List.map_cons, List.mapM_cons, hitem e (hk e List.mem_cons_self), ok_bind, pure_eq_ok, ok_bind,
        ih fun x hx => hk x (List.mem_cons_of_mem e hx), ok_bind, pure_eq_ok]
  exact hall m fun e he => he

end MapLeaf

section SetLeaf

variable {m : List (ℕ × ℕ)} {a : Arena} {C : Cells} {h : ℕ}

/-- The leaf that stores the keys of `m`. -/
def setBitmapOf (m : List (ℕ × ℕ)) : SetBitmap := ⟨bitsOf (m.map Prod.fst), m.length⟩

theorem setBitmapInsert_eq (shared : Bool) (hs : KeySorted m) (v : ℕ) :
    setBitmapInsert shared (setBitmapOf m) d = ((m.lookup d).isNone, setBitmapOf (put d v m)) := by
  unfold setBitmapInsert
  rw [testDigit_eq, setBitmapOf, testBit_bitsOf]
  rcases hs.cut_cases d with ⟨m₁, w, m₂, rfl, hcut⟩ | ⟨m₁, m₂, rfl, hcut⟩
  · rw [if_pos (by simp), lookup_cut hs, put_cut_mem hcut]
    simp [setBitmapOf]
  · obtain ⟨hn₁, hn₂⟩ := not_mem_keys_of_cut hcut
    rw [if_neg (by rw [List.map_append]; simp [hn₁, hn₂]), lookup_eq_none hs hcut.not_mem,
      put_cut_new hcut, setDigit_eq, List.map_append, bitsOf_insert, setBitmapOf, List.map_append,
      List.length_append, List.length_append, List.length_cons]
    rfl

theorem setBitmapRemove_eq (shared : Bool) (hs : KeySorted m) :
    setBitmapRemove shared (setBitmapOf m) d = ((m.lookup d).isSome, setBitmapOf (del d m)) := by
  unfold setBitmapRemove
  rw [testDigit_eq, setBitmapOf, testBit_bitsOf]
  rcases hs.cut_cases d with ⟨m₁, w, m₂, rfl, hcut⟩ | ⟨m₁, m₂, rfl, hcut⟩
  · obtain ⟨hn₁, hn₂⟩ := not_mem_keys_of_cut hcut
    rw [if_pos (by simp), lookup_cut hs, del_cut_mem hcut, clearDigit_eq, List.map_append,
      List.map_cons, bitsOf_remove hn₁ hn₂, setBitmapOf, List.map_append, List.length_append,
      List.length_append, List.length_cons]
    rfl
  · obtain ⟨hn₁, hn₂⟩ := not_mem_keys_of_cut hcut
    rw [if_neg (by rw [List.map_append]; simp [hn₁, hn₂]), lookup_eq_none hs hcut.not_mem,
      del_of_not_mem hcut.not_mem]
    rfl

theorem bitmapFromKeys_eq (hs : KeySorted m) : bitmapFromKeys m = setBitmapOf m := by
  have hgen : ∀ k₁ k₂ : List (ℕ × ℕ), KeySorted (k₁ ++ k₂) →
      k₂.foldl (fun b e => (setBitmapInsert false b e.1).2) (setBitmapOf k₁) = setBitmapOf (k₁ ++ k₂) := by
    intro k₁ k₂ hk
    induction k₂ generalizing k₁ with
    | nil => simp
    | cons e k₂ ih =>
      obtain ⟨k, v⟩ := e
      obtain ⟨hk₁, -, hcut⟩ := hk.of_cut
      have hput : put k v k₁ = k₁ ++ [(k, v)] := by
        have hnew := @put_cut_new _ k v k₁ [] ⟨hcut.below, by simp⟩
        rwa [List.append_nil] at hnew
      rw [List.foldl_cons, setBitmapInsert_eq false hk₁ v, hput, ih _ (by simpa using hk)]
      simp
  exact hgen [] m hs

theorem bitmapKeys_eq (hs : KeySorted m) (hb : ∀ e ∈ m, e.1 < 256) (hz : ∀ e ∈ m, e.2 = 0) :
    bitmapKeys (setBitmapOf m) = m := by
  unfold bitmapKeys setBitmapOf
  rw [digits_bitsOf (keySorted_iff.mp hs) fun k hk => by
    obtain ⟨e, he, rfl⟩ := List.mem_map.mp hk
    exact hb e he, List.map_map]
  have hid : ∀ e ∈ m, ((fun d => (d, 0)) ∘ Prod.fst) e = e := fun e he =>
    Prod.ext rfl (hz e he).symm
  rw [List.map_congr_left hid, List.map_id']

theorem setBitmapInsertAt_spec (shared : Bool) (hs : KeySorted m)
    (ho : Owned a ((h, .node (.bitmap (setBitmapOf m))) ::ₘ C)) (d v : ℕ) :
    ∃ a', setBitmapInsertAt shared a h d = .ok ((m.lookup d).isNone, a') ∧
      Owned a' ((h, .node (.bitmap (setBitmapOf (put d v m)))) ::ₘ C) ∧ Spent a a' 0 0 := by
  obtain ⟨ho', hs'⟩ := put_spec_same ho (fits_node (.bitmap (setBitmapOf (put d v m)))) rfl
  refine ⟨_, ?_, ho', hs'⟩
  unfold setBitmapInsertAt
  rw [bitmap_eq ho, ok_bind, setBitmapInsert_eq shared hs v]
  rfl

theorem setBitmapRemoveAt_spec (shared : Bool) (hs : KeySorted m)
    (ho : Owned a ((h, .node (.bitmap (setBitmapOf m))) ::ₘ C)) (d : ℕ) :
    ∃ a', setBitmapRemoveAt shared a h d = .ok ((m.lookup d).isSome, a') ∧
      Owned a' ((h, .node (.bitmap (setBitmapOf (del d m)))) ::ₘ C) ∧ Spent a a' 0 0 := by
  obtain ⟨ho', hs'⟩ := put_spec_same ho (fits_node (.bitmap (setBitmapOf (del d m)))) rfl
  refine ⟨_, ?_, ho', hs'⟩
  unfold setBitmapRemoveAt
  rw [bitmap_eq ho, ok_bind, setBitmapRemove_eq shared hs]
  rfl

end SetLeaf

end Expanse.Trie32
