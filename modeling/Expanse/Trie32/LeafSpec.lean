import Expanse.Trie32.Leaf

/-!
# What the leaf edits do

`LeafHolds` relates a buffer to the list of entries it stores: its size is the one of the
population's capacity class, and its areas read as the keys and the values. Every edit
turns it into the same statement about the edited list. The edits through words store the
same bytes as the plain ones, except that a removal clears the vacated key bytes.
-/

namespace Expanse.Trie32

open Arrays Packed

variable {vw kb pop pos rem val off i j n m : ℕ} {buf : List ℕ} {l : List (ℕ × ℕ)} {fl : Flavour}

/-- A class that has room to spare is a multiple of a word. -/
theorem four_dvd_capClass (h : n < capClass n) : 4 ∣ capClass n := by
  unfold capClass at h ⊢
  split_ifs at h ⊢ <;> omega

theorem getElem?_shiftWordsUp (hn : 4 * (n + 1) ≤ buf.length) (hi : i ≤ n) :
    (shiftWordsUp i n buf)[m]? = if 4 * (i + 1) ≤ m ∧ m < 4 * (n + 1) then buf[m - 4]? else buf[m]? := by
  induction n generalizing buf with
  | zero => rw [shiftWordsUp, if_neg (by omega)]
  | succ n ih =>
    rw [shiftWordsUp]
    by_cases hin : i ≤ n
    · have hs : (slice buf (4 * n) 4).length = 4 := length_slice (by omega)
      have hlen : (overwrite buf (4 * (n + 1)) (slice buf (4 * n) 4)).length = buf.length :=
        length_overwrite (by omega)
      rw [if_pos hin, ih (by omega) hin]
      by_cases h1 : 4 * (i + 1) ≤ m ∧ m < 4 * (n + 1)
      · rw [if_pos h1, if_pos (by omega), getElem?_overwrite (by omega), if_neg (by omega)]
      · rw [if_neg h1, getElem?_overwrite (by omega), hs]
        by_cases h2 : 4 * (n + 1) ≤ m ∧ m < 4 * (n + 1) + 4
        · rw [if_pos h2, if_pos (by omega), getElem?_slice, if_pos (by omega)]
          congr 1
          omega
        · rw [if_neg h2, if_neg (by omega)]
    · rw [if_neg hin, if_neg (by omega)]

theorem getElem?_shiftWordsDown {gap : ℕ} (hg : 0 < gap) (h : 4 * (i + n + gap) ≤ buf.length) :
    (shiftWordsDown gap n i buf)[m]? =
      if 4 * i ≤ m ∧ m < 4 * (i + n) then buf[m + 4 * gap]? else buf[m]? := by
  induction n generalizing i buf with
  | zero => rw [shiftWordsDown, if_neg (by omega)]
  | succ n ih =>
    have hs : (slice buf (4 * (i + gap)) 4).length = 4 := length_slice (by omega)
    have hlen : (overwrite buf (4 * i) (slice buf (4 * (i + gap)) 4)).length = buf.length :=
      length_overwrite (by omega)
    rw [shiftWordsDown, ih (by omega)]
    by_cases h1 : 4 * (i + 1) ≤ m ∧ m < 4 * (i + 1 + n)
    · rw [if_pos h1, if_pos (by omega), getElem?_overwrite (by omega), if_neg (by omega)]
    · rw [if_neg h1, getElem?_overwrite (by omega), hs]
      by_cases h2 : 4 * i ≤ m ∧ m < 4 * i + 4
      · rw [if_pos h2, if_pos (by omega), getElem?_slice, if_pos (by omega)]
        congr 1
        omega
      · rw [if_neg h2, if_neg (by omega)]

theorem length_shiftWordsUp (hn : 4 * (n + 1) ≤ buf.length) (hi : i ≤ n) :
    (shiftWordsUp i n buf).length = buf.length := by
  induction n generalizing buf with
  | zero => rfl
  | succ n ih =>
    rw [shiftWordsUp]
    by_cases hin : i ≤ n
    · have hs : (slice buf (4 * n) 4).length = 4 := length_slice (by omega)
      have hlen : (overwrite buf (4 * (n + 1)) (slice buf (4 * n) 4)).length = buf.length :=
        length_overwrite (by omega)
      rw [if_pos hin, ih (by omega) hin, hlen]
    · rw [if_neg hin]

theorem leafValsInsertShared_eq (hpos : pos ≤ pop) (hfit : 4 * (pop + 1) ≤ buf.length) :
    leafValsInsertShared pos pop val buf = openGap 0 4 pop pos val buf := by
  apply List.ext_getElem?
  intro m
  have hlen := length_shiftWordsUp (i := pos) hfit hpos
  rw [leafValsInsertShared, getElem?_overwrite (by rw [length_bytesLE]; omega), length_bytesLE,
    getElem?_shiftWordsUp hfit hpos, getElem?_openGap hpos (by omega)]
  simp only [Nat.zero_add, Nat.mul_comm _ 4]
  by_cases h1 : 4 * pos ≤ m ∧ m < 4 * pos + 4
  · rw [if_pos h1, if_pos h1]
  · rw [if_neg h1, if_neg h1]
    by_cases h2 : 4 * (pos + 1) ≤ m ∧ m < 4 * (pop + 1)
    · rw [if_pos h2, if_pos (by omega)]
    · rw [if_neg h2, if_neg (by omega)]

theorem leafValsRemoveShared_eq (hij : i < j) (hj : j ≤ pop) (hfit : 4 * pop ≤ buf.length) :
    leafValsRemoveShared i j pop buf = closeGap 0 4 pop i j buf := by
  apply List.ext_getElem?
  intro m
  rw [leafValsRemoveShared, getElem?_shiftWordsDown (by omega) (by omega),
    getElem?_closeGap (by omega) hj (by omega)]
  by_cases h1 : 4 * i ≤ m ∧ m < 4 * (i + (pop - (j - i) - i))
  · rw [if_pos h1, if_pos (by omega)]
    congr 1
    omega
  · rw [if_neg h1, if_neg (by omega)]

/-- Editing a local copy of some words gives `buf'` when the edit does on the copy what turns `buf` into
`buf'` there, and `buf'` is `buf` elsewhere. -/
theorem editWords_eq {w₀ w₁ : ℕ} {edit : List ℕ → List ℕ} {buf' : List ℕ} (hw : w₀ ≤ w₁)
    (hmax : 4 * (w₁ - w₀) ≤ LEAF_KEYS_MAX + 4) (hlen : 4 * w₁ ≤ buf.length)
    (hedit : ∀ loaded : List ℕ, loaded.length = LEAF_KEYS_MAX + 4 →
      (∀ x < 4 * (w₁ - w₀), loaded[x]? = buf[4 * w₀ + x]?) →
      (edit loaded).length = LEAF_KEYS_MAX + 4 ∧
        ∀ x < 4 * (w₁ - w₀), (edit loaded)[x]? = buf'[4 * w₀ + x]?)
    (hout : ∀ m, m < 4 * w₀ ∨ 4 * w₁ ≤ m → buf'[m]? = buf[m]?) :
    editWords w₀ w₁ edit buf = .ok buf' := by
  have hs : (slice buf (4 * w₀) (4 * (w₁ - w₀))).length = 4 * (w₁ - w₀) := length_slice (by omega)
  rw [editWords, if_neg (by omega)]
  set loaded := slice buf (4 * w₀) (4 * (w₁ - w₀)) ++
    List.replicate (LEAF_KEYS_MAX + 4 - 4 * (w₁ - w₀)) 0 with hloaded
  have hll : loaded.length = LEAF_KEYS_MAX + 4 := by
    rw [hloaded, List.length_append, hs, List.length_replicate]
    omega
  obtain ⟨hel, heq⟩ := hedit loaded hll (by
    intro x hx
    rw [hloaded, List.getElem?_append_left (by omega), getElem?_slice, if_pos hx])
  have het : ((edit loaded).take (4 * (w₁ - w₀))).length = 4 * (w₁ - w₀) := by
    rw [List.length_take, hel]
    omega
  refine congrArg Except.ok (List.ext_getElem? fun m => ?_)
  rw [getElem?_overwrite (by omega), het]
  by_cases hm : 4 * w₀ ≤ m ∧ m < 4 * w₀ + 4 * (w₁ - w₀)
  · rw [if_pos hm, List.getElem?_take, if_pos (by omega), heq _ (by omega)]
    congr 1
    omega
  · rw [if_neg hm, hout m (by omega)]

theorem leafKeysInsertShared_eq (hpos : pos ≤ pop) (hoff : 4 ∣ off)
    (hfit : 4 * wordsUp (off + (pop + 1) * kb) ≤ buf.length)
    (hmax : (pop + 1) * kb ≤ LEAF_KEYS_MAX) :
    leafKeysInsertShared off kb pos pop rem buf = .ok (openGap off kb pop pos rem buf) := by
  have h1 : pos * kb ≤ pop * kb := Nat.mul_le_mul_right kb hpos
  have h2 : (pop + 1) * kb = pop * kb + kb := Nat.succ_mul pop kb
  unfold wordsUp at hfit
  unfold LEAF_KEYS_MAX at hmax
  rw [leafKeysInsertShared]
  generalize hS : off + pos * kb = start
  refine editWords_eq (by unfold wordsUp; omega) (by unfold wordsUp LEAF_KEYS_MAX; omega)
    (by unfold wordsUp; omega) ?_ ?_
  · intro loaded hl hload
    unfold LEAF_KEYS_MAX at hl ⊢
    have hc : (copyWithin loaded (start - 4 * (start / 4)) (off + pop * kb - 4 * (start / 4))
        (start - 4 * (start / 4) + kb)).length = loaded.length :=
      length_copyWithin (by omega) (by omega) (by omega)
    refine ⟨by rw [length_overwrite (by rw [length_bytesLE]; omega), hc, hl], fun x hx => ?_⟩
    rw [getElem?_overwrite (by rw [length_bytesLE]; omega), length_bytesLE,
      getElem?_copyWithin (by omega) (by omega) (by omega), getElem?_openGap hpos (by omega), hS]
    unfold wordsUp at hx hload
    by_cases hw : start ≤ 4 * (start / 4) + x ∧ 4 * (start / 4) + x < start + kb
    · rw [if_pos (by omega), if_pos hw]
      congr 1
      omega
    · rw [if_neg (by omega), if_neg hw]
      by_cases hmv : start + kb ≤ 4 * (start / 4) + x ∧ 4 * (start / 4) + x < off + pop * kb + kb
      · rw [if_pos (by omega), if_pos hmv, hload _ (by omega)]
        congr 1
        omega
      · rw [if_neg (by omega), if_neg hmv, hload _ hx]
  · intro m hm
    unfold wordsUp at hm
    rw [getElem?_openGap hpos (by omega), hS, if_neg (by omega), if_neg (by omega)]

theorem leafKeysRemoveShared_eq (hij : i < j) (hj : j ≤ pop) (hoff : 4 ∣ off)
    (hfit : 4 * wordsUp (off + pop * kb) ≤ buf.length) (hmax : pop * kb ≤ LEAF_KEYS_MAX) :
    leafKeysRemoveShared off kb i j pop buf =
      .ok (overwrite (closeGap off kb pop i j buf) (off + (pop - (j - i)) * kb)
        (List.replicate ((j - i) * kb) 0)) := by
  have h1 : i * kb ≤ j * kb := Nat.mul_le_mul_right kb hij.le
  have h2 : j * kb ≤ pop * kb := Nat.mul_le_mul_right kb hj
  have h3 : (j - i) * kb = j * kb - i * kb := Nat.sub_mul j i kb
  have h4 : (pop - (j - i)) * kb = pop * kb - (j - i) * kb := Nat.sub_mul _ _ _
  unfold wordsUp at hfit
  unfold LEAF_KEYS_MAX at hmax
  have hcg : (closeGap off kb pop i j buf).length = buf.length := length_closeGap hij.le hj (by omega)
  rw [leafKeysRemoveShared]
  generalize hS : off + i * kb = start
  refine editWords_eq (by unfold wordsUp; omega) (by unfold wordsUp LEAF_KEYS_MAX; omega)
    (by unfold wordsUp; omega) ?_ ?_
  · intro loaded hl hload
    unfold LEAF_KEYS_MAX at hl ⊢
    have hc : (copyWithin loaded (start - 4 * (start / 4) + (j - i) * kb)
        (off + pop * kb - 4 * (start / 4)) (start - 4 * (start / 4))).length = loaded.length :=
      length_copyWithin (by omega) (by omega) (by omega)
    refine ⟨by rw [length_overwrite (by rw [List.length_replicate]; omega), hc, hl], fun x hx => ?_⟩
    rw [getElem?_overwrite (by rw [List.length_replicate]; omega),
      getElem?_copyWithin (by omega) (by omega) (by omega),
      getElem?_overwrite (by rw [List.length_replicate]; omega), getElem?_closeGap hij.le hj (by omega),
      hS, List.length_replicate]
    unfold wordsUp at hx hload
    by_cases hz : off + (pop - (j - i)) * kb ≤ 4 * (start / 4) + x ∧
        4 * (start / 4) + x < off + (pop - (j - i)) * kb + (j - i) * kb
    · rw [if_pos (by omega), if_pos hz]
      congr 1
      omega
    · rw [if_neg (by omega), if_neg hz]
      by_cases hmv : start ≤ 4 * (start / 4) + x ∧ 4 * (start / 4) + x < start + (pop * kb - j * kb)
      · rw [if_pos (by omega), if_pos hmv, hload _ (by omega)]
        congr 1
        omega
      · rw [if_neg (by omega), if_neg hmv, hload _ hx]
  · intro m hm
    unfold wordsUp at hm
    rw [getElem?_overwrite (by rw [List.length_replicate]; omega), List.length_replicate,
      if_neg (by omega), getElem?_closeGap hij.le hj (by omega), hS, if_neg (by omega)]

/-- The buffer stores the entries `l`. -/
structure LeafHolds (vw kb : ℕ) (l : List (ℕ × ℕ)) (buf : List ℕ) : Prop where
  size : buf.length = leafSize vw kb l.length
  vals : keysOf 0 vw l.length buf = l.map Prod.snd
  keys : keysOf (keysOff vw l.length) kb l.length buf = l.map Prod.fst

theorem area_fits (vw kb : ℕ) (h : n ≤ capClass pop) :
    0 + n * vw ≤ keysOff vw pop ∧ keysOff vw pop + n * kb ≤ leafSize vw kb pop := by
  have h1 : n * vw ≤ capClass pop * vw := Nat.mul_le_mul_right vw h
  have h2 : n * kb ≤ capClass pop * kb := Nat.mul_le_mul_right kb h
  unfold keysOff leafSize
  rw [Nat.mul_comm vw, Nat.mul_comm kb]
  omega

section Fill

variable {es : List (ℕ × ℕ)}

/-- Filling a leaf from number `i` on stores the values below the key area and the keys in it. -/
theorem fillLeaf_spec (hvals : (i + es.length) * vw ≤ off) (hfit : off + (i + es.length) * kb ≤ buf.length) :
    (fillLeaf vw off kb buf i es).length = buf.length ∧
      keysOf 0 vw (i + es.length) (fillLeaf vw off kb buf i es) =
        keysOf 0 vw i buf ++ es.map (·.2 % 256 ^ vw) ∧
      keysOf off kb (i + es.length) (fillLeaf vw off kb buf i es) =
        keysOf off kb i buf ++ es.map (·.1 % 256 ^ kb) := by
  induction es generalizing i buf with
  | nil => simp [fillLeaf]
  | cons e es ih =>
    obtain ⟨k, v⟩ := e
    rw [List.length_cons, show i + (es.length + 1) = i + 1 + es.length by omega] at *
    have h1 : i * vw + 1 * vw ≤ (i + 1 + es.length) * vw := mul_add_mul_le (by omega)
    have h2 : i * kb + 1 * kb ≤ (i + 1 + es.length) * kb := mul_add_mul_le (by omega)
    have hv : 0 + i * vw + vw ≤ buf.length := by omega
    have hl1 : (writeRem 0 vw buf i v).length = buf.length := length_writeRem hv
    have hk : off + i * kb + kb ≤ (writeRem 0 vw buf i v).length := by omega
    have hl2 : (writeRem off kb (writeRem 0 vw buf i v) i k).length = buf.length := by
      rw [length_writeRem hk, hl1]
    obtain ⟨hlen, hvs, hks⟩ := @ih (i + 1) (writeRem off kb (writeRem 0 vw buf i v) i k) hvals
      (by rw [hl2]; exact hfit)
    refine ⟨by rw [fillLeaf, hlen, hl2], ?_, ?_⟩
    · have hlow : keysOf 0 vw (i + 1) (writeRem off kb (writeRem 0 vw buf i v) i k) =
          keysOf 0 vw (i + 1) (writeRem 0 vw buf i v) := by
        refine keysOf_congr fun x hx => slice_of_eq fun y hy => ?_
        have h3 : x * vw + 1 * vw ≤ (i + 1 + es.length) * vw := mul_add_mul_le (by omega)
        exact getElem?_writeRem_of_disjoint hk (by omega)
      have hbelow : keysOf 0 vw i (writeRem 0 vw buf i v) = keysOf 0 vw i buf :=
        keysOf_congr fun x hx => cell_writeRem_ne (by omega) hv
      rw [fillLeaf, hvs, hlow, keysOf_succ, hbelow, readRem, cell_writeRem_self hv, ofBytes_bytesLE]
      simp
    · have hbelow : keysOf off kb i (writeRem off kb (writeRem 0 vw buf i v) i k) =
          keysOf off kb i buf := by
        refine keysOf_congr fun x hx => ?_
        rw [cell_writeRem_ne (by omega) hk]
        exact slice_of_eq fun y hy => getElem?_writeRem_of_disjoint hv (by omega)
      rw [fillLeaf, hks, keysOf_succ, hbelow, readRem, cell_writeRem_self hk, ofBytes_bytesLE]
      simp

end Fill

/-- Keys and values that fit their cells. -/
def Fit (vw kb : ℕ) (l : List (ℕ × ℕ)) : Prop := ∀ e ∈ l, e.1 < 256 ^ kb ∧ e.2 < 256 ^ vw

theorem leafBytes_holds (h : Fit vw kb l) : LeafHolds vw kb l (leafBytes vw kb l) := by
  obtain ⟨h1, h2⟩ := area_fits vw kb (le_capClass l.length)
  obtain ⟨hlen, hvs, hks⟩ := @fillLeaf_spec vw kb (keysOff vw l.length) 0
    (List.replicate (leafSize vw kb l.length) 0) l (by rw [Nat.zero_add]; omega)
    (by rw [List.length_replicate, Nat.zero_add]; omega)
  rw [Nat.zero_add] at hvs hks
  refine ⟨by rw [leafBytes, hlen, List.length_replicate], ?_, ?_⟩
  · rw [leafBytes, hvs]
    exact List.map_congr_left fun e he => Nat.mod_eq_of_lt (h e he).2
  · rw [leafBytes, hks]
    exact List.map_congr_left fun e he => Nat.mod_eq_of_lt (h e he).1

namespace LeafHolds

variable (h : LeafHolds vw kb l buf)

include h

theorem fits : keysOff vw l.length + l.length * kb ≤ buf.length := by
  rw [h.size]
  exact (area_fits vw kb (le_capClass l.length)).2

theorem readLeaf : readLeaf vw kb l.length buf = l := by
  have he : Trie32.readLeaf vw kb l.length buf =
      (keysOf (keysOff vw l.length) kb l.length buf).zip (keysOf 0 vw l.length buf) := by
    rw [Trie32.readLeaf, keysOf, keysOf, List.zip_map']
  rw [he, h.keys, h.vals]
  exact SortedAssoc.zip_fst_snd l

theorem readKey {k v : ℕ} (hi : l[i]? = some (k, v)) : readRem (keysOff vw l.length) kb buf i = k := by
  have hk : (l.map Prod.fst)[i]? = some k := by rw [List.getElem?_map, hi]; rfl
  rw [← h.keys, getElem?_keysOf, if_pos (List.getElem?_eq_some_iff.mp hi).1] at hk
  exact Option.some.inj hk

theorem readVal {k v : ℕ} (hi : l[i]? = some (k, v)) : readRem 0 vw buf i = v := by
  have hk : (l.map Prod.snd)[i]? = some v := by rw [List.getElem?_map, hi]; rfl
  rw [← h.vals, getElem?_keysOf, if_pos (List.getElem?_eq_some_iff.mp hi).1] at hk
  exact Option.some.inj hk

/-- A buffer whose areas read as those of an edited list. -/
theorem insertIdx {buf' : List ℕ} (hsize : buf'.length = leafSize vw kb (l.length + 1))
    (hpos : pos ≤ l.length) (hk : rem < 256 ^ kb) (hv : val < 256 ^ vw)
    (hvals : keysOf 0 vw (l.length + 1) buf' =
      (keysOf 0 vw l.length buf).insertIdx pos (val % 256 ^ vw))
    (hkeys : keysOf (keysOff vw (l.length + 1)) kb (l.length + 1) buf' =
      (keysOf (keysOff vw l.length) kb l.length buf).insertIdx pos (rem % 256 ^ kb)) :
    LeafHolds vw kb (l.insertIdx pos (rem, val)) buf' := by
  have hlen : (l.insertIdx pos (rem, val)).length = l.length + 1 := List.length_insertIdx_of_le_length hpos _
  refine ⟨by rw [hsize, hlen], ?_, ?_⟩
  · rw [hlen, hvals, h.vals, SortedAssoc.map_insertIdx, Nat.mod_eq_of_lt hv]
  · rw [hlen, hkeys, h.keys, SortedAssoc.map_insertIdx, Nat.mod_eq_of_lt hk]

theorem removeSpan {buf' : List ℕ} (hij : i ≤ j) (hj : j ≤ l.length)
    (hsize : buf'.length = leafSize vw kb (l.length - (j - i)))
    (hvals : keysOf 0 vw (l.length - (j - i)) buf' =
      (keysOf 0 vw l.length buf).take i ++ slice (keysOf 0 vw l.length buf) j (l.length - j))
    (hkeys : keysOf (keysOff vw (l.length - (j - i))) kb (l.length - (j - i)) buf' =
      (keysOf (keysOff vw l.length) kb l.length buf).take i ++
        slice (keysOf (keysOff vw l.length) kb l.length buf) j (l.length - j)) :
    LeafHolds vw kb (l.take i ++ l.drop j) buf' := by
  have hlen : (l.take i ++ l.drop j).length = l.length - (j - i) := by
    rw [List.length_append, List.length_take, List.length_drop]
    omega
  have hslice : ∀ xs : List ℕ, xs.length = l.length → slice xs j (l.length - j) = xs.drop j := by
    intro xs hx
    rw [slice, List.take_of_length_le (by rw [List.length_drop, hx])]
  refine ⟨by rw [hsize, hlen], ?_, ?_⟩
  · rw [hlen, hvals, hslice _ length_keysOf, h.vals, List.map_append, List.map_take, List.map_drop]
  · rw [hlen, hkeys, hslice _ length_keysOf, h.keys, List.map_append, List.map_take, List.map_drop]

theorem insertInPlace (hcls : capClass (l.length + 1) = capClass l.length) (hpos : pos ≤ l.length)
    (hk : rem < 256 ^ kb) (hv : val < 256 ^ vw) :
    LeafHolds vw kb (l.insertIdx pos (rem, val)) (insertInPlace vw kb l.length pos rem val buf) := by
  have hcap : l.length + 1 ≤ capClass l.length := hcls ▸ le_capClass _
  obtain ⟨hfv, hfk⟩ := area_fits vw kb hcap
  rw [← h.size] at hfk
  have hl : (openGap 0 vw l.length pos val buf).length = buf.length := length_openGap hpos (by omega)
  have hl' : l.length * kb ≤ (l.length + 1) * kb := Nat.mul_le_mul_right kb (by omega)
  have hoff : keysOff vw (l.length + 1) = keysOff vw l.length := by rw [keysOff, hcls, keysOff]
  refine h.insertIdx ?_ hpos hk hv ?_ ?_
  · rw [Trie32.insertInPlace, length_openGap hpos (by omega), hl, h.size, leafSize, leafSize, hcls]
  · rw [Trie32.insertInPlace, ← keysOf_openGap hpos (by omega)]
    refine keysOf_congr_bytes fun m _ hm => ?_
    exact getElem?_openGap_of_disjoint hpos (by omega) (by omega)
  · rw [Trie32.insertInPlace, hoff, keysOf_openGap hpos (by omega)]
    congr 1
    refine keysOf_congr_bytes fun m hm _ => ?_
    exact getElem?_openGap_of_disjoint hpos (by omega) (by omega)

theorem insertCopied (hpos : pos ≤ l.length) (hk : rem < 256 ^ kb) (hv : val < 256 ^ vw) :
    LeafHolds vw kb (l.insertIdx pos (rem, val)) (insertCopied vw kb l.length pos rem val buf) := by
  obtain ⟨hfv, hfk⟩ := area_fits vw kb (le_capClass (l.length + 1))
  obtain ⟨hov, hok⟩ := area_fits vw kb (le_capClass l.length)
  rw [← h.size] at hok
  have hl0 : (List.replicate (leafSize vw kb (l.length + 1)) 0).length = leafSize vw kb (l.length + 1) :=
    List.length_replicate
  have hl : (copyOpen 0 0 vw l.length pos val buf
      (List.replicate (leafSize vw kb (l.length + 1)) 0)).length = leafSize vw kb (l.length + 1) := by
    rw [length_copyOpen hpos (by omega) (by omega), hl0]
  refine h.insertIdx ?_ hpos hk hv ?_ ?_
  · rw [Trie32.insertCopied, length_copyOpen hpos (by omega) (by omega), hl]
  · have hcopy : keysOf 0 vw (l.length + 1) (copyOpen 0 0 vw l.length pos val buf
        (List.replicate (leafSize vw kb (l.length + 1)) 0)) =
        (keysOf 0 vw l.length buf).insertIdx pos (val % 256 ^ vw) :=
      keysOf_copyOpen hpos (by omega) (by omega)
    rw [← hcopy]
    refine keysOf_congr_bytes fun m _ hm => ?_
    exact getElem?_copyOpen_of_disjoint hpos (by omega) (by omega) (by omega)
  · exact keysOf_copyOpen hpos (by omega) (by omega)

theorem removeInPlace (hcls : capClass (l.length - (j - i)) = capClass l.length) (hij : i ≤ j)
    (hj : j ≤ l.length) :
    LeafHolds vw kb (l.take i ++ l.drop j) (removeInPlace vw kb l.length i j buf) := by
  obtain ⟨hfv, hfk⟩ := area_fits vw kb (le_capClass l.length)
  rw [← h.size] at hfk
  have hl : (closeGap 0 vw l.length i j buf).length = buf.length := length_closeGap hij hj (by omega)
  have hoff : keysOff vw (l.length - (j - i)) = keysOff vw l.length := by rw [keysOff, hcls, keysOff]
  refine h.removeSpan hij hj ?_ ?_ ?_
  · rw [Trie32.removeInPlace, length_closeGap hij hj (by omega), hl, h.size, leafSize, leafSize, hcls]
  · rw [Trie32.removeInPlace, ← keysOf_closeGap hij hj (by omega)]
    have hle : (l.length - (j - i)) * vw ≤ l.length * vw := Nat.mul_le_mul_right vw (by omega)
    refine keysOf_congr_bytes fun m _ hm => ?_
    exact getElem?_closeGap_of_disjoint hij hj (by omega) (by omega)
  · have hsame : keysOf (keysOff vw l.length) kb l.length (closeGap 0 vw l.length i j buf) =
        keysOf (keysOff vw l.length) kb l.length buf :=
      keysOf_congr_bytes fun m hm _ => getElem?_closeGap_of_disjoint hij hj (by omega) (by omega)
    rw [Trie32.removeInPlace, hoff, keysOf_closeGap hij hj (by omega), hsame]

theorem removeCopied (hij : i ≤ j) (hj : j ≤ l.length) :
    LeafHolds vw kb (l.take i ++ l.drop j) (removeCopied vw kb l.length i j buf) := by
  obtain ⟨hfv, hfk⟩ := area_fits vw kb (le_capClass (l.length - (j - i)))
  obtain ⟨hov, hok⟩ := area_fits vw kb (le_capClass l.length)
  rw [← h.size] at hok
  have hl0 : (List.replicate (leafSize vw kb (l.length - (j - i))) 0).length =
      leafSize vw kb (l.length - (j - i)) := List.length_replicate
  have hl : (copyClose 0 0 vw l.length i j buf
      (List.replicate (leafSize vw kb (l.length - (j - i))) 0)).length =
        leafSize vw kb (l.length - (j - i)) := by
    rw [length_copyClose hij hj (by omega) (by omega), hl0]
  refine h.removeSpan hij hj ?_ ?_ ?_
  · rw [Trie32.removeCopied, length_copyClose hij hj (by omega) (by omega), hl]
  · have hcopy : keysOf 0 vw (l.length - (j - i)) (copyClose 0 0 vw l.length i j buf
        (List.replicate (leafSize vw kb (l.length - (j - i))) 0)) =
        (keysOf 0 vw l.length buf).take i ++ slice (keysOf 0 vw l.length buf) j (l.length - j) :=
      keysOf_copyClose hij hj (by omega) (by omega)
    rw [← hcopy]
    refine keysOf_congr_bytes fun m _ hm => ?_
    exact getElem?_copyClose_of_disjoint hij hj (by omega) (by omega) (by omega)
  · exact keysOf_copyClose hij hj (by omega) (by omega)

theorem overwrite_past {at_ : ℕ} {xs : List ℕ} (hat : keysOff vw l.length + l.length * kb ≤ at_)
    (hfit : at_ + xs.length ≤ buf.length) : LeafHolds vw kb l (overwrite buf at_ xs) := by
  obtain ⟨hfv, -⟩ := area_fits vw kb (le_capClass l.length)
  refine ⟨by rw [length_overwrite hfit, h.size], ?_, ?_⟩
  · rw [← h.vals]
    refine keysOf_congr_bytes fun m _ hm => ?_
    rw [getElem?_overwrite hfit, if_neg (by omega)]
  · rw [← h.keys]
    refine keysOf_congr_bytes fun m _ hm => ?_
    rw [getElem?_overwrite hfit, if_neg (by omega)]

theorem overwriteVal {k v : ℕ} (hi : l[i]? = some (k, v)) (hv : val < 256 ^ vw) :
    LeafHolds vw kb (l.set i (k, val)) (writeRem 0 vw buf i val) := by
  obtain ⟨hlt, -⟩ := List.getElem?_eq_some_iff.mp hi
  obtain ⟨hfv, hfk⟩ := area_fits vw kb (le_capClass l.length)
  rw [← h.size] at hfk
  have h1 : i * vw + 1 * vw ≤ l.length * vw := mul_add_mul_le hlt
  have hfit : 0 + i * vw + vw ≤ buf.length := by omega
  refine ⟨by rw [length_writeRem hfit, h.size, List.length_set], ?_, ?_⟩
  · rw [List.length_set, List.map_set, ← h.vals]
    apply List.ext_getElem?
    intro m
    rw [List.getElem?_set, getElem?_keysOf, getElem?_keysOf, length_keysOf]
    by_cases hm : i = m
    · subst hm
      rw [if_pos hlt, if_pos rfl, if_pos hlt, readRem, cell_writeRem_self hfit, ofBytes_bytesLE,
        Nat.mod_eq_of_lt hv]
    · rw [if_neg hm, readRem, cell_writeRem_ne (Ne.symm hm) hfit]
      rfl
  · have hk : (l.set i (k, val)).map Prod.fst = l.map Prod.fst := by
      have hk : (l.map Prod.fst)[i]? = some k := by rw [List.getElem?_map, hi]; rfl
      rw [List.map_set, ← (List.getElem?_eq_some_iff.mp hk).2, List.set_getElem_self]
    rw [List.length_set, hk, ← h.keys]
    exact keysOf_congr_bytes fun m hm _ => getElem?_writeRem_of_disjoint hfit (by omega)

end LeafHolds

section Search

open SortedAssoc

variable {needle : ℕ} (h : LeafHolds vw kb l buf) (hs : KeySorted l)

include h hs

theorem readRem_lt_iff (hi : i < l.length) :
    readRem (keysOff vw l.length) kb buf i < needle ↔ i < lowerBound (l.map Prod.fst) needle := by
  have hget : l[i]? = some l[i] := List.getElem?_eq_getElem hi
  have hkey : (l.map Prod.fst)[i]? = some l[i].1 := by rw [List.getElem?_map, hget]; rfl
  rw [h.readKey hget]
  constructor
  · intro hlt
    by_contra hge
    exact absurd (le_of_lowerBound_le (keySorted_iff.mp hs) (not_lt.mp hge) hkey) (not_le.mpr hlt)
  · intro hlt
    exact lt_of_lt_lowerBound hlt hkey

/-- The bounds of the search enclose the position sought. -/
theorem leafLowerBoundLoop_eq {fuel lo hi : ℕ} (hlo : lo ≤ lowerBound (l.map Prod.fst) needle)
    (hhi : lowerBound (l.map Prod.fst) needle ≤ hi) (hn : hi ≤ l.length) (hf : hi ≤ lo + fuel) :
    leafLowerBoundLoop (keysOff vw l.length) kb buf needle fuel lo hi =
      lowerBound (l.map Prod.fst) needle := by
  induction fuel generalizing lo hi with
  | zero =>
    rw [leafLowerBoundLoop]
    omega
  | succ fuel ih =>
    rw [leafLowerBoundLoop]
    by_cases hlt : lo < hi
    · have hiff : readRem (keysOff vw l.length) kb buf ((lo + hi) / 2) < needle ↔
          (lo + hi) / 2 < lowerBound (l.map Prod.fst) needle := readRem_lt_iff h hs (by omega)
      rw [if_pos hlt]
      dsimp only
      by_cases hmid : readRem (keysOff vw l.length) kb buf ((lo + hi) / 2) < needle
      · rw [if_pos hmid]
        exact ih (by omega) hhi hn (by omega)
      · rw [if_neg hmid]
        exact ih hlo (by omega) (by omega) (by omega)
    · rw [if_neg hlt]
      omega

theorem leafLowerBound_eq :
    leafLowerBound (keysOff vw l.length) kb buf l.length needle = lowerBound (l.map Prod.fst) needle := by
  have hle : lowerBound (l.map Prod.fst) needle ≤ l.length := by
    rw [← List.length_map Prod.fst]
    exact lowerBound_le _ _
  exact leafLowerBoundLoop_eq h hs (by omega) hle le_rfl (by omega)

theorem leafInsertPos_eq :
    leafInsertPos (keysOff vw l.length) kb buf l.length needle = lowerBound (l.map Prod.fst) needle := by
  have hle : lowerBound (l.map Prod.fst) needle ≤ l.length := by
    rw [← List.length_map Prod.fst]
    exact lowerBound_le _ _
  rw [leafInsertPos]
  by_cases hp : 0 < l.length ∧ readRem (keysOff vw l.length) kb buf (l.length - 1) < needle
  · have := (readRem_lt_iff h hs (by omega)).mp hp.2
    rw [if_pos hp]
    omega
  · rw [if_neg hp]
    exact leafLowerBound_eq h hs

end Search

theorem openGap_zero : openGap off 0 n pos rem buf = buf := by
  simp [openGap, writeRem, copyWithin, overwrite, slice, bytesLE]

theorem closeGap_zero : closeGap off 0 n i j buf = buf := by
  simp [closeGap, copyWithin, overwrite, slice]

/-- The key area of a leaf with room to spare ends at a word of the buffer. -/
theorem words_fit (h : LeafHolds (valueWidth fl) kb l buf) (hroom : 4 ∣ capClass l.length)
    (hn : n ≤ capClass l.length) :
    4 ∣ keysOff (valueWidth fl) l.length ∧
      4 * wordsUp (keysOff (valueWidth fl) l.length + n * kb) ≤ buf.length := by
  obtain ⟨c, hc⟩ := hroom
  obtain ⟨-, hfk⟩ := area_fits (valueWidth fl) kb hn
  have h1 : 4 ∣ keysOff (valueWidth fl) l.length := by
    rw [keysOff, hc]
    exact ⟨valueWidth fl * c, by ring⟩
  have h2 : 4 ∣ leafSize (valueWidth fl) kb l.length := by
    rw [leafSize, hc]
    exact ⟨valueWidth fl * c + kb * c, by ring⟩
  rw [h.size]
  unfold wordsUp
  omega

theorem insertShared_eq (h : LeafHolds (valueWidth fl) kb l buf)
    (hcls : capClass (l.length + 1) = capClass l.length) (hpos : pos ≤ l.length)
    (hmax : (l.length + 1) * kb ≤ LEAF_KEYS_MAX) :
    insertShared fl kb l.length pos rem val buf =
      .ok (insertInPlace (valueWidth fl) kb l.length pos rem val buf) := by
  have hcap : l.length + 1 ≤ capClass l.length := hcls ▸ le_capClass _
  obtain ⟨hoff, hfit⟩ := words_fit h (four_dvd_capClass hcap) hcap
  obtain ⟨hfv, hfk⟩ := area_fits (valueWidth fl) kb hcap
  rw [← h.size] at hfk
  cases fl with
  | set =>
    rw [insertShared, insertInPlace, valueWidth, openGap_zero]
    rw [valueWidth, keysOff, Nat.zero_mul] at hoff hfit
    rw [leafKeysInsertShared_eq hpos hoff hfit hmax, keysOff, Nat.zero_mul]
  | map =>
    rw [valueWidth, VALUE_SIZE] at *
    have hl : (openGap 0 4 l.length pos val buf).length = buf.length := length_openGap hpos (by omega)
    rw [insertShared, leafValsInsertShared_eq hpos (by omega), insertInPlace, VALUE_SIZE]
    exact leafKeysInsertShared_eq hpos hoff (by rw [hl]; exact hfit) hmax

/-- The shared removal stores what the plain one stores, and clears the vacated keys. -/
theorem removeShared_holds (h : LeafHolds (valueWidth fl) kb l buf)
    (hcls : capClass (l.length - (j - i)) = capClass l.length) (hij : i < j) (hj : j ≤ l.length)
    (hmax : l.length * kb ≤ LEAF_KEYS_MAX) :
    ∃ buf', removeShared fl kb l.length i j buf = .ok buf' ∧
      LeafHolds (valueWidth fl) kb (l.take i ++ l.drop j) buf' := by
  have hroom : l.length - (j - i) < capClass (l.length - (j - i)) := by
    have := le_capClass l.length
    omega
  obtain ⟨hoff, hfit⟩ := words_fit h (hcls ▸ four_dvd_capClass hroom) (le_capClass _)
  obtain ⟨hfv, hfk⟩ := area_fits (valueWidth fl) kb (le_capClass l.length)
  have hr := h.removeInPlace hcls hij.le hj
  have hlen : (l.take i ++ l.drop j).length = l.length - (j - i) := by
    rw [List.length_append, List.length_take, List.length_drop]
    omega
  have hoff' : keysOff (valueWidth fl) (l.length - (j - i)) = keysOff (valueWidth fl) l.length := by
    rw [keysOff, hcls, keysOff]
  have hsum : (l.length - (j - i)) * kb + (j - i) * kb = l.length * kb := by
    rw [← Nat.add_mul]
    congr 1
    omega
  have hsize : (removeInPlace (valueWidth fl) kb l.length i j buf).length =
      leafSize (valueWidth fl) kb l.length := by
    rw [hr.size, hlen, leafSize, leafSize, hcls]
  refine ⟨overwrite (removeInPlace (valueWidth fl) kb l.length i j buf)
    (keysOff (valueWidth fl) l.length + (l.length - (j - i)) * kb) (List.replicate ((j - i) * kb) 0), ?_, ?_⟩
  · cases fl with
    | set =>
      rw [removeShared, removeInPlace, valueWidth, closeGap_zero]
      rw [valueWidth, keysOff, Nat.zero_mul] at hoff hfit
      rw [leafKeysRemoveShared_eq hij hj hoff hfit hmax, keysOff, Nat.zero_mul]
    | map =>
      rw [valueWidth, VALUE_SIZE] at *
      have hl : (closeGap 0 4 l.length i j buf).length = buf.length :=
        length_closeGap hij.le hj (by rw [h.size]; omega)
      rw [removeShared, leafValsRemoveShared_eq hij hj (by rw [h.size]; omega), removeInPlace, VALUE_SIZE]
      exact leafKeysRemoveShared_eq hij hj hoff (by rw [hl]; exact hfit) hmax
  · refine hr.overwrite_past ?_ ?_
    · rw [hlen, hoff']
    · rw [List.length_replicate, hsize]
      omega

end Expanse.Trie32
