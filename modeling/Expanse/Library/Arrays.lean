import Mathlib.Data.List.Basic

/-!
# Fixed-length arrays edited in place

An array is a list whose length does not change. `overwrite` stores a run of items,
`copyWithin` moves a run inside the array, and `shiftUp` and `shiftDown` move it item
by item, as a loop of single stores does. The lemmas read the edits on the live
prefix: opening a gap inserts, closing one removes.
-/

namespace Expanse.Arrays

variable {α : Type*} {buf : List α} {i j k m n : ℕ}

/-- `n` items from position `i` on. -/
def slice (buf : List α) (i n : ℕ) : List α := (buf.drop i).take n

/-- Store `xs` from position `k` on. -/
def overwrite (buf : List α) (k : ℕ) (xs : List α) : List α :=
  buf.take k ++ xs ++ buf.drop (k + xs.length)

/-- Move the items `i .. j - 1` to position `k`; the runs may overlap. -/
def copyWithin (buf : List α) (i j k : ℕ) : List α := overwrite buf k (slice buf i (j - i))

/-- Store item `n - 1` at `n`, then the one below it, down to item `i`. -/
def shiftUp (i : ℕ) : ℕ → List α → List α
  | 0, buf => buf
  | n + 1, buf =>
    if i ≤ n then
      match buf[n]? with
      | some x => shiftUp i n (buf.set (n + 1) x)
      | none => buf
    else buf

/-- Store item `i + gap` at `i`, then the one above it, `n` times. -/
def shiftDown (gap : ℕ) : ℕ → ℕ → List α → List α
  | 0, _, buf => buf
  | n + 1, i, buf =>
    match buf[i + gap]? with
    | some x => shiftDown gap n (i + 1) (buf.set i x)
    | none => buf

theorem getElem?_slice : (slice buf i n)[j]? = if j < n then buf[i + j]? else none := by
  rw [slice, List.getElem?_take, List.getElem?_drop]

theorem length_slice (h : i + n ≤ buf.length) : (slice buf i n).length = n := by
  rw [slice, List.length_take, List.length_drop]
  omega

theorem slice_of_eq {buf' : List α} (h : ∀ j < n, buf'[k + j]? = buf[i + j]?) :
    slice buf' k n = slice buf i n := by
  apply List.ext_getElem?
  intro j
  rw [getElem?_slice, getElem?_slice]
  split_ifs with hj
  · exact h j hj
  · rfl

theorem slice_append_of_le {l r : List α} (h : i + n ≤ l.length) : slice (l ++ r) i n = slice l i n := by
  rw [slice, slice, List.drop_append_of_le_length (by omega),
    List.take_append_of_le_length (by rw [List.length_drop]; omega)]

theorem slice_append_length (l r : List α) (i n : ℕ) : slice (l ++ r) (l.length + i) n = slice r i n := by
  rw [slice, slice, List.drop_append, List.drop_of_length_le (by omega), List.nil_append,
    Nat.add_sub_cancel_left]

theorem slice_zero_length (l r : List α) : slice (l ++ r) 0 l.length = l := by
  rw [slice, List.drop_zero, List.take_left]

/-- From position `i` on, the array is `l`. -/
def At (buf : List α) (i : ℕ) (l : List α) : Prop := ∃ pre, buf = pre ++ l ∧ pre.length = i

theorem at_zero (l : List α) : At l 0 l := ⟨[], rfl, rfl⟩

section At

variable {x l : List α}

theorem At.slice_eq (h : At buf i (x ++ l)) : slice buf i x.length = x := by
  obtain ⟨pre, rfl, rfl⟩ := h
  rw [← Nat.add_zero pre.length, slice_append_length, slice_zero_length]

theorem At.next (h : At buf i (x ++ l)) : At buf (i + x.length) l := by
  obtain ⟨pre, rfl, rfl⟩ := h
  exact ⟨pre ++ x, (List.append_assoc _ _ _).symm, List.length_append⟩

theorem At.length_eq (h : At buf i l) : i + l.length = buf.length := by
  obtain ⟨pre, rfl, rfl⟩ := h
  exact List.length_append.symm

end At

section Overwrite

variable {xs : List α} (h : k + xs.length ≤ buf.length)

include h

theorem length_overwrite : (overwrite buf k xs).length = buf.length := by
  rw [overwrite, List.length_append, List.length_append, List.length_take, List.length_drop]
  omega

theorem getElem?_overwrite : (overwrite buf k xs)[j]? =
    if k ≤ j ∧ j < k + xs.length then xs[j - k]? else buf[j]? := by
  have hk : (buf.take k).length = k := by
    rw [List.length_take]
    omega
  rw [overwrite, List.append_assoc]
  by_cases h1 : j < k
  · rw [List.getElem?_append_left (by omega), List.getElem?_take, if_pos h1, if_neg (by omega)]
  · rw [List.getElem?_append_right (by omega), hk]
    by_cases h2 : j < k + xs.length
    · rw [List.getElem?_append_left (by omega), if_pos (by omega)]
    · rw [List.getElem?_append_right (by omega), List.getElem?_drop, if_neg (by omega)]
      congr 1
      omega

theorem slice_overwrite_of_le (hj : j + n ≤ k) : slice (overwrite buf k xs) j n = slice buf j n :=
  slice_of_eq fun m hm => by rw [getElem?_overwrite h, if_neg (by omega)]

theorem slice_overwrite_of_ge (hj : k + xs.length ≤ j) :
    slice (overwrite buf k xs) j n = slice buf j n :=
  slice_of_eq fun m hm => by rw [getElem?_overwrite h, if_neg (by omega)]

theorem slice_overwrite_self : slice (overwrite buf k xs) k xs.length = xs := by
  apply List.ext_getElem?
  intro j
  rw [getElem?_slice]
  split_ifs with hj
  · rw [getElem?_overwrite h, if_pos (by omega), Nat.add_sub_cancel_left]
  · rw [List.getElem?_eq_none (by omega)]

end Overwrite

section CopyWithin

variable (hij : i ≤ j) (hj : j ≤ buf.length) (hk : k + (j - i) ≤ buf.length)

include hij hj hk

theorem length_copyWithin : (copyWithin buf i j k).length = buf.length := by
  rw [copyWithin, length_overwrite]
  rw [length_slice (by omega)]
  exact hk

theorem getElem?_copyWithin : (copyWithin buf i j k)[m]? =
    if k ≤ m ∧ m < k + (j - i) then buf[i + (m - k)]? else buf[m]? := by
  have hs : (slice buf i (j - i)).length = j - i := length_slice (by omega)
  rw [copyWithin, getElem?_overwrite (by omega), hs, getElem?_slice]
  split_ifs with h1 h2
  · rfl
  · omega
  · rfl

theorem slice_copyWithin_of_le (hm : m + n ≤ k) : slice (copyWithin buf i j k) m n = slice buf m n :=
  slice_of_eq fun x hx => by rw [getElem?_copyWithin hij hj hk, if_neg (by omega)]

theorem slice_copyWithin_moved (h1 : k ≤ m) (h2 : m + n ≤ k + (j - i)) :
    slice (copyWithin buf i j k) m n = slice buf (i + (m - k)) n :=
  slice_of_eq fun x hx => by
    rw [getElem?_copyWithin hij hj hk, if_pos (by omega)]
    congr 1
    omega

end CopyWithin

/-- A move and a store that touch no common item are done in either order. -/
theorem copyWithin_overwrite {p : ℕ} (hij : i ≤ j) (hj : j ≤ buf.length) (hk : k + (j - i) ≤ buf.length)
    (h : p + xs.length ≤ i) (hp : p + xs.length ≤ k) :
    copyWithin (overwrite buf p xs) i j k = overwrite (copyWithin buf i j k) p xs := by
  have hl : (overwrite buf p xs).length = buf.length := length_overwrite (by omega)
  have hcl : (copyWithin buf i j k).length = buf.length := length_copyWithin hij hj hk
  apply List.ext_getElem?
  intro m
  rw [getElem?_copyWithin hij (by omega) (by omega), getElem?_overwrite (by omega),
    getElem?_overwrite (by omega), getElem?_overwrite (by omega), getElem?_copyWithin hij hj hk]
  by_cases hm : p ≤ m ∧ m < p + xs.length
  · rw [if_neg (by omega), if_pos hm, if_pos hm]
  · rw [if_neg hm, if_neg hm]
    split_ifs with h1 h2
    · omega
    · rfl
    · rfl

/-- A block of `w` items and the run below it move up by `w` together or the block first. -/
theorem copyWithin_above_first {w : ℕ} (hij : i ≤ j) (hj : j + w + w ≤ buf.length) :
    copyWithin (copyWithin buf j (j + w) (j + w)) i j (i + w) = copyWithin buf i (j + w) (i + w) := by
  have hl : (copyWithin buf j (j + w) (j + w)).length = buf.length :=
    length_copyWithin (by omega) (by omega) (by omega)
  apply List.ext_getElem?
  intro m
  rw [getElem?_copyWithin hij (by omega) (by omega)]
  by_cases hlow : i + w ≤ m ∧ m < i + w + (j - i)
  · rw [if_pos hlow, getElem?_copyWithin (by omega) (by omega) (by omega), if_neg (by omega),
      getElem?_copyWithin (by omega) (by omega) (by omega), if_pos (by omega)]
  · rw [if_neg hlow, getElem?_copyWithin (by omega) (by omega) (by omega),
      getElem?_copyWithin (by omega) (by omega) (by omega)]
    by_cases htop : j + w ≤ m ∧ m < j + w + w
    · rw [if_pos (by omega), if_pos (by omega)]
      congr 1
      omega
    · rw [if_neg (by omega), if_neg (by omega)]

/-- A block of `w` items and the run above it move down by `w` together or the block first. -/
theorem copyWithin_below_first {w : ℕ} (hij : i + w + w ≤ j) (hj : j ≤ buf.length) :
    copyWithin (copyWithin buf (i + w) (i + w + w) i) (i + w + w) j (i + w) = copyWithin buf (i + w) j i := by
  have hl : (copyWithin buf (i + w) (i + w + w) i).length = buf.length :=
    length_copyWithin (by omega) (by omega) (by omega)
  apply List.ext_getElem?
  intro m
  rw [getElem?_copyWithin hij (by omega) (by omega)]
  by_cases hhigh : i + w ≤ m ∧ m < i + w + (j - (i + w + w))
  · rw [if_pos hhigh, getElem?_copyWithin (by omega) (by omega) (by omega), if_neg (by omega),
      getElem?_copyWithin (by omega) (by omega) (by omega), if_pos (by omega)]
    congr 1
    omega
  · rw [if_neg hhigh, getElem?_copyWithin (by omega) (by omega) (by omega),
      getElem?_copyWithin (by omega) (by omega) (by omega)]
    by_cases hbot : i ≤ m ∧ m < i + w
    · rw [if_pos (by omega), if_pos (by omega)]
    · rw [if_neg (by omega), if_neg (by omega)]

theorem getElem?_shiftUp (hn : n < buf.length) (hi : i ≤ n) : (shiftUp i n buf)[m]? =
    if i + 1 ≤ m ∧ m < n + 1 then buf[m - 1]? else buf[m]? := by
  induction n generalizing buf with
  | zero => rw [shiftUp, if_neg (by omega)]
  | succ n ih =>
    rw [shiftUp]
    by_cases hin : i ≤ n
    · rw [if_pos hin, List.getElem?_eq_getElem (by omega : n < buf.length)]
      simp only
      rw [ih (by rw [List.length_set]; omega) hin]
      by_cases hm : m = n + 1
      · subst hm
        rw [if_neg (by omega), if_pos (by omega), List.getElem?_set_self (by omega),
          Nat.add_sub_cancel, List.getElem?_eq_getElem]
      · by_cases h1 : i + 1 ≤ m ∧ m < n + 1
        · rw [if_pos h1, if_pos (by omega), List.getElem?_set_ne (by omega)]
        · rw [if_neg h1, if_neg (by omega), List.getElem?_set_ne (by omega)]
    · rw [if_neg hin, if_neg (by omega)]

theorem shiftUp_eq (hn : n < buf.length) (hi : i ≤ n) :
    shiftUp i n buf = copyWithin buf i n (i + 1) := by
  apply List.ext_getElem?
  intro m
  rw [getElem?_shiftUp hn hi, getElem?_copyWithin hi (by omega) (by omega)]
  by_cases h : i + 1 ≤ m ∧ m < n + 1
  · rw [if_pos h, if_pos (by omega)]
    congr 1
    omega
  · rw [if_neg h, if_neg (by omega)]

theorem getElem?_shiftDown {gap : ℕ} (hg : 0 < gap) (h : i + n + gap ≤ buf.length) :
    (shiftDown gap n i buf)[m]? = if i ≤ m ∧ m < i + n then buf[m + gap]? else buf[m]? := by
  induction n generalizing i buf with
  | zero => rw [shiftDown, if_neg (by omega)]
  | succ n ih =>
    rw [shiftDown, List.getElem?_eq_getElem (by omega : i + gap < buf.length)]
    simp only
    rw [ih (by rw [List.length_set]; omega)]
    by_cases hm : m = i
    · subst hm
      rw [if_neg (by omega), if_pos (by omega), List.getElem?_set_self (by omega),
        List.getElem?_eq_getElem]
    · by_cases h1 : i + 1 ≤ m ∧ m < i + 1 + n
      · rw [if_pos h1, if_pos (by omega), List.getElem?_set_ne (by omega)]
      · rw [if_neg h1, if_neg (by omega), List.getElem?_set_ne (by omega)]

theorem shiftDown_eq {gap : ℕ} (hg : 0 < gap) (h : i + n + gap ≤ buf.length) :
    shiftDown gap n i buf = copyWithin buf (i + gap) (i + gap + n) i := by
  apply List.ext_getElem?
  intro m
  rw [getElem?_shiftDown hg h, getElem?_copyWithin (by omega) (by omega) (by omega)]
  by_cases h1 : i ≤ m ∧ m < i + n
  · rw [if_pos h1, if_pos (by omega)]
    congr 1
    omega
  · rw [if_neg h1, if_neg (by omega)]

/-- Open a gap at `i` in an array with `n` live items and store into it. -/
theorem take_insert (hi : i ≤ n) (hn : n < buf.length) (x : α) :
    ((copyWithin buf i n (i + 1)).set i x).take (n + 1) = (buf.take n).insertIdx i x := by
  apply List.ext_getElem?
  intro m
  have hlen : (copyWithin buf i n (i + 1)).length = buf.length :=
    length_copyWithin hi (by omega) (by omega)
  have hcopy := getElem?_copyWithin (m := m) hi (by omega : n ≤ buf.length)
    (by omega : i + 1 + (n - i) ≤ buf.length)
  rw [List.getElem?_take, List.getElem?_insertIdx, List.length_take]
  by_cases h1 : m < i
  · rw [if_pos h1, if_pos (by omega), List.getElem?_set_ne (by omega), hcopy, if_neg (by omega),
      List.getElem?_take, if_pos (by omega)]
  · rw [if_neg h1]
    by_cases h2 : m = i
    · subst h2
      rw [if_pos (by omega), if_pos rfl, if_pos (by omega), List.getElem?_set_self (by omega)]
    · rw [if_neg h2, List.getElem?_take]
      by_cases h3 : m < n + 1
      · rw [if_pos h3, if_pos (by omega), List.getElem?_set_ne (by omega), hcopy, if_pos (by omega)]
        congr 1
        omega
      · rw [if_neg h3, if_neg (by omega)]

/-- Close the gap `i .. j - 1` in an array with `n` live items. -/
theorem take_remove (hij : i ≤ j) (hj : j ≤ n) (hn : n ≤ buf.length) :
    (copyWithin buf j n i).take (n - (j - i)) = buf.take i ++ slice buf j (n - j) := by
  apply List.ext_getElem?
  intro m
  have hcopy := getElem?_copyWithin (m := m) hj hn (by omega : i + (n - j) ≤ buf.length)
  have hi : (buf.take i).length = i := by
    rw [List.length_take]
    omega
  rw [List.getElem?_take]
  by_cases h1 : m < i
  · rw [if_pos (by omega), hcopy, if_neg (by omega), List.getElem?_append_left (by omega),
      List.getElem?_take, if_pos h1]
  · rw [List.getElem?_append_right (by omega), hi, getElem?_slice]
    by_cases h2 : m - i < n - j
    · rw [if_pos (by omega), if_pos h2, hcopy, if_pos (by omega)]
    · rw [if_neg (by omega), if_neg h2]

theorem take_append_slice_eq_eraseIdx (hi : i < n) :
    buf.take i ++ slice buf (i + 1) (n - (i + 1)) = (buf.take n).eraseIdx i := by
  rw [List.eraseIdx_eq_take_drop_succ, List.take_take, Nat.min_eq_left (Nat.le_of_lt hi), slice,
    List.drop_take]

theorem insertIdx_eq_append (hi : i ≤ buf.length) (x : α) :
    buf.insertIdx i x = buf.take i ++ x :: buf.drop i := by
  induction buf generalizing i with
  | nil =>
    obtain rfl : i = 0 := by simpa using hi
    rfl
  | cons y buf ih =>
    cases i with
    | zero => rfl
    | succ i =>
      rw [List.insertIdx_succ_cons, ih (by simpa using hi)]
      rfl

end Expanse.Arrays
