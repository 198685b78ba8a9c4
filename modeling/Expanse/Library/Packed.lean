import Mathlib.Tactic
import Expanse.Library.Arrays

/-!
# Numbers packed into bytes

A packed area stores numbers of `kb` little-endian bytes one after another, from
byte `off` of a buffer on. `keysOf` reads the numbers of an area; the lemmas say how
inserting, removing and writing bytes change them. Everything is stated on the bytes
of each number, so that in-place edits and copies into a fresh buffer share one rule.
-/

namespace Expanse.Packed

open Arrays

variable {off kb k n pos i j : ℕ} {buf buf' : List ℕ}

/-- The `kb` low bytes of `k`, least significant first. -/
def bytesLE (kb k : ℕ) : List ℕ := (List.range kb).map fun j => k / 256 ^ j % 256

def ofBytes : List ℕ → ℕ
  | [] => 0
  | b :: bs => b + 256 * ofBytes bs

/-- The bytes of number `i`. -/
def cell (off kb : ℕ) (buf : List ℕ) (i : ℕ) : List ℕ := slice buf (off + i * kb) kb

/-- Number `i` of the area. -/
def readRem (off kb : ℕ) (buf : List ℕ) (i : ℕ) : ℕ := ofBytes (cell off kb buf i)

/-- Store `rem` as number `i`. -/
def writeRem (off kb : ℕ) (buf : List ℕ) (i rem : ℕ) : List ℕ :=
  overwrite buf (off + i * kb) (bytesLE kb rem)

/-- Store a list of numbers from number `i` on. -/
def writeAll (off kb : ℕ) : List ℕ → ℕ → List ℕ → List ℕ
  | buf, _, [] => buf
  | buf, i, k :: ks => writeAll off kb (writeRem off kb buf i k) (i + 1) ks

/-- The first `n` numbers of the area. -/
def keysOf (off kb n : ℕ) (buf : List ℕ) : List ℕ := (List.range n).map (readRem off kb buf)

@[simp] theorem length_bytesLE : (bytesLE kb k).length = kb := by simp [bytesLE]

@[simp] theorem length_keysOf : (keysOf off kb n buf).length = n := by simp [keysOf]

theorem bytesLE_succ : bytesLE (kb + 1) k = k % 256 :: bytesLE kb (k / 256) := by
  unfold bytesLE
  rw [List.range_succ_eq_map, List.map_cons, List.map_map]
  congr 1
  · simp
  · apply List.map_congr_left
    intro j _
    rw [Function.comp, Nat.div_div_eq_div_mul, ← Nat.pow_succ']

theorem ofBytes_bytesLE : ofBytes (bytesLE kb k) = k % 256 ^ kb := by
  induction kb generalizing k with
  | zero => simp [bytesLE, ofBytes, Nat.mod_one]
  | succ kb ih =>
    rw [bytesLE_succ, ofBytes, ih, Nat.pow_succ', Nat.mod_mul]

theorem getElem?_keysOf :
    (keysOf off kb n buf)[i]? = if i < n then some (readRem off kb buf i) else none := by
  unfold keysOf
  rw [List.getElem?_map]
  by_cases h : i < n
  · rw [if_pos h, List.getElem?_range h]
    rfl
  · rw [if_neg h, List.getElem?_eq_none (by rw [List.length_range]; omega)]
    rfl

theorem keysOf_congr (h : ∀ i < n, cell off kb buf' i = cell off kb buf i) :
    keysOf off kb n buf' = keysOf off kb n buf :=
  List.map_congr_left fun i hi => by rw [readRem, readRem, h i (List.mem_range.mp hi)]

/-- The cells around an insertion: those below `pos` stay, those from `pos` on move up by one. -/
theorem keysOf_insert {rem : ℕ} (hpos : pos ≤ n)
    (hlow : ∀ i < pos, cell off kb buf' i = cell off kb buf i)
    (hnew : cell off kb buf' pos = bytesLE kb rem)
    (hup : ∀ i, pos ≤ i → i < n → cell off kb buf' (i + 1) = cell off kb buf i) :
    keysOf off kb (n + 1) buf' = (keysOf off kb n buf).insertIdx pos (rem % 256 ^ kb) := by
  apply List.ext_getElem?
  intro m
  rw [getElem?_keysOf, List.getElem?_insertIdx, length_keysOf, getElem?_keysOf, getElem?_keysOf]
  by_cases h1 : m < pos
  · rw [if_pos h1, if_pos (by omega), if_pos (by omega), readRem, hlow m h1]
    rfl
  · rw [if_neg h1]
    by_cases h2 : m = pos
    · rw [if_pos h2, if_pos (by omega), if_pos (by omega), readRem, h2, hnew, ofBytes_bytesLE]
    · rw [if_neg h2]
      by_cases h3 : m < n + 1
      · have hm := hup (m - 1) (by omega) (by omega)
        rw [show m - 1 + 1 = m by omega] at hm
        rw [if_pos h3, if_pos (by omega), readRem, hm]
        rfl
      · rw [if_neg h3, if_neg (by omega)]

/-- The cells around a removal: those below `i` stay, those from `j` on move down. -/
theorem keysOf_remove (hij : i ≤ j) (hj : j ≤ n)
    (hlow : ∀ m < i, cell off kb buf' m = cell off kb buf m)
    (hup : ∀ m, m < n - j → cell off kb buf' (i + m) = cell off kb buf (j + m)) :
    keysOf off kb (n - (j - i)) buf' =
      (keysOf off kb n buf).take i ++ slice (keysOf off kb n buf) j (n - j) := by
  apply List.ext_getElem?
  intro m
  have hi : ((keysOf off kb n buf).take i).length = i := by
    rw [List.length_take, length_keysOf]
    omega
  rw [getElem?_keysOf]
  by_cases h1 : m < i
  · rw [if_pos (by omega), List.getElem?_append_left (by omega), List.getElem?_take, if_pos h1,
      getElem?_keysOf, if_pos (by omega), readRem, hlow m h1]
    rfl
  · rw [List.getElem?_append_right (by omega), hi, getElem?_slice, getElem?_keysOf]
    by_cases h2 : m - i < n - j
    · have hm := hup (m - i) h2
      rw [show i + (m - i) = m by omega] at hm
      rw [if_pos (by omega), if_pos h2, if_pos (by omega), readRem, hm]
      rfl
    · rw [if_neg (by omega), if_neg h2]

section Pieces

variable {as bs : List ℕ} {p m val : ℕ}

theorem two_pow_eight_mul (n : ℕ) : 2 ^ (8 * n) = 256 ^ n := by
  rw [Nat.pow_mul]

theorem ofBytes_lt (h : ∀ b ∈ bs, b < 256) : ofBytes bs < 256 ^ bs.length := by
  induction bs with
  | nil => simp [ofBytes]
  | cons b bs ih =>
    have hb := h b List.mem_cons_self
    have hbs := ih fun c hc => h c (List.mem_cons_of_mem _ hc)
    rw [ofBytes, List.length_cons, Nat.pow_succ']
    omega

theorem ofBytes_append : ofBytes (as ++ bs) = ofBytes as + 256 ^ as.length * ofBytes bs := by
  induction as with
  | nil => simp [ofBytes]
  | cons a as ih =>
    rw [List.cons_append, ofBytes, ih, ofBytes, List.length_cons, Nat.pow_succ']
    ring

theorem lor_shift (hi : i < 2 ^ n) : i ||| m <<< n = i + 2 ^ n * m := by
  rw [Nat.shiftLeft_eq, Nat.or_comm, Nat.mul_comm m, ← Nat.two_pow_add_eq_or_of_lt hi, Nat.add_comm]

theorem slice_add (buf : List ℕ) (p n m : ℕ) : slice buf p (n + m) = slice buf p n ++ slice buf (p + n) m := by
  rw [slice, slice, slice, List.take_add, List.drop_drop]

theorem mem_slice {b : ℕ} (h : b ∈ slice buf p n) : b ∈ buf :=
  List.mem_of_mem_drop (List.mem_of_mem_take h)

theorem ofBytes_slice_lt (hb : ∀ b ∈ buf, b < 256) (h : p + n ≤ buf.length) :
    ofBytes (slice buf p n) < 256 ^ n := by
  have hlt : ofBytes (slice buf p n) < 256 ^ (slice buf p n).length :=
    ofBytes_lt fun b hm => hb b (mem_slice hm)
  rwa [length_slice h] at hlt

/-- A number of `n + m` bytes from its low and its high part. -/
theorem ofBytes_slice_add (hb : ∀ b ∈ buf, b < 256) (h : p + n ≤ buf.length) :
    ofBytes (slice buf p (n + m)) =
      ofBytes (slice buf p n) ||| ofBytes (slice buf (p + n) m) <<< (8 * n) := by
  have hlt : ofBytes (slice buf p n) < 2 ^ (8 * n) := by
    rw [two_pow_eight_mul]
    exact ofBytes_slice_lt hb h
  rw [slice_add, ofBytes_append, length_slice h, lor_shift hlt, two_pow_eight_mul]

theorem bytesLE_add (n m k : ℕ) : bytesLE (n + m) k = bytesLE n k ++ bytesLE m (k >>> (8 * n)) := by
  rw [bytesLE, List.range_add, List.map_append, List.map_map]
  congr 1
  apply List.map_congr_left
  intro j _
  rw [Function.comp, Nat.shiftRight_eq_div_pow, two_pow_eight_mul, Nat.div_div_eq_div_mul, Nat.pow_add]

theorem overwrite_overwrite (h : p + as.length + bs.length ≤ buf.length) :
    overwrite (overwrite buf p as) (p + as.length) bs = overwrite buf p (as ++ bs) := by
  have hl : (overwrite buf p as).length = buf.length := length_overwrite (by omega)
  have happ : (as ++ bs).length = as.length + bs.length := List.length_append
  apply List.ext_getElem?
  intro j
  rw [getElem?_overwrite (by omega), getElem?_overwrite (by omega), getElem?_overwrite (by omega), happ]
  by_cases h1 : j < p + as.length
  · rw [if_neg (by omega)]
    by_cases h2 : p ≤ j
    · rw [if_pos (by omega), if_pos (by omega), List.getElem?_append_left (by omega)]
    · rw [if_neg (by omega), if_neg (by omega)]
  · by_cases h2 : j < p + as.length + bs.length
    · rw [if_pos (by omega), if_pos (by omega), List.getElem?_append_right (by omega)]
      congr 1
      omega
    · rw [if_neg (by omega), if_neg (by omega), if_neg (by omega)]

theorem bytesLE_ofBytes (h : ∀ b ∈ bs, b < 256) (n : ℕ) :
    bytesLE n (ofBytes bs) = bs.take n ++ List.replicate (n - bs.length) 0 := by
  induction n generalizing bs with
  | zero => simp [bytesLE]
  | succ n ih =>
    rw [bytesLE_succ]
    cases bs with
    | nil =>
      have hz : bytesLE n (ofBytes []) = [].take n ++ List.replicate (n - [].length) 0 := ih (by simp)
      rw [ofBytes] at hz ⊢
      rw [Nat.zero_mod, Nat.zero_div, hz]
      simp [List.replicate_succ]
    | cons b bs =>
      have hb := h b List.mem_cons_self
      have hmod : ofBytes (b :: bs) % 256 = b := by
        rw [ofBytes]
        omega
      have hdiv : ofBytes (b :: bs) / 256 = ofBytes bs := by
        rw [ofBytes]
        omega
      rw [hmod, hdiv, ih fun c hc => h c (List.mem_cons_of_mem _ hc), List.take_succ_cons,
        List.length_cons, Nat.add_sub_add_right, List.cons_append]

end Pieces

theorem cell_end_le (h : i < n) (hn : off + n * kb ≤ buf.length) :
    off + i * kb + kb ≤ buf.length := by
  have hmul : (i + 1) * kb ≤ n * kb := Nat.mul_le_mul_right kb h
  rw [Nat.succ_mul] at hmul
  omega

theorem cell_writeRem_self {rem : ℕ} (h : off + i * kb + kb ≤ buf.length) :
    cell off kb (writeRem off kb buf i rem) i = bytesLE kb rem := by
  have hfit : off + i * kb + (bytesLE kb rem).length ≤ buf.length := by
    rw [length_bytesLE]
    omega
  have hs := slice_overwrite_self hfit
  rwa [length_bytesLE] at hs

theorem cell_writeRem_ne {rem : ℕ} (hne : j ≠ i) (h : off + i * kb + kb ≤ buf.length) :
    cell off kb (writeRem off kb buf i rem) j = cell off kb buf j := by
  have hlen : off + i * kb + (bytesLE kb rem).length ≤ buf.length := by
    rw [length_bytesLE]
    omega
  rcases Nat.lt_or_gt_of_ne hne with hlt | hgt
  · have hmul : (j + 1) * kb ≤ i * kb := Nat.mul_le_mul_right kb hlt
    rw [Nat.succ_mul] at hmul
    exact slice_overwrite_of_le hlen (by omega)
  · have hmul : (i + 1) * kb ≤ j * kb := Nat.mul_le_mul_right kb hgt
    rw [Nat.succ_mul] at hmul
    exact slice_overwrite_of_ge hlen (by rw [length_bytesLE]; omega)

theorem length_writeRem {rem : ℕ} (h : off + i * kb + kb ≤ buf.length) :
    (writeRem off kb buf i rem).length = buf.length :=
  length_overwrite (by rw [length_bytesLE]; omega)

/-- Bytes outside the cells that are written keep their values. -/
theorem getElem?_writeRem_of_disjoint {rem m : ℕ} (h : off + i * kb + kb ≤ buf.length)
    (hm : m < off + i * kb ∨ off + i * kb + kb ≤ m) :
    (writeRem off kb buf i rem)[m]? = buf[m]? := by
  rw [writeRem, getElem?_overwrite (by rw [length_bytesLE]; omega), length_bytesLE,
    if_neg (by omega)]

theorem keysOf_succ : keysOf off kb (n + 1) buf = keysOf off kb n buf ++ [readRem off kb buf n] := by
  rw [keysOf, List.range_succ, List.map_append]
  rfl

theorem keysOf_cons (off kb n : ℕ) (buf : List ℕ) :
    keysOf off kb (n + 1) buf = readRem off kb buf 0 :: keysOf (off + kb) kb n buf := by
  unfold keysOf
  rw [List.range_succ_eq_map, List.map_cons, List.map_map]
  congr 1
  apply List.map_congr_left
  intro i _
  rw [Function.comp, readRem, readRem, cell, cell, Nat.succ_mul, Nat.add_comm (i * kb), Nat.add_assoc]

/-- Move the numbers from `pos` on up by one and store `rem` between. -/
def openGap (off kb n pos rem : ℕ) (buf : List ℕ) : List ℕ :=
  writeRem off kb (copyWithin buf (off + pos * kb) (off + n * kb) (off + (pos + 1) * kb)) pos rem

/-- Move the numbers from `j` on down to `i`. -/
def closeGap (off kb n i j : ℕ) (buf : List ℕ) : List ℕ :=
  copyWithin buf (off + j * kb) (off + n * kb) (off + i * kb)

/-- Copy an area into a buffer at `off'`, with `rem` stored between. -/
def copyOpen (off off' kb n pos rem : ℕ) (old buf : List ℕ) : List ℕ :=
  let buf := overwrite buf off' (slice old off (pos * kb))
  let buf := overwrite buf (off' + (pos + 1) * kb) (slice old (off + pos * kb) ((n - pos) * kb))
  writeRem off' kb buf pos rem

/-- Copy an area into a buffer at `off'`, without the numbers `i .. j - 1`. -/
def copyClose (off off' kb n i j : ℕ) (old buf : List ℕ) : List ℕ :=
  let buf := overwrite buf off' (slice old off (i * kb))
  overwrite buf (off' + i * kb) (slice old (off + j * kb) ((n - j) * kb))

theorem mul_add_mul_le {a b c : ℕ} (h : a + b ≤ c) : a * kb + b * kb ≤ c * kb := by
  rw [← Nat.add_mul]
  exact Nat.mul_le_mul_right kb h

/-- An area reads the same in two buffers that agree on its bytes. -/
theorem keysOf_congr_bytes (h : ∀ m, off ≤ m → m < off + n * kb → buf'[m]? = buf[m]?) :
    keysOf off kb n buf' = keysOf off kb n buf := by
  refine keysOf_congr fun i hi => slice_of_eq fun x hx => ?_
  have h1 : i * kb + 1 * kb ≤ n * kb := mul_add_mul_le hi
  exact h _ (by omega) (by omega)

/-- An area inside a part of a buffer. -/
theorem keysOf_slice (off kb n : ℕ) {m : ℕ} (buf : List ℕ) (h : n * kb ≤ m) :
    keysOf 0 kb n (slice buf off m) = keysOf off kb n buf := by
  apply List.map_congr_left
  intro i hi
  have hmul : i * kb + 1 * kb ≤ n * kb := mul_add_mul_le (List.mem_range.mp hi)
  rw [readRem, readRem, cell, cell]
  congr 1
  apply slice_of_eq
  intro j hj
  rw [getElem?_slice, if_pos (by omega)]
  congr 1
  omega

/-- The numbers of an area, put back into bytes. -/
theorem flatMap_bytesLE_keysOf (hb : ∀ b ∈ buf, b < 256) (hfit : off + n * kb ≤ buf.length) :
    (keysOf off kb n buf).flatMap (bytesLE kb) = slice buf off (n * kb) := by
  induction n generalizing off with
  | zero => simp [keysOf, slice]
  | succ n ih =>
    rw [Nat.succ_mul] at hfit
    have hl : (slice buf off kb).length = kb := length_slice (by omega)
    have hhead : bytesLE kb (readRem off kb buf 0) = slice buf off kb := by
      have h := bytesLE_ofBytes (fun b hm => hb b (mem_slice hm) : ∀ b ∈ slice buf off kb, b < 256) kb
      rw [hl, Nat.sub_self, List.replicate_zero, List.append_nil, List.take_of_length_le hl.le] at h
      rw [readRem, cell, Nat.zero_mul, Nat.add_zero, h]
    rw [keysOf_cons, List.flatMap_cons, hhead, ih (by omega), Nat.succ_mul, Nat.add_comm (n * kb), slice_add]

section Gaps

variable {off' rem m : ℕ} {old : List ℕ}

theorem length_openGap (hpos : pos ≤ n) (hfit : off + (n + 1) * kb ≤ buf.length) :
    (openGap off kb n pos rem buf).length = buf.length := by
  have h1 : pos * kb ≤ n * kb := Nat.mul_le_mul_right kb hpos
  have h2 : (pos + 1) * kb = pos * kb + kb := Nat.succ_mul pos kb
  have h3 : (n + 1) * kb = n * kb + kb := Nat.succ_mul n kb
  have hlen : (copyWithin buf (off + pos * kb) (off + n * kb) (off + (pos + 1) * kb)).length =
      buf.length := length_copyWithin (by omega) (by omega) (by omega)
  rw [openGap, length_writeRem (by omega), hlen]

theorem getElem?_openGap_of_disjoint (hpos : pos ≤ n) (hfit : off + (n + 1) * kb ≤ buf.length)
    (hm : m < off ∨ off + (n + 1) * kb ≤ m) : (openGap off kb n pos rem buf)[m]? = buf[m]? := by
  have h1 : pos * kb ≤ n * kb := Nat.mul_le_mul_right kb hpos
  have h2 : (pos + 1) * kb = pos * kb + kb := Nat.succ_mul pos kb
  have h3 : (n + 1) * kb = n * kb + kb := Nat.succ_mul n kb
  have hlen : (copyWithin buf (off + pos * kb) (off + n * kb) (off + (pos + 1) * kb)).length =
      buf.length := length_copyWithin (by omega) (by omega) (by omega)
  rw [openGap, getElem?_writeRem_of_disjoint (by omega) (by omega),
    getElem?_copyWithin (by omega) (by omega) (by omega), if_neg (by omega)]

theorem getElem?_openGap (hpos : pos ≤ n) (hfit : off + (n + 1) * kb ≤ buf.length) :
    (openGap off kb n pos rem buf)[m]? =
      if off + pos * kb ≤ m ∧ m < off + pos * kb + kb then (bytesLE kb rem)[m - (off + pos * kb)]?
      else if off + pos * kb + kb ≤ m ∧ m < off + n * kb + kb then buf[m - kb]? else buf[m]? := by
  have h1 : pos * kb ≤ n * kb := Nat.mul_le_mul_right kb hpos
  have h2 : (pos + 1) * kb = pos * kb + kb := Nat.succ_mul pos kb
  have h3 : (n + 1) * kb = n * kb + kb := Nat.succ_mul n kb
  have hlen : (copyWithin buf (off + pos * kb) (off + n * kb) (off + (pos + 1) * kb)).length =
      buf.length := length_copyWithin (by omega) (by omega) (by omega)
  rw [openGap, writeRem, getElem?_overwrite (by rw [length_bytesLE]; omega), length_bytesLE,
    getElem?_copyWithin (by omega) (by omega) (by omega)]
  by_cases hw : off + pos * kb ≤ m ∧ m < off + pos * kb + kb
  · rw [if_pos hw, if_pos hw]
  · rw [if_neg hw, if_neg hw]
    by_cases hmv : off + pos * kb + kb ≤ m ∧ m < off + n * kb + kb
    · rw [if_pos (by omega), if_pos hmv]
      congr 1
      omega
    · rw [if_neg (by omega), if_neg hmv]

theorem keysOf_openGap (hpos : pos ≤ n) (hfit : off + (n + 1) * kb ≤ buf.length) :
    keysOf off kb (n + 1) (openGap off kb n pos rem buf) =
      (keysOf off kb n buf).insertIdx pos (rem % 256 ^ kb) := by
  have h1 : pos * kb ≤ n * kb := Nat.mul_le_mul_right kb hpos
  have h2 : (pos + 1) * kb = pos * kb + kb := Nat.succ_mul pos kb
  have h3 : (n + 1) * kb = n * kb + kb := Nat.succ_mul n kb
  have hlen : (copyWithin buf (off + pos * kb) (off + n * kb) (off + (pos + 1) * kb)).length =
      buf.length := length_copyWithin (by omega) (by omega) (by omega)
  have hcell : off + pos * kb + kb ≤ (copyWithin buf (off + pos * kb) (off + n * kb)
      (off + (pos + 1) * kb)).length := by omega
  apply keysOf_insert hpos
  · intro i hi
    have h4 : i * kb + 1 * kb ≤ pos * kb := mul_add_mul_le hi
    rw [openGap, cell_writeRem_ne (by omega) hcell]
    exact slice_copyWithin_of_le (by omega) (by omega) (by omega) (by omega)
  · exact cell_writeRem_self hcell
  · intro i hi hin
    have h4 : i * kb + 1 * kb ≤ n * kb := mul_add_mul_le hin
    have h5 : pos * kb ≤ i * kb := Nat.mul_le_mul_right kb hi
    have h6 : (i + 1) * kb = i * kb + kb := Nat.succ_mul i kb
    rw [openGap, cell_writeRem_ne (by omega) hcell, cell,
      slice_copyWithin_moved (by omega) (by omega) (by omega) (by omega) (by omega), cell]
    congr 1
    omega

theorem length_closeGap (hij : i ≤ j) (hj : j ≤ n) (hfit : off + n * kb ≤ buf.length) :
    (closeGap off kb n i j buf).length = buf.length := by
  have h1 : i * kb ≤ j * kb := Nat.mul_le_mul_right kb hij
  have h2 : j * kb ≤ n * kb := Nat.mul_le_mul_right kb hj
  exact length_copyWithin (by omega) (by omega) (by omega)

theorem getElem?_closeGap_of_disjoint (hij : i ≤ j) (hj : j ≤ n) (hfit : off + n * kb ≤ buf.length)
    (hm : m < off ∨ off + n * kb ≤ m) : (closeGap off kb n i j buf)[m]? = buf[m]? := by
  have h1 : i * kb ≤ j * kb := Nat.mul_le_mul_right kb hij
  have h2 : j * kb ≤ n * kb := Nat.mul_le_mul_right kb hj
  rw [closeGap, getElem?_copyWithin (by omega) (by omega) (by omega), if_neg (by omega)]

theorem getElem?_closeGap (hij : i ≤ j) (hj : j ≤ n) (hfit : off + n * kb ≤ buf.length) :
    (closeGap off kb n i j buf)[m]? =
      if off + i * kb ≤ m ∧ m < off + i * kb + (n * kb - j * kb) then
        buf[m + (j * kb - i * kb)]? else buf[m]? := by
  have h1 : i * kb ≤ j * kb := Nat.mul_le_mul_right kb hij
  have h2 : j * kb ≤ n * kb := Nat.mul_le_mul_right kb hj
  rw [closeGap, getElem?_copyWithin (by omega) (by omega) (by omega)]
  by_cases hm : off + i * kb ≤ m ∧ m < off + i * kb + (n * kb - j * kb)
  · rw [if_pos (by omega), if_pos hm]
    congr 1
    omega
  · rw [if_neg (by omega), if_neg hm]

theorem keysOf_closeGap (hij : i ≤ j) (hj : j ≤ n) (hfit : off + n * kb ≤ buf.length) :
    keysOf off kb (n - (j - i)) (closeGap off kb n i j buf) =
      (keysOf off kb n buf).take i ++ slice (keysOf off kb n buf) j (n - j) := by
  have h1 : i * kb ≤ j * kb := Nat.mul_le_mul_right kb hij
  have h2 : j * kb ≤ n * kb := Nat.mul_le_mul_right kb hj
  apply keysOf_remove hij hj
  · intro m hm
    have h3 : m * kb + 1 * kb ≤ i * kb := mul_add_mul_le hm
    exact slice_copyWithin_of_le (by omega) (by omega) (by omega) (by omega)
  · intro m hm
    have h3 : (j + m) * kb + 1 * kb ≤ n * kb := mul_add_mul_le (by omega)
    have h4 : (j + m) * kb = j * kb + m * kb := Nat.add_mul j m kb
    have h5 : (i + m) * kb = i * kb + m * kb := Nat.add_mul i m kb
    rw [closeGap, cell, slice_copyWithin_moved (by omega) (by omega) (by omega) (by omega) (by omega),
      cell]
    congr 1
    omega

section CopyOpen

variable (hpos : pos ≤ n) (hold : off + n * kb ≤ old.length) (hfit : off' + (n + 1) * kb ≤ buf.length)

include hpos hold hfit

theorem length_copyOpen : (copyOpen off off' kb n pos rem old buf).length = buf.length := by
  have h1 : pos * kb ≤ n * kb := Nat.mul_le_mul_right kb hpos
  have h2 : (pos + 1) * kb = pos * kb + kb := Nat.succ_mul pos kb
  have h3 : (n + 1) * kb = n * kb + kb := Nat.succ_mul n kb
  have h4 : (n - pos) * kb = n * kb - pos * kb := Nat.sub_mul n pos kb
  have hl1 : (slice old off (pos * kb)).length = pos * kb := length_slice (by omega)
  have hl2 : (slice old (off + pos * kb) ((n - pos) * kb)).length = (n - pos) * kb :=
    length_slice (by omega)
  have hb1 : (overwrite buf off' (slice old off (pos * kb))).length = buf.length :=
    length_overwrite (by omega)
  have hb2 : (overwrite (overwrite buf off' (slice old off (pos * kb))) (off' + (pos + 1) * kb)
      (slice old (off + pos * kb) ((n - pos) * kb))).length =
      (overwrite buf off' (slice old off (pos * kb))).length := length_overwrite (by omega)
  rw [copyOpen, length_writeRem (by omega), hb2, hb1]

theorem getElem?_copyOpen_of_disjoint (hm : m < off' ∨ off' + (n + 1) * kb ≤ m) :
    (copyOpen off off' kb n pos rem old buf)[m]? = buf[m]? := by
  have h1 : pos * kb ≤ n * kb := Nat.mul_le_mul_right kb hpos
  have h2 : (pos + 1) * kb = pos * kb + kb := Nat.succ_mul pos kb
  have h3 : (n + 1) * kb = n * kb + kb := Nat.succ_mul n kb
  have h4 : (n - pos) * kb = n * kb - pos * kb := Nat.sub_mul n pos kb
  have hl1 : (slice old off (pos * kb)).length = pos * kb := length_slice (by omega)
  have hl2 : (slice old (off + pos * kb) ((n - pos) * kb)).length = (n - pos) * kb :=
    length_slice (by omega)
  have hb1 : (overwrite buf off' (slice old off (pos * kb))).length = buf.length :=
    length_overwrite (by omega)
  have hb2 : (overwrite (overwrite buf off' (slice old off (pos * kb))) (off' + (pos + 1) * kb)
      (slice old (off + pos * kb) ((n - pos) * kb))).length =
      (overwrite buf off' (slice old off (pos * kb))).length := length_overwrite (by omega)
  rw [copyOpen, getElem?_writeRem_of_disjoint (by omega) (by omega),
    getElem?_overwrite (by omega), if_neg (by omega), getElem?_overwrite (by omega), if_neg (by omega)]

theorem keysOf_copyOpen : keysOf off' kb (n + 1) (copyOpen off off' kb n pos rem old buf) =
    (keysOf off kb n old).insertIdx pos (rem % 256 ^ kb) := by
  have h1 : pos * kb ≤ n * kb := Nat.mul_le_mul_right kb hpos
  have h2 : (pos + 1) * kb = pos * kb + kb := Nat.succ_mul pos kb
  have h3 : (n + 1) * kb = n * kb + kb := Nat.succ_mul n kb
  have h4 : (n - pos) * kb = n * kb - pos * kb := Nat.sub_mul n pos kb
  have hl1 : (slice old off (pos * kb)).length = pos * kb := length_slice (by omega)
  have hl2 : (slice old (off + pos * kb) ((n - pos) * kb)).length = (n - pos) * kb :=
    length_slice (by omega)
  have hb1 : (overwrite buf off' (slice old off (pos * kb))).length = buf.length :=
    length_overwrite (by omega)
  have hb2 : (overwrite (overwrite buf off' (slice old off (pos * kb))) (off' + (pos + 1) * kb)
      (slice old (off + pos * kb) ((n - pos) * kb))).length =
      (overwrite buf off' (slice old off (pos * kb))).length := length_overwrite (by omega)
  refine List.ext_getElem? fun m => ?_
  rw [getElem?_keysOf, List.getElem?_insertIdx, length_keysOf, getElem?_keysOf, getElem?_keysOf]
  by_cases hlt : m < pos
  · have h5 : m * kb + 1 * kb ≤ pos * kb := mul_add_mul_le hlt
    rw [if_pos hlt, if_pos (by omega), if_pos (by omega), readRem, copyOpen,
      cell_writeRem_ne (by omega) (by omega), readRem]
    congr 2
    refine slice_of_eq fun x hx => ?_
    rw [getElem?_overwrite (by omega), if_neg (by omega), getElem?_overwrite (by omega),
      if_pos (by omega), getElem?_slice, if_pos (by omega)]
    congr 1
    omega
  · rw [if_neg hlt]
    by_cases heq : m = pos
    · rw [if_pos heq, if_pos (by omega), if_pos (by omega), readRem, copyOpen, heq,
        cell_writeRem_self (by omega), ofBytes_bytesLE]
    · rw [if_neg heq]
      by_cases hin : m < n + 1
      · have h5 : (pos + 1) * kb ≤ m * kb := Nat.mul_le_mul_right kb (by omega)
        have h6 : m * kb + 1 * kb ≤ (n + 1) * kb := mul_add_mul_le (by omega)
        have h7 : (m - 1) * kb = m * kb - 1 * kb := Nat.sub_mul m 1 kb
        rw [if_pos hin, if_pos (by omega), readRem, copyOpen, cell_writeRem_ne (by omega) (by omega),
          readRem]
        congr 2
        refine slice_of_eq fun x hx => ?_
        rw [getElem?_overwrite (by omega), if_pos (by omega), getElem?_slice, if_pos (by omega)]
        congr 1
        omega
      · rw [if_neg hin, if_neg (by omega)]

end CopyOpen

section CopyClose

variable (hij : i ≤ j) (hj : j ≤ n) (hold : off + n * kb ≤ old.length)
  (hfit : off' + (n - (j - i)) * kb ≤ buf.length)

include hij hj hold hfit

theorem length_copyClose : (copyClose off off' kb n i j old buf).length = buf.length := by
  have h1 : i * kb ≤ j * kb := Nat.mul_le_mul_right kb hij
  have h2 : j * kb ≤ n * kb := Nat.mul_le_mul_right kb hj
  have h3 : (n - j) * kb = n * kb - j * kb := Nat.sub_mul n j kb
  have h4 : (n - (j - i)) * kb = n * kb - (j * kb - i * kb) := by rw [Nat.sub_mul, Nat.sub_mul]
  have hl1 : (slice old off (i * kb)).length = i * kb := length_slice (by omega)
  have hl2 : (slice old (off + j * kb) ((n - j) * kb)).length = (n - j) * kb :=
    length_slice (by omega)
  have hb1 : (overwrite buf off' (slice old off (i * kb))).length = buf.length :=
    length_overwrite (by omega)
  rw [copyClose, length_overwrite (by omega), hb1]

theorem getElem?_copyClose_of_disjoint (hm : m < off' ∨ off' + (n - (j - i)) * kb ≤ m) :
    (copyClose off off' kb n i j old buf)[m]? = buf[m]? := by
  have h1 : i * kb ≤ j * kb := Nat.mul_le_mul_right kb hij
  have h2 : j * kb ≤ n * kb := Nat.mul_le_mul_right kb hj
  have h3 : (n - j) * kb = n * kb - j * kb := Nat.sub_mul n j kb
  have h4 : (n - (j - i)) * kb = n * kb - (j * kb - i * kb) := by rw [Nat.sub_mul, Nat.sub_mul]
  have hl1 : (slice old off (i * kb)).length = i * kb := length_slice (by omega)
  have hl2 : (slice old (off + j * kb) ((n - j) * kb)).length = (n - j) * kb :=
    length_slice (by omega)
  have hb1 : (overwrite buf off' (slice old off (i * kb))).length = buf.length :=
    length_overwrite (by omega)
  rw [copyClose, getElem?_overwrite (by omega), if_neg (by omega), getElem?_overwrite (by omega),
    if_neg (by omega)]

theorem keysOf_copyClose : keysOf off' kb (n - (j - i)) (copyClose off off' kb n i j old buf) =
    (keysOf off kb n old).take i ++ slice (keysOf off kb n old) j (n - j) := by
  have h1 : i * kb ≤ j * kb := Nat.mul_le_mul_right kb hij
  have h2 : j * kb ≤ n * kb := Nat.mul_le_mul_right kb hj
  have h3 : (n - j) * kb = n * kb - j * kb := Nat.sub_mul n j kb
  have h4 : (n - (j - i)) * kb = n * kb - (j * kb - i * kb) := by rw [Nat.sub_mul, Nat.sub_mul]
  have hl1 : (slice old off (i * kb)).length = i * kb := length_slice (by omega)
  have hl2 : (slice old (off + j * kb) ((n - j) * kb)).length = (n - j) * kb :=
    length_slice (by omega)
  have hb1 : (overwrite buf off' (slice old off (i * kb))).length = buf.length :=
    length_overwrite (by omega)
  have hi : ((keysOf off kb n old).take i).length = i := by
    rw [List.length_take, length_keysOf]
    omega
  refine List.ext_getElem? fun m => ?_
  rw [getElem?_keysOf]
  by_cases hlt : m < i
  · have h5 : m * kb + 1 * kb ≤ i * kb := mul_add_mul_le hlt
    rw [if_pos (by omega), List.getElem?_append_left (by omega), List.getElem?_take, if_pos hlt,
      getElem?_keysOf, if_pos (by omega), readRem, readRem]
    congr 2
    refine slice_of_eq fun x hx => ?_
    rw [copyClose, getElem?_overwrite (by omega), if_neg (by omega), getElem?_overwrite (by omega),
      if_pos (by omega), getElem?_slice, if_pos (by omega)]
    congr 1
    omega
  · rw [List.getElem?_append_right (by omega), hi, getElem?_slice, getElem?_keysOf]
    by_cases hin : m - i < n - j
    · have h5 : i * kb ≤ m * kb := Nat.mul_le_mul_right kb (by omega)
      have h6 : (m - i) * kb = m * kb - i * kb := Nat.sub_mul m i kb
      have h7 : (m - i) * kb + 1 * kb ≤ (n - j) * kb := mul_add_mul_le hin
      have h8 : (j + (m - i)) * kb = j * kb + (m - i) * kb := Nat.add_mul j (m - i) kb
      rw [if_pos (by omega), if_pos hin, if_pos (by omega), readRem, readRem]
      congr 2
      refine slice_of_eq fun x hx => ?_
      rw [copyClose, getElem?_overwrite (by omega), if_pos (by omega), getElem?_slice,
        if_pos (by omega)]
      congr 1
      omega
    · rw [if_neg (by omega), if_neg hin]

end CopyClose

end Gaps

end Expanse.Packed
