import Expanse.Leaf.Memory
import Expanse.Library.Lanes
import Expanse.Library.SortedAssoc

/-!
# Search kernels

A kernel loads a fixed number of bytes, compares every lane with the needle, cuts the mask to the
first `len` lanes and reads the answer off the mask. The members differ in the width of a lane, in
the bytes they load and in how the mask is taken on each architecture; a scalar loop stands in
where there is no vector form. Each member answers what a scan of the first `len` keys answers,
whatever the lanes past them hold.
-/

namespace Expanse.Leaf

open Arrays Packed Lanes Bitmap BigEndian SortedAssoc

/-- The targets with their own kernels, and the rest. -/
inductive Arch where
  | x86_64
  | aarch64
  | portable
  deriving DecidableEq, Repr

/-- A 16-byte register loaded from `n` bytes, zero above them. -/
def loadRegister (buf : List ℕ) (hay n : ℕ) : Except Fault (List ℕ) := do
  let bs ← load buf hay n
  return bs ++ List.replicate (16 - n) 0

/-- First lane of a mask that holds `s` bits for each lane, in a word of `k` bits. -/
def firstLane (k s mask : ℕ) : Option ℕ := if mask = 0 then none else some (trailingZeros k mask / s)

/-- Equality search in `n` loaded bytes as lanes of `w` bytes. -/
def searchSse2 (w n : ℕ) (buf : List ℕ) (hay len needle : ℕ) : Except Fault (Option ℕ) := do
  let t := splat w (16 / w) needle
  let h ← loadRegister buf hay n
  let mask := movemask (compareLanes (· == ·) w (16 / w) t h) &&& (2 ^ (min len (n / w) * w) - 1)
  return firstLane 32 w mask

/-- Lower bound in `n` loaded bytes as lanes of `w` bytes: both sides are biased, since the
comparison is signed. -/
def lowerBoundSse2 (w n : ℕ) (buf : List ℕ) (hay len needle : ℕ) : Except Fault ℕ := do
  let bias := splat w (16 / w) (2 ^ (8 * w - 1))
  let v ← loadRegister buf hay n
  let vSigned := xorBytes v bias
  let nSigned := splat w (16 / w) (needle ^^^ 2 ^ (8 * w - 1))
  let lt := compareLanes (signedLt w) w (16 / w) vSigned nSigned
  let mask := movemask lt &&& (2 ^ (min len (n / w) * w) - 1)
  return popcount mask / w

/-- The scalar loop over `left` lanes from lane `i` on, up to the first one that meets `stop`. -/
def scanFrom (stop : ℕ → Bool) (w : ℕ) (buf : List ℕ) (hay : ℕ) : ℕ → ℕ → Except Fault (Option ℕ)
  | 0, _ => .ok none
  | left + 1, i => do
    let val ← readUnaligned buf (hay + i * w) w
    if stop val then return some i
    scanFrom stop w buf hay left (i + 1)

def searchScan (w n : ℕ) (buf : List ℕ) (hay len needle : ℕ) : Except Fault (Option ℕ) :=
  scanFrom (· == needle) w buf hay (min len n) 0

def lowerBoundScan (w n : ℕ) (buf : List ℕ) (hay len needle : ℕ) : Except Fault ℕ := do
  let found ← scanFrom (needle ≤ ·) w buf hay (min len n) 0
  return found.getD (min len n)

/-- Four bits of the mask stand for each byte. -/
def findByte16Neon (buf : List ℕ) (hay len needle : ℕ) : Except Fault (Option ℕ) := do
  let len := min len 16
  let t := splat 1 16 needle
  let h ← load buf hay 16
  let narrowed := narrow 4 8 (compareLanes (· == ·) 1 16 t h)
  let mask := ofBytes narrowed
  let mask := if len = 16 then mask else mask &&& (2 ^ (len * 4) - 1)
  return firstLane 64 4 mask

/-- `find_byte_8` over an array of eight bytes. -/
def findByte8 (arch : Arch) (hay : List ℕ) (len needle : ℕ) : Except Fault (Option ℕ) :=
  let len := min len 8
  if len ≤ 3 then
    if 1 ≤ len ∧ hay[0]? = some needle then .ok (some 0)
    else if 2 ≤ len ∧ hay[1]? = some needle then .ok (some 1)
    else if 3 ≤ len ∧ hay[2]? = some needle then .ok (some 2)
    else .ok none
  else
    match arch with
    | .x86_64 => searchSse2 1 8 hay 0 len needle
    | .aarch64 =>
      -- eight bits of the mask stand for each byte
      let mask := ofBytes (compareLanes (· == ·) 1 8 (splat 1 8 needle) hay)
      let activeMask := if len < 8 then mask &&& (2 ^ (len * 8) - 1) else mask
      .ok (firstLane 64 8 activeMask)
    | .portable => searchScan 1 8 hay 0 len needle

def search16U8 : Arch → List ℕ → ℕ → ℕ → ℕ → Except Fault (Option ℕ)
  | .x86_64 => searchSse2 1 16
  | .aarch64 => findByte16Neon
  | .portable => searchScan 1 16

def search8U8 (arch : Arch) (buf : List ℕ) (hay len needle : ℕ) : Except Fault (Option ℕ) := do
  let bs ← load buf hay 8
  findByte8 arch bs len needle

def lowerBound8U8 : Arch → List ℕ → ℕ → ℕ → ℕ → Except Fault ℕ
  | .x86_64 => lowerBoundSse2 1 8
  | _ => lowerBoundScan 1 8

def lowerBound16U8 : Arch → List ℕ → ℕ → ℕ → ℕ → Except Fault ℕ
  | .x86_64 => lowerBoundSse2 1 16
  | _ => lowerBoundScan 1 16

def search8U16 : Arch → List ℕ → ℕ → ℕ → ℕ → Except Fault (Option ℕ)
  | .x86_64 => searchSse2 2 16
  | _ => searchScan 2 8

def lowerBound8U16 : Arch → List ℕ → ℕ → ℕ → ℕ → Except Fault ℕ
  | .x86_64 => lowerBoundSse2 2 16
  | _ => lowerBoundScan 2 8

def search4U32 : Arch → List ℕ → ℕ → ℕ → ℕ → Except Fault (Option ℕ)
  | .x86_64 => searchSse2 4 16
  | _ => searchScan 4 4

def lowerBound4U32 : Arch → List ℕ → ℕ → ℕ → ℕ → Except Fault ℕ
  | .x86_64 => lowerBoundSse2 4 16
  | _ => lowerBoundScan 4 4

variable {arch : Arch} {buf : List ℕ} {w n m k s hay len needle x i j : ℕ} {bs : List Bool}

theorem take_keysOf (h : m ≤ n) : (keysOf hay w n buf).take m = keysOf hay w m buf := by
  rw [keysOf, ← List.map_take, List.take_range, Nat.min_eq_left h, keysOf]

theorem mem_keysOf_lt (hb : ∀ b ∈ buf, b < 256) (hfit : hay + n * w ≤ buf.length)
    (hx : x ∈ keysOf hay w n buf) : x < 256 ^ w := by
  obtain ⟨i, hi, rfl⟩ := List.mem_map.mp hx
  exact ofBytes_slice_lt hb (cell_end_le (List.mem_range.mp hi) hfit)

theorem loadRegister_ok (hn : n ≤ 16) (hfit : hay + n ≤ buf.length) :
    ∃ reg, loadRegister buf hay n = .ok reg ∧ reg.length = 16 ∧
      ((∀ b ∈ buf, b < 256) → ∀ b ∈ reg, b < 256) ∧
      ∀ {w m}, m * w ≤ n → keysOf 0 w m reg = keysOf hay w m buf := by
  have hl : (slice buf hay n).length = n := length_slice hfit
  refine ⟨slice buf hay n ++ List.replicate (16 - n) 0, ?_, ?_, ?_, ?_⟩
  · rw [loadRegister, load_ok hfit]
    rfl
  · rw [List.length_append, hl, List.length_replicate]
    omega
  · intro hb b hm
    rcases List.mem_append.mp hm with hm | hm
    · exact hb b (mem_slice hm)
    · rw [List.eq_of_mem_replicate hm]
      norm_num
  · intro w m hm
    rw [← keysOf_slice hay w m buf hm]
    apply keysOf_congr_bytes
    intro j _ hj
    rw [List.getElem?_append_left (by omega)]

theorem zipWith_replicate_left (p : ℕ → ℕ → Bool) (l : List ℕ) (h : l.length = n) :
    List.zipWith p (List.replicate n x) l = l.map (p x) := by
  subst h
  induction l with
  | nil => rfl
  | cons y ys ih => rw [List.length_cons, List.replicate_succ, List.zipWith_cons_cons, ih, List.map_cons]

theorem findIdx?_beq (l : List ℕ) (needle : ℕ) :
    (l.map (needle == ·)).findIdx? id = indexOf? l needle := by
  rw [List.findIdx?_map, indexOf?]
  congr 1
  funext x
  exact BEq.comm

theorem count_map_true (l : List ℕ) (p : ℕ → Bool) : (l.map p).count true = l.countP p := by
  rw [List.count_eq_countP, List.countP_map]
  apply List.countP_congr
  intro x _
  simp

/-- The mask of an equality comparison, cut to the first `m` lanes, finds the first equal one. -/
theorem firstLane_compare {reg : List ℕ} (hs : 0 < s) (hx : needle < 256 ^ w) (hm : m ≤ n)
    (hk : s * n ≤ k) (hreg : keysOf 0 w m reg = keysOf hay w m buf) :
    firstLane k s (laneMask s ((List.zipWith (· == ·) (keysOf 0 w n (splat w n needle))
      (keysOf 0 w n reg)).take m)) = indexOf? (keysOf hay w m buf) needle := by
  have hlen : s * m ≤ k := le_trans (Nat.mul_le_mul_left s hm) hk
  rw [keysOf_splat hx, zipWith_replicate_left _ _ length_keysOf, ← List.map_take, take_keysOf hm,
    hreg, firstLane, findIdx?_laneMask hs (by rwa [List.length_map, length_keysOf]), findIdx?_beq]

theorem searchSse2_ok (hw : 0 < w) (hn : n ≤ 16) (hx : needle < 256 ^ w) (hfit : hay + n ≤ buf.length) :
    searchSse2 w n buf hay len needle = .ok (indexOf? (keysOf hay w (min len (n / w)) buf) needle) := by
  obtain ⟨reg, hreg, -, -, hkeys⟩ := loadRegister_ok hn hfit
  have hm : min len (n / w) ≤ 16 / w := le_trans (min_le_right _ _) (Nat.div_le_div_right hn)
  have hbytes : min len (n / w) * w ≤ n :=
    le_trans (Nat.mul_le_mul_right w (min_le_right _ _)) (Nat.div_mul_le_self n w)
  have hbits : w * (16 / w) ≤ 32 := le_trans (Nat.mul_div_le 16 w) (by norm_num)
  have hmask := firstLane_compare (s := w) hw hx hm hbits (hkeys hbytes)
  rw [searchSse2, hreg]
  simp only [bind, Except.bind, pure, Except.pure]
  rw [movemask_compare, laneMask_land, hmask]

theorem findByte16Neon_ok (hx : needle < 256) (hfit : hay + 16 ≤ buf.length) :
    findByte16Neon buf hay len needle = .ok (indexOf? (keysOf hay 1 (min len 16) buf) needle) := by
  have hreg : ∀ {m}, m ≤ 16 → keysOf 0 1 m (slice buf hay 16) = keysOf hay 1 m buf :=
    fun hm => keysOf_slice hay 1 _ buf (by omega)
  have hx' : needle < 256 ^ 1 := by omega
  have hlanes : (List.zipWith (fun x1 x2 : ℕ => x1 == x2) (keysOf 0 1 16 (splat 1 16 needle))
      (keysOf 0 1 16 (slice buf hay 16))).length = 2 * 8 := by
    rw [List.length_zipWith, length_keysOf, length_keysOf]
    rfl
  have hmask := ofBytes_narrow hlanes
  rw [findByte16Neon, load_ok hfit]
  simp only [bind, Except.bind, pure, Except.pure, compareLanes]
  rw [hmask, laneMask_land]
  have hle : min len 16 ≤ 16 := min_le_right _ _
  have hfirst := firstLane_compare (s := 4) (k := 64) (by norm_num) hx' hle (by norm_num) (hreg hle)
  by_cases hlen : min len 16 = 16
  · rw [if_pos hlen, ← hfirst, hlen, List.take_of_length_le (le_of_eq hlanes)]
  · rw [if_neg hlen, hfirst]

theorem scanFrom_ok (stop : ℕ → Bool) (hfit : hay + (i + m) * w ≤ buf.length) :
    scanFrom stop w buf hay m i =
      .ok (((keysOf (hay + i * w) w m buf).findIdx? stop).map (· + i)) := by
  induction m generalizing i with
  | zero => rfl
  | succ m ih =>
    have hcell : hay + i * w + w ≤ buf.length := cell_end_le (by omega) hfit
    have hread : readRem (hay + i * w) w buf 0 = ofBytes (slice buf (hay + i * w) w) := by
      rw [readRem, cell, Nat.zero_mul, Nat.add_zero]
    have hnext : hay + i * w + w = hay + (i + 1) * w := by
      rw [Nat.succ_mul, Nat.add_assoc]
    rw [scanFrom, readUnaligned_ok hcell, keysOf_cons, List.findIdx?_cons, hread, hnext]
    simp only [bind, Except.bind, pure, Except.pure]
    rw [ih (by rwa [Nat.add_right_comm])]
    cases hstop : stop (ofBytes (slice buf (hay + i * w) w)) with
    | true => simp
    | false =>
      simp only [Bool.false_eq_true, if_false, Option.map_map]
      congr 2
      funext j
      rw [Function.comp]
      omega

theorem searchScan_ok (hfit : hay + min len n * w ≤ buf.length) :
    searchScan w n buf hay len needle = .ok (indexOf? (keysOf hay w (min len n) buf) needle) := by
  rw [searchScan, scanFrom_ok _ (by rwa [Nat.zero_add]), Nat.zero_mul, Nat.add_zero]
  simp only [Nat.add_zero, Option.map_id']
  rfl

theorem zipWith_bias (hw : 0 < w) (hx : needle < 256 ^ w) {l : List ℕ} (hl : ∀ x ∈ l, x < 256 ^ w)
    (hn : l.length = n) :
    List.zipWith (signedLt w) (List.zipWith (· ^^^ ·) l (List.replicate n (2 ^ (8 * w - 1))))
      (List.replicate n (needle ^^^ 2 ^ (8 * w - 1))) = l.map fun x => decide (x < needle) := by
  subst hn
  induction l with
  | nil => rfl
  | cons x xs ih =>
    rw [List.length_cons, List.replicate_succ, List.replicate_succ, List.zipWith_cons_cons,
      List.zipWith_cons_cons, ih (fun y hy => hl y (List.mem_cons_of_mem _ hy)),
      signedLt_bias hw (hl x List.mem_cons_self) hx, List.map_cons]

theorem top_lt (hw : 0 < w) : 2 ^ (8 * w - 1) < 256 ^ w := by
  rw [← two_pow_eight_mul]
  exact Nat.pow_lt_pow_right (by norm_num) (by omega)

theorem mem_splat_lt (hx : i ∈ splat w n x) : i < 256 := by
  obtain ⟨y, -, hy⟩ := List.mem_flatMap.mp hx
  obtain ⟨j, -, rfl⟩ := List.mem_map.mp hy
  exact Nat.mod_lt _ (by norm_num)

theorem lowerBoundSse2_ok (hb : ∀ b ∈ buf, b < 256) (hw : 0 < w) (hw16 : 16 / w * w = 16) (hn : n ≤ 16)
    (hx : needle < 256 ^ w) (hfit : hay + n ≤ buf.length) :
    lowerBoundSse2 w n buf hay len needle =
      .ok ((keysOf hay w (min len (n / w)) buf).countP (· < needle)) := by
  obtain ⟨reg, hreg, hlen, hbytes, hkeys⟩ := loadRegister_ok hn hfit
  have hm : min len (n / w) ≤ 16 / w := le_trans (min_le_right _ _) (Nat.div_le_div_right hn)
  have hmw : min len (n / w) * w ≤ n :=
    le_trans (Nat.mul_le_mul_right w (min_le_right _ _)) (Nat.div_mul_le_self n w)
  have hbias : ∀ x < 256 ^ w, keysOf 0 w (16 / w) (splat w (16 / w) x) = List.replicate (16 / w) x :=
    fun x hx => keysOf_splat hx
  have hxor : needle ^^^ 2 ^ (8 * w - 1) < 256 ^ w := by
    have htop := top_lt hw
    rw [← two_pow_eight_mul] at hx htop ⊢
    exact Nat.xor_lt_two_pow hx htop
  have hlanes : ∀ x ∈ keysOf 0 w (16 / w) reg, x < 256 ^ w :=
    fun x hx => mem_keysOf_lt (hbytes hb) (by rw [hw16, hlen]) hx
  have hmask : List.zipWith (signedLt w)
      (keysOf 0 w (16 / w) (xorBytes reg (splat w (16 / w) (2 ^ (8 * w - 1)))))
      (keysOf 0 w (16 / w) (splat w (16 / w) (needle ^^^ 2 ^ (8 * w - 1)))) =
      (keysOf 0 w (16 / w) reg).map fun x => decide (x < needle) := by
    rw [keysOf_xor (hbytes hb) (fun b hm => mem_splat_lt hm) (by rw [length_splat, hlen, hw16])
      (by rw [hw16, hlen]), hbias _ (top_lt hw), hbias _ hxor]
    exact zipWith_bias hw hx hlanes length_keysOf
  have hlane : w * (min len (n / w)) ≤ 64 := by
    have hmul := Nat.mul_le_mul_left w hm
    rw [Nat.mul_comm w (16 / w), hw16] at hmul
    omega
  rw [lowerBoundSse2, hreg]
  simp only [bind, Except.bind, pure, Except.pure]
  rw [movemask_compare, laneMask_land, hmask, ← List.map_take, take_keysOf hm, hkeys hmw,
    popcount_laneMask hw (by rwa [List.length_map, length_keysOf]), count_map_true]

theorem findIdx?_getD_lowerBound (l : List ℕ) (needle : ℕ) :
    (l.findIdx? (needle ≤ ·)).getD l.length = lowerBound l needle := by
  induction l with
  | nil => rfl
  | cons x xs ih =>
    rw [List.findIdx?_cons, lowerBound, List.length_cons]
    by_cases h : needle ≤ x
    · rw [decide_eq_true h, if_pos rfl, if_pos h]
      rfl
    · rw [decide_eq_false h, if_neg h, ← ih]
      cases List.findIdx? (needle ≤ ·) xs <;> rfl

theorem lowerBoundScan_ok (hfit : hay + min len n * w ≤ buf.length) :
    lowerBoundScan w n buf hay len needle = .ok (lowerBound (keysOf hay w (min len n) buf) needle) := by
  have hl : min len n = (keysOf hay w (min len n) buf).length := length_keysOf.symm
  rw [lowerBoundScan, scanFrom_ok _ (by rwa [Nat.zero_add]), Nat.zero_mul, Nat.add_zero]
  simp only [Nat.add_zero, Option.map_id', bind, Except.bind, pure, Except.pure]
  nth_rewrite 2 [hl]
  rw [findIdx?_getD_lowerBound]

theorem keysOf_bytes (hm : m ≤ buf.length) : keysOf 0 1 m buf = buf.take m := by
  apply List.ext_getElem?
  intro i
  rw [getElem?_keysOf, List.getElem?_take]
  split_ifs with hi
  · rw [readRem, cell, slice, Nat.mul_one, Nat.zero_add, List.drop_eq_getElem_cons (by omega),
      List.getElem?_eq_getElem (by omega), List.take_succ_cons, List.take_zero, ofBytes, ofBytes,
      Nat.mul_zero, Nat.add_zero]
  · rfl

/-- The chain of comparisons over the first three bytes. -/
theorem indexOf?_short (a b c needle : ℕ) (l : List ℕ) (hm : m ≤ 3) :
    indexOf? ((a :: b :: c :: l).take m) needle =
      if 1 ≤ m ∧ a = needle then some 0
      else if 2 ≤ m ∧ b = needle then some 1
      else if 3 ≤ m ∧ c = needle then some 2
      else none := by
  interval_cases m <;> simp [indexOf?, List.findIdx?_cons]
  split_ifs <;> rfl

theorem findByte8_ok {bytes : List ℕ} (hl : bytes.length = 8) (hx : needle < 256) :
    findByte8 arch bytes len needle = .ok (indexOf? (keysOf 0 1 (min len 8) bytes) needle) := by
  have hle : min len 8 ≤ 8 := min_le_right _ _
  have hidem : min (min len 8) 8 = min len 8 := min_eq_left hle
  unfold findByte8
  dsimp only
  by_cases hshort : min len 8 ≤ 3
  · rw [if_pos hshort, keysOf_bytes (by omega)]
    match bytes, hl with
    | a :: b :: c :: l, _ =>
      rw [indexOf?_short a b c needle l hshort]
      simp only [List.getElem?_cons_zero, List.getElem?_cons_succ, Option.some.injEq]
      split_ifs <;> rfl
  · rw [if_neg hshort]
    cases arch with
    | x86_64 =>
      have h : searchSse2 1 8 bytes 0 (min len 8) needle =
          .ok (indexOf? (keysOf 0 1 (min (min len 8) (8 / 1)) bytes) needle) :=
        searchSse2_ok (by norm_num) (by norm_num) (by omega) (by omega)
      rwa [Nat.div_one, hidem] at h
    | aarch64 =>
      have hlanes : (List.zipWith (fun x1 x2 : ℕ => x1 == x2) (keysOf 0 1 8 (splat 1 8 needle))
          (keysOf 0 1 8 bytes)).length = 8 := by
        rw [List.length_zipWith, length_keysOf, length_keysOf]
        rfl
      have hx' : needle < 256 ^ 1 := by omega
      have hfirst := firstLane_compare (s := 8) (k := 64) (by norm_num) hx' hle (by norm_num)
        (show keysOf 0 1 (min len 8) bytes = keysOf 0 1 (min len 8) bytes from rfl)
      dsimp only
      rw [ofBytes_compare, laneMask_land]
      by_cases hlen : min len 8 < 8
      · rw [if_pos hlen, hfirst]
      · rw [if_neg hlen, ← hfirst, List.take_of_length_le (by omega)]
    | portable =>
      have h : searchScan 1 8 bytes 0 (min len 8) needle =
          .ok (indexOf? (keysOf 0 1 (min (min len 8) 8) bytes) needle) := searchScan_ok (by omega)
      rwa [hidem] at h

section Members

theorem search16U8_ok (hx : needle < 256) (hfit : hay + 16 ≤ buf.length) :
    search16U8 arch buf hay len needle = .ok (indexOf? (keysOf hay 1 (min len 16) buf) needle) := by
  cases arch with
  | x86_64 => exact searchSse2_ok (by norm_num) (by norm_num) (by omega) hfit
  | aarch64 => exact findByte16Neon_ok hx hfit
  | portable => exact searchScan_ok (by omega)

theorem search8U8_ok (hx : needle < 256) (hfit : hay + 8 ≤ buf.length) :
    search8U8 arch buf hay len needle = .ok (indexOf? (keysOf hay 1 (min len 8) buf) needle) := by
  have hkeys : keysOf 0 1 (min len 8) (slice buf hay 8) = keysOf hay 1 (min len 8) buf :=
    keysOf_slice hay 1 _ buf (by omega)
  rw [search8U8, load_ok hfit, ← hkeys]
  exact findByte8_ok (length_slice hfit) hx

theorem search8U16_ok (hx : needle < 256 ^ 2) (hfit : hay + 16 ≤ buf.length) :
    search8U16 arch buf hay len needle = .ok (indexOf? (keysOf hay 2 (min len 8) buf) needle) := by
  cases arch with
  | x86_64 => exact searchSse2_ok (by norm_num) (by norm_num) hx hfit
  | aarch64 => exact searchScan_ok (by omega)
  | portable => exact searchScan_ok (by omega)

theorem search4U32_ok (hx : needle < 256 ^ 4) (hfit : hay + 16 ≤ buf.length) :
    search4U32 arch buf hay len needle = .ok (indexOf? (keysOf hay 4 (min len 4) buf) needle) := by
  cases arch with
  | x86_64 => exact searchSse2_ok (by norm_num) (by norm_num) hx hfit
  | aarch64 => exact searchScan_ok (by omega)
  | portable => exact searchScan_ok (by omega)

variable (hb : ∀ b ∈ buf, b < 256)

include hb

/-- A vector form and the scalar one agree on ascending keys. -/
theorem lowerBoundSse2_sorted (hw : 0 < w) (hw16 : 16 / w * w = 16) (hn : n ≤ 16)
    (hx : needle < 256 ^ w) (hfit : hay + n ≤ buf.length)
    (hs : (keysOf hay w (min len (n / w)) buf).Pairwise (· < ·)) :
    lowerBoundSse2 w n buf hay len needle =
      .ok (lowerBound (keysOf hay w (min len (n / w)) buf) needle) := by
  rw [lowerBoundSse2_ok hb hw hw16 hn hx hfit, lowerBound_eq_countP hs]

theorem lowerBound8U8_ok (hx : needle < 256) (hfit : hay + 8 ≤ buf.length)
    (hs : (keysOf hay 1 (min len 8) buf).Pairwise (· < ·)) :
    lowerBound8U8 arch buf hay len needle = .ok (lowerBound (keysOf hay 1 (min len 8) buf) needle) := by
  cases arch with
  | x86_64 => exact lowerBoundSse2_sorted hb (by norm_num) (by norm_num) (by norm_num) (by omega) hfit hs
  | aarch64 => exact lowerBoundScan_ok (by omega)
  | portable => exact lowerBoundScan_ok (by omega)

theorem lowerBound16U8_ok (hx : needle < 256) (hfit : hay + 16 ≤ buf.length)
    (hs : (keysOf hay 1 (min len 16) buf).Pairwise (· < ·)) :
    lowerBound16U8 arch buf hay len needle = .ok (lowerBound (keysOf hay 1 (min len 16) buf) needle) := by
  cases arch with
  | x86_64 => exact lowerBoundSse2_sorted hb (by norm_num) (by norm_num) (by norm_num) (by omega) hfit hs
  | aarch64 => exact lowerBoundScan_ok (by omega)
  | portable => exact lowerBoundScan_ok (by omega)

theorem lowerBound8U16_ok (hx : needle < 256 ^ 2) (hfit : hay + 16 ≤ buf.length)
    (hs : (keysOf hay 2 (min len 8) buf).Pairwise (· < ·)) :
    lowerBound8U16 arch buf hay len needle = .ok (lowerBound (keysOf hay 2 (min len 8) buf) needle) := by
  cases arch with
  | x86_64 => exact lowerBoundSse2_sorted hb (by norm_num) (by norm_num) (by norm_num) hx hfit hs
  | aarch64 => exact lowerBoundScan_ok (by omega)
  | portable => exact lowerBoundScan_ok (by omega)

theorem lowerBound4U32_ok (hx : needle < 256 ^ 4) (hfit : hay + 16 ≤ buf.length)
    (hs : (keysOf hay 4 (min len 4) buf).Pairwise (· < ·)) :
    lowerBound4U32 arch buf hay len needle = .ok (lowerBound (keysOf hay 4 (min len 4) buf) needle) := by
  cases arch with
  | x86_64 => exact lowerBoundSse2_sorted hb (by norm_num) (by norm_num) (by norm_num) hx hfit hs
  | aarch64 => exact lowerBoundScan_ok (by omega)
  | portable => exact lowerBoundScan_ok (by omega)

end Members

end Expanse.Leaf
