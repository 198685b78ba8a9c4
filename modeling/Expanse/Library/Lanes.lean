import Expanse.Library.Packed
import Expanse.Library.BigEndian
import Expanse.Library.BitFields

/-!
# Vector registers read as lanes

A register is a list of bytes, and its lanes are the numbers packed in it. The operations
work lane by lane: a lane of a comparison is all ones or all zeros, a signed comparison of
biased lanes is an unsigned one, and a mask taken from a comparison holds `s` equal bits for
each lane. The position of the lowest set bit of such a mask and the number of its set bits
are, divided by `s`, the first lane that compared true and the number of them.
-/

namespace Expanse.Lanes

open Arrays Packed Bitmap BigEndian

variable {w n s k x y : ℕ} {u v : List ℕ} {bs : List Bool}

/-- The register whose lanes are `xs`. -/
def register (w : ℕ) (xs : List ℕ) : List ℕ := xs.flatMap (bytesLE w)

/-- The number `x` in each of `n` lanes. -/
def splat (w n x : ℕ) : List ℕ := register w (List.replicate n x)

def xorBytes (u v : List ℕ) : List ℕ := List.zipWith (· ^^^ ·) u v

/-- The comparison of `n` lanes, as lanes of ones and zeros. -/
def compareLanes (p : ℕ → ℕ → Bool) (w n : ℕ) (u v : List ℕ) : List ℕ :=
  (List.zipWith p (keysOf 0 w n u) (keysOf 0 w n v)).flatMap fun b =>
    List.replicate w (if b then 255 else 0)

/-- A lane of `w` bytes in two's complement. -/
def signed (w x : ℕ) : ℤ := if x < 2 ^ (8 * w - 1) then x else x - 2 ^ (8 * w)

def signedLt (w x y : ℕ) : Bool := decide (signed w x < signed w y)

/-- The top bits of the bytes of a register. -/
def movemask : List ℕ → ℕ
  | [] => 0
  | b :: v => b / 128 % 2 + 2 * movemask v

/-- Lanes of two bytes shifted right by `k` bits and cut to one byte. -/
def narrow (k n : ℕ) (v : List ℕ) : List ℕ := (keysOf 0 2 n v).map fun x => x / 2 ^ k % 256

/-- `s` bits for each lane. -/
def laneMask (s : ℕ) : List Bool → ℕ
  | [] => 0
  | b :: bs => (if b then 2 ^ s - 1 else 0) + 2 ^ s * laneMask s bs

theorem keysOf_append_left (pre buf : List ℕ) (kb n : ℕ) :
    keysOf pre.length kb n (pre ++ buf) = keysOf 0 kb n buf := by
  apply List.map_congr_left
  intro i _
  rw [readRem, cell, slice_append_length, readRem, cell, Nat.zero_add]

theorem keysOf_register (w : ℕ) (xs : List ℕ) :
    keysOf 0 w xs.length (register w xs) = xs.map (· % 256 ^ w) := by
  induction xs with
  | nil => rfl
  | cons x xs ih =>
    have hhead : slice (bytesLE w x ++ register w xs) 0 w = bytesLE w x := by
      have h := slice_zero_length (bytesLE w x) (register w xs)
      rwa [length_bytesLE] at h
    have htail := keysOf_append_left (bytesLE w x) (register w xs) w xs.length
    rw [length_bytesLE, ih] at htail
    have hreg : register w (x :: xs) = bytesLE w x ++ register w xs := List.flatMap_cons
    rw [List.length_cons, keysOf_cons, Nat.zero_add, hreg, htail, readRem, cell, Nat.zero_mul,
      Nat.add_zero, hhead, ofBytes_bytesLE, List.map_cons]

theorem keysOf_splat (hx : x < 256 ^ w) : keysOf 0 w n (splat w n x) = List.replicate n x := by
  have h := keysOf_register w (List.replicate n x)
  rwa [List.length_replicate, List.map_replicate, Nat.mod_eq_of_lt hx] at h

theorem length_splat : (splat w n x).length = n * w := by
  simp [splat, register]

theorem ofBytes_xor {as bs : List ℕ} (hlen : as.length = bs.length) (ha : ∀ b ∈ as, b < 256)
    (hb : ∀ b ∈ bs, b < 256) : ofBytes (xorBytes as bs) = ofBytes as ^^^ ofBytes bs := by
  induction as generalizing bs with
  | nil =>
    cases bs with
    | nil => rfl
    | cons b bs => cases hlen
  | cons a as ih =>
    cases bs with
    | nil => cases hlen
    | cons b bs =>
      have hih := ih (Nat.succ.inj hlen) (fun c hc => ha c (List.mem_cons_of_mem _ hc))
        (fun c hc => hb c (List.mem_cons_of_mem _ hc))
      have ha' : a < 2 ^ 8 := ha a (List.mem_cons_self)
      have hb' : b < 2 ^ 8 := hb b (List.mem_cons_self)
      have hcons : ofBytes (xorBytes (a :: as) (b :: bs)) =
          (a ^^^ b) + 256 * ofBytes (xorBytes as bs) := rfl
      rw [hcons, hih, ofBytes, ofBytes]
      apply Nat.eq_of_testBit_eq
      intro i
      have hbit : ∀ c d : ℕ, c < 2 ^ 8 → (c + 256 * d).testBit i =
          if i < 8 then c.testBit i else d.testBit (i - 8) := by
        intro c d hc
        rw [Nat.add_comm]
        exact Nat.testBit_two_pow_mul_add d hc i
      rw [Nat.testBit_xor, hbit _ _ (Nat.xor_lt_two_pow ha' hb'), hbit _ _ ha', hbit _ _ hb']
      split_ifs
      · rw [Nat.testBit_xor]
      · rw [Nat.testBit_xor]

theorem keysOf_xor (hu : ∀ b ∈ u, b < 256) (hv : ∀ b ∈ v, b < 256) (hlen : u.length = v.length)
    (hn : n * w ≤ u.length) :
    keysOf 0 w n (xorBytes u v) = List.zipWith (· ^^^ ·) (keysOf 0 w n u) (keysOf 0 w n v) := by
  apply List.ext_getElem?
  intro i
  rw [List.getElem?_zipWith, getElem?_keysOf, getElem?_keysOf, getElem?_keysOf]
  by_cases hi : i < n
  · have hmul : i * w + 1 * w ≤ n * w := mul_add_mul_le hi
    have hslice : cell 0 w (xorBytes u v) i = xorBytes (cell 0 w u i) (cell 0 w v i) := by
      rw [cell, cell, cell, slice, slice, slice, xorBytes, xorBytes, List.drop_zipWith,
        List.take_zipWith]
    rw [if_pos hi, if_pos hi, if_pos hi, readRem, hslice, ofBytes_xor]
    · rfl
    · rw [cell, cell, length_slice (by omega), length_slice (by omega)]
    · exact fun b hb => hu b (List.mem_of_mem_drop (List.mem_of_mem_take hb))
    · exact fun b hb => hv b (List.mem_of_mem_drop (List.mem_of_mem_take hb))
  · rw [if_neg hi, if_neg hi, if_neg hi]

theorem xor_top (hx : x < 2 ^ (k + 1)) : x ^^^ 2 ^ k = if x < 2 ^ k then x + 2 ^ k else x - 2 ^ k := by
  have hadd : ∀ r, r < 2 ^ k → r ^^^ 2 ^ k = r + 2 ^ k := by
    intro r hr
    have hsum : r + 2 ^ k = 2 ^ k * 1 + r := by omega
    apply Nat.eq_of_testBit_eq
    intro i
    rw [hsum, Nat.testBit_two_pow_mul_add 1 hr, Nat.testBit_xor, Nat.testBit_two_pow]
    split_ifs with hi
    · rw [decide_eq_false (by omega), Bool.xor_false]
    · rw [Nat.testBit_lt_two_pow (lt_of_lt_of_le hr (Nat.pow_le_pow_right (by norm_num) (by omega))),
        Bool.false_xor, ← Nat.pow_zero 2, Nat.testBit_two_pow]
      exact decide_eq_decide.mpr (by omega)
  by_cases h : x < 2 ^ k
  · rw [if_pos h, hadd x h]
  · have hr : x - 2 ^ k < 2 ^ k := by
      rw [Nat.pow_succ] at hx
      omega
    have hxr : x = (x - 2 ^ k) ^^^ 2 ^ k := by
      rw [hadd _ hr]
      omega
    rw [if_neg h]
    nth_rewrite 1 [hxr]
    rw [Nat.xor_assoc, Nat.xor_self, Nat.xor_zero]

/-- Flipping the top bit of a lane subtracts half of its range. -/
theorem signed_bias (hw : 0 < w) (hx : x < 256 ^ w) :
    signed w (x ^^^ 2 ^ (8 * w - 1)) = (x : ℤ) - 2 ^ (8 * w - 1) := by
  have hpow : (256 : ℕ) ^ w = 2 ^ (8 * w - 1 + 1) := by
    rw [show (256 : ℕ) = 2 ^ 8 from rfl, ← Nat.pow_mul, Nat.sub_add_cancel (by omega)]
  rw [hpow] at hx
  have htwo : (2 : ℤ) ^ (8 * w) = 2 * 2 ^ (8 * w - 1) := by
    rw [← pow_succ', Nat.sub_add_cancel (by omega)]
  rw [Nat.pow_succ] at hx
  rw [signed, xor_top (by rwa [Nat.pow_succ]), htwo]
  by_cases h : x < 2 ^ (8 * w - 1)
  · rw [if_pos h, if_neg (by omega)]
    push_cast
    ring
  · rw [if_neg h, if_pos (by omega), Nat.cast_sub (by omega)]
    push_cast
    ring

theorem signedLt_bias (hw : 0 < w) (hx : x < 256 ^ w) (hy : y < 256 ^ w) :
    signedLt w (x ^^^ 2 ^ (8 * w - 1)) (y ^^^ 2 ^ (8 * w - 1)) = decide (x < y) := by
  rw [signedLt, signed_bias hw hx, signed_bias hw hy]
  apply decide_eq_decide.mpr
  omega

theorem laneMask_land (s : ℕ) (bs : List Bool) (n : ℕ) :
    laneMask s bs &&& (2 ^ (n * s) - 1) = laneMask s (bs.take n) := by
  rw [Nat.and_two_pow_sub_one_eq_mod]
  induction bs generalizing n with
  | nil => simp [laneMask]
  | cons b bs ih =>
    cases n with
    | zero => simp [laneMask, Nat.mod_one]
    | succ n =>
      have hb : (if b then 2 ^ s - 1 else 0) < 2 ^ s := by
        have := Nat.two_pow_pos s
        split_ifs <;> omega
      rw [List.take_succ_cons, laneMask, laneMask, ← ih, Nat.succ_mul, Nat.add_comm (n * s), Nat.pow_add,
        Nat.mod_mul, Nat.add_mul_mod_self_left, Nat.mod_eq_of_lt hb,
          Nat.add_mul_div_left _ _ (Nat.two_pow_pos s),
        Nat.div_eq_of_lt hb, Nat.zero_add]

theorem laneMask_eq_zero_iff (hs : 0 < s) : laneMask s bs = 0 ↔ ∀ b ∈ bs, b = false := by
  have hpos : 1 < 2 ^ s := Nat.one_lt_two_pow (by omega)
  induction bs with
  | nil => simp [laneMask]
  | cons b bs ih =>
    rw [laneMask, List.forall_mem_cons]
    cases b with
    | true =>
      simp only [if_true, Bool.true_eq_false, false_and, iff_false]
      omega
    | false => simp [ih]

theorem trailingZeros_laneMask (hs : 0 < s) (hk : s * bs.length ≤ k) (h : laneMask s bs ≠ 0) :
    trailingZeros k (laneMask s bs) = s * bs.findIdx id := by
  induction bs generalizing k with
  | nil => exact absurd rfl h
  | cons b bs ih =>
    rw [List.length_cons, Nat.mul_succ] at hk
    rw [List.findIdx_cons]
    cases b with
    | true =>
      obtain ⟨k, rfl⟩ : ∃ k', k = k' + 1 := ⟨k - 1, by omega⟩
      have hodd : laneMask s (true :: bs) % 2 = 1 := by
        obtain ⟨r, rfl⟩ : ∃ r, s = r + 1 := ⟨s - 1, by omega⟩
        have hpos := Nat.two_pow_pos r
        rw [laneMask, if_pos rfl, Nat.pow_succ', Nat.mul_assoc, Nat.add_mul_mod_self_left]
        omega
      rw [trailingZeros, if_pos hodd]
      rfl
    | false =>
      have hmask : laneMask s (false :: bs) = laneMask s bs * 2 ^ s := by
        rw [laneMask, if_neg (by decide), Nat.zero_add, Nat.mul_comm]
      have hne : laneMask s bs ≠ 0 := by
        intro h0
        apply h
        rw [hmask, h0, Nat.zero_mul]
      have hsplit : k = k - s + s := by omega
      rw [hmask, hsplit, trailingZeros_mul, ih (by omega) hne]
      simp only [id_eq, cond_false]
      rw [Nat.mul_succ]

/-- The first lane that compared true, from the lowest set bit of the mask. -/
theorem findIdx?_laneMask (hs : 0 < s) (hk : s * bs.length ≤ k) :
    (if laneMask s bs = 0 then none else some (trailingZeros k (laneMask s bs) / s)) =
      bs.findIdx? id := by
  by_cases h : laneMask s bs = 0
  · rw [if_pos h, eq_comm, List.findIdx?_eq_none_iff]
    exact (laneMask_eq_zero_iff hs).mp h
  · have hany : ∃ b ∈ bs, id b = true := by
      by_contra hno
      apply h
      rw [laneMask_eq_zero_iff hs]
      intro b hb
      by_contra hb'
      exact hno ⟨b, hb, Bool.eq_true_of_not_eq_false hb'⟩
    rw [if_neg h, trailingZeros_laneMask hs hk h, Nat.mul_div_cancel_left _ hs, eq_comm,
      List.findIdx?_eq_some_iff_findIdx_eq]
    exact ⟨List.findIdx_lt_length_of_exists hany, rfl⟩

/-- The set bits of `w` low bits. -/
def bitCount (w word : ℕ) : ℕ := ((List.range w).filter word.testBit).length

theorem bitCount_add (hx : x < 2 ^ s) : bitCount (s + k) (x + 2 ^ s * y) = bitCount s x + bitCount k y := by
  have hlow : (List.range s).filter (x + 2 ^ s * y).testBit = (List.range s).filter x.testBit := by
    apply List.filter_congr
    intro i hi
    rw [Nat.add_comm, Nat.testBit_two_pow_mul_add y hx, if_pos (List.mem_range.mp hi)]
  have hhigh : (List.range k).filter ((x + 2 ^ s * y).testBit ∘ (s + ·)) =
      (List.range k).filter y.testBit := by
    apply List.filter_congr
    intro i _
    rw [Function.comp, Nat.add_comm x, Nat.testBit_two_pow_mul_add y hx, if_neg (by omega),
      Nat.add_sub_cancel_left]
  rw [bitCount, List.range_add, List.filter_append, List.length_append, List.filter_map,
    List.length_map, hlow, hhigh, bitCount, bitCount]

theorem bitCount_zero (w : ℕ) : bitCount w 0 = 0 := by simp [bitCount]

theorem bitCount_ones (s : ℕ) : bitCount s (2 ^ s - 1) = s := by
  have h : (List.range s).filter (2 ^ s - 1).testBit = List.range s := by
    rw [List.filter_eq_self]
    intro i hi
    rw [Nat.testBit_two_pow_sub_one]
    exact decide_eq_true (List.mem_range.mp hi)
  rw [bitCount, h, List.length_range]

theorem bitCount_laneMask (hk : s * bs.length ≤ k) : bitCount k (laneMask s bs) = s * bs.count true := by
  induction bs generalizing k with
  | nil => rw [laneMask, bitCount_zero, List.count_nil, Nat.mul_zero]
  | cons b bs ih =>
    rw [List.length_cons, Nat.mul_succ] at hk
    have hsplit : k = s + (k - s) := by omega
    have hpos := Nat.two_pow_pos s
    cases b with
    | true =>
      rw [laneMask, if_pos rfl, hsplit, bitCount_add (by omega), bitCount_ones, ih (by omega),
        List.count_cons_self, Nat.mul_succ, Nat.add_comm]
    | false =>
      rw [laneMask, if_neg (by decide), hsplit, bitCount_add hpos, bitCount_zero, ih (by omega),
        List.count_cons_of_ne (by decide), Nat.zero_add]

theorem popcount_laneMask (hs : 0 < s) (hk : s * bs.length ≤ 64) :
    popcount (laneMask s bs) / s = bs.count true := by
  have h := bitCount_laneMask hk
  rw [bitCount] at h
  rw [popcount, h, Nat.mul_div_cancel_left _ hs]

theorem movemask_replicate (w b : ℕ) (v : List ℕ) :
    movemask (List.replicate w b ++ v) =
      (if b / 128 % 2 = 1 then 2 ^ w - 1 else 0) + 2 ^ w * movemask v := by
  induction w with
  | zero => simp
  | succ w ih =>
    have hpos := Nat.two_pow_pos w
    rw [List.replicate_succ, List.cons_append, movemask, ih, Nat.pow_succ', Nat.mul_assoc]
    split_ifs with h
    · rw [h]
      omega
    · omega

theorem movemask_compare (p : ℕ → ℕ → Bool) (w n : ℕ) (u v : List ℕ) :
    movemask (compareLanes p w n u v) = laneMask w (List.zipWith p (keysOf 0 w n u) (keysOf 0 w n v)) := by
  rw [compareLanes]
  induction List.zipWith p (keysOf 0 w n u) (keysOf 0 w n v) with
  | nil => rfl
  | cons b bs ih =>
    rw [List.flatMap_cons, movemask_replicate, ih, laneMask]
    cases b <;> rfl

theorem ofBytes_compare (p : ℕ → ℕ → Bool) (n : ℕ) (u v : List ℕ) :
    ofBytes (compareLanes p 1 n u v) = laneMask 8 (List.zipWith p (keysOf 0 1 n u) (keysOf 0 1 n v)) := by
  rw [compareLanes]
  induction List.zipWith p (keysOf 0 1 n u) (keysOf 0 1 n v) with
  | nil => rfl
  | cons b bs ih =>
    rw [List.flatMap_cons, List.replicate_one, List.singleton_append, ofBytes, ih, laneMask]
    cases b <;> rfl

/-- Four bits of each byte of a comparison, by narrowing pairs of bytes. -/
theorem ofBytes_narrow (hn : bs.length = 2 * n) :
    ofBytes (narrow 4 n (bs.flatMap fun b => List.replicate 1 (if b then 255 else 0))) =
      laneMask 4 bs := by
  induction n generalizing bs with
  | zero =>
    rw [List.eq_nil_of_length_eq_zero hn]
    rfl
  | succ n ih =>
    match bs, hn with
    | a :: b :: bs, hn =>
      rw [List.length_cons, List.length_cons] at hn
      have htail := keysOf_append_left [if a then 255 else 0, if b then 255 else 0]
        (bs.flatMap fun b => List.replicate 1 (if b then 255 else 0)) 2 n
      have hih : ofBytes (narrow 4 n (bs.flatMap fun b => List.replicate 1 (if b then 255 else 0))) =
          laneMask 4 bs := ih (by omega)
      rw [narrow] at hih
      simp only [List.length_cons, List.length_nil, Nat.zero_add, Nat.reduceAdd] at htail
      rw [narrow, keysOf_cons, List.map_cons, ofBytes]
      simp only [List.flatMap_cons, List.replicate_one, List.singleton_append, Nat.zero_add]
      simp only [List.replicate_one, List.cons_append, List.nil_append] at htail hih
      rw [htail, hih, laneMask, laneMask]
      cases a <;> cases b <;> simp [readRem, cell, slice, ofBytes] <;> omega

end Expanse.Lanes
