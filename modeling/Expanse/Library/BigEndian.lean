import Mathlib.Tactic
import Mathlib.Order.Lex
import Mathlib.Data.List.Lex
import Mathlib.Data.Nat.Bitwise
import Expanse.Library.Packed

/-!
# Byte strings cut into big-endian words

A string of bytes is read `n` bytes at a time, each group as one big-endian number
padded with zero bytes. On strings without a zero byte the numbers compare as the
strings do, and a zero byte in the number says that the string ended inside it.
The last section is the branch-free test for such a byte.
-/

namespace Expanse.BigEndian

open Packed

variable {n m c b : ℕ} {s t : List ℕ}

/-- The number of the first `n` bytes, with zero bytes where the string has ended. -/
def pack : ℕ → List ℕ → ℕ
  | 0, _ => 0
  | _ + 1, [] => 0
  | n + 1, b :: s => b * 256 ^ n + pack n s

/-- The `n` bytes of a number, most significant first. -/
def unpack (n c : ℕ) : List ℕ := (bytesLE n c).reverse

/-- Bytes of a string that has no zero byte. -/
def NulFree (s : List ℕ) : Prop := ∀ b ∈ s, 0 < b ∧ b < 256

instance (s : List ℕ) : Decidable (NulFree s) := inferInstanceAs (Decidable (∀ b ∈ s, _))

theorem nulFree_nil : NulFree [] := by simp [NulFree]

theorem NulFree.tail (h : NulFree (b :: s)) : NulFree s := fun x hx => h x (List.mem_cons_of_mem b hx)

theorem NulFree.head (h : NulFree (b :: s)) : 0 < b ∧ b < 256 := h b List.mem_cons_self

theorem NulFree.drop (h : NulFree s) (n : ℕ) : NulFree (s.drop n) :=
  fun x hx => h x (List.mem_of_mem_drop hx)

theorem NulFree.append (hs : NulFree s) (ht : NulFree t) : NulFree (s ++ t) := by
  intro x hx
  rcases List.mem_append.mp hx with hx | hx
  · exact hs x hx
  · exact ht x hx

@[simp] theorem length_unpack : (unpack n c).length = n := by simp [unpack]

theorem unpack_succ : unpack (n + 1) c = c / 256 ^ n % 256 :: unpack n c := by
  unfold unpack bytesLE
  rw [List.range_succ, List.map_append, List.reverse_append]
  rfl

theorem unpack_concat : unpack (n + 1) c = unpack n (c / 256) ++ [c % 256] := by
  unfold unpack
  rw [bytesLE_succ, List.reverse_cons]

theorem unpack_mul_add (b x : ℕ) : unpack n (b * 256 ^ n + x) = unpack n x := by
  induction n generalizing x with
  | zero => rfl
  | succ n ih =>
    have hsplit : b * 256 ^ (n + 1) + x = 256 * (b * 256 ^ n) + x := by rw [Nat.pow_succ']; ring
    have hdiv : (b * 256 ^ (n + 1) + x) / 256 = b * 256 ^ n + x / 256 := by
      rw [hsplit, Nat.mul_add_div (by norm_num)]
    have hmod : (b * 256 ^ (n + 1) + x) % 256 = x % 256 := by
      rw [hsplit, Nat.mul_add_mod]
    rw [unpack_concat, unpack_concat, hdiv, hmod, ih]

theorem pack_nil : pack n [] = 0 := by
  cases n <;> rfl

theorem pack_lt (h : NulFree s) : pack n s < 256 ^ n := by
  induction n generalizing s with
  | zero => simp [pack]
  | succ n ih =>
    cases s with
    | nil =>
      rw [pack_nil]
      positivity
    | cons b s =>
      have hb := h.head.2
      have hs := ih h.tail
      rw [pack, Nat.pow_succ']
      nlinarith

theorem unpack_pack_cons (h : NulFree (b :: s)) :
    unpack (n + 1) (pack (n + 1) (b :: s)) = b :: unpack n (pack n s) := by
  have hlt := pack_lt (n := n) h.tail
  rw [unpack_succ, pack, unpack_mul_add, Nat.mul_comm b, Nat.mul_add_div (by positivity),
    Nat.div_eq_of_lt hlt, Nat.add_zero, Nat.mod_eq_of_lt h.head.2]

theorem unpack_zero : unpack n 0 = List.replicate n 0 := by
  induction n with
  | zero => rfl
  | succ n ih =>
    rw [unpack_succ, ih, Nat.zero_div, List.replicate_succ]

theorem unpack_pack (h : NulFree s) :
    unpack n (pack n s) = s.take n ++ List.replicate (n - s.length) 0 := by
  induction n generalizing s with
  | zero => simp [unpack, bytesLE]
  | succ n ih =>
    cases s with
    | nil => simp [pack_nil, unpack_zero]
    | cons b s =>
      rw [unpack_pack_cons h, ih h.tail]
      simp

theorem pack_unpack (hc : c < 256 ^ n) (t : List ℕ) : pack n (unpack n c ++ t) = c := by
  induction n generalizing c with
  | zero =>
    rw [pack]
    omega
  | succ n ih =>
    have hq : c / 256 ^ n < 256 := by
      rw [Nat.div_lt_iff_lt_mul (by positivity), ← Nat.pow_succ']
      exact hc
    have hr : unpack n c = unpack n (c % 256 ^ n) := by
      conv_lhs => rw [← Nat.div_add_mod c (256 ^ n), Nat.mul_comm, unpack_mul_add]
    rw [unpack_succ, List.cons_append, pack, hr, ih (Nat.mod_lt _ (by positivity)),
      Nat.mod_eq_of_lt hq, Nat.mul_comm, Nat.div_add_mod]

theorem pack_take (n : ℕ) (s : List ℕ) : pack n (s.take n) = pack n s := by
  induction n generalizing s with
  | zero => rfl
  | succ n ih =>
    cases s with
    | nil => rfl
    | cons b s => rw [List.take_succ_cons, pack, pack, ih]

/-- Some byte of the word is zero. -/
def HasZero (n c : ℕ) : Prop := 0 ∈ unpack n c

instance (n c : ℕ) : Decidable (HasZero n c) := inferInstanceAs (Decidable (0 ∈ unpack n c))

theorem hasZero_pack (h : NulFree s) : HasZero n (pack n s) ↔ s.length < n := by
  unfold HasZero
  rw [unpack_pack h, List.mem_append, List.mem_replicate]
  constructor
  · rintro (hm | hm)
    · exact absurd (h 0 (List.mem_of_mem_take hm)).1 (Nat.lt_irrefl 0)
    · omega
  · intro hlt
    exact .inr ⟨by omega, rfl⟩

theorem unpack_pack_of_le (h : NulFree s) (hn : n ≤ s.length) : unpack n (pack n s) = s.take n := by
  rw [unpack_pack h, Nat.sub_eq_zero_of_le hn, List.replicate_zero, List.append_nil]

theorem nulFree_unpack (hz : ¬ HasZero n c) : NulFree (unpack n c) := by
  intro b hb
  refine ⟨Nat.pos_of_ne_zero fun h0 => hz (show 0 ∈ unpack n c from h0 ▸ hb), ?_⟩
  unfold unpack bytesLE at hb
  rw [List.mem_reverse, List.mem_map] at hb
  obtain ⟨j, -, rfl⟩ := hb
  exact Nat.mod_lt _ (by norm_num)

theorem unpack_append_drop (h : NulFree s) (hn : n ≤ s.length) :
    unpack n (pack n s) ++ s.drop n = s := by
  rw [unpack_pack_of_le h hn, List.take_append_drop]

theorem pack_eq_iff (hs : NulFree s) (ht : NulFree t) :
    pack n s = pack n t ↔ s.take n = t.take n := by
  induction n generalizing s t with
  | zero => simp [pack]
  | succ n ih =>
    cases s with
    | nil =>
      cases t with
      | nil => simp
      | cons b t =>
        have hb := ht.head.1
        have hp : 0 < b * 256 ^ n := by positivity
        simp only [pack, List.take_nil, List.take_succ_cons]
        constructor
        · intro h0
          omega
        · intro h0
          simp at h0
    | cons a s =>
      cases t with
      | nil =>
        have ha := hs.head.1
        have hp : 0 < a * 256 ^ n := by positivity
        simp only [pack, List.take_nil, List.take_succ_cons]
        constructor
        · intro h0
          omega
        · intro h0
          simp at h0
      | cons b t =>
        have hl := pack_lt (n := n) hs.tail
        have hr := pack_lt (n := n) ht.tail
        rw [List.take_succ_cons, List.take_succ_cons, List.cons.injEq, ← ih hs.tail ht.tail, pack, pack]
        constructor
        · intro heq
          have hab : a = b := by
            have h1 := congrArg (· / 256 ^ n) heq
            simp only [Nat.mul_comm _ (256 ^ n), Nat.mul_add_div (show 0 < 256 ^ n by positivity),
              Nat.div_eq_of_lt hl, Nat.div_eq_of_lt hr, Nat.add_zero] at h1
            exact h1
          subst hab
          exact ⟨rfl, Nat.add_left_cancel heq⟩
        · rintro ⟨rfl, h2⟩
          rw [h2]

/-- Words of strings without a zero byte compare as the strings do. -/
theorem lt_of_pack_lt (hs : NulFree s) (ht : NulFree t) (h : pack n s < pack n t) : s < t := by
  induction n generalizing s t with
  | zero => simp [pack] at h
  | succ n ih =>
    cases t with
    | nil =>
      rw [pack_nil] at h
      omega
    | cons b t =>
      cases s with
      | nil => exact List.nil_lt_cons b t
      | cons a s =>
        have hl := pack_lt (n := n) hs.tail
        have hr := pack_lt (n := n) ht.tail
        rw [pack, pack] at h
        rw [List.cons_lt_cons_iff]
        rcases Nat.lt_trichotomy a b with hab | rfl | hab
        · exact .inl hab
        · exact .inr ⟨rfl, ih hs.tail ht.tail (by omega)⟩
        · exfalso
          have : b * 256 ^ n + 256 ^ n ≤ a * 256 ^ n := by
            rw [← Nat.succ_mul]
            exact Nat.mul_le_mul_right _ hab
          omega

theorem append_lt_append_iff (p : List ℕ) : p ++ s < p ++ t ↔ s < t := by
  induction p with
  | nil => rfl
  | cons a p ih =>
    rw [List.cons_append, List.cons_append, List.cons_lt_cons_iff, ih]
    simp

theorem append_le_append_iff (p : List ℕ) : p ++ s ≤ p ++ t ↔ s ≤ t := by
  rw [← not_lt, ← not_lt, append_lt_append_iff]

/-- Trailing zero bits of a number of `w` bits. -/
def trailingZeros : ℕ → ℕ → ℕ
  | 0, _ => 0
  | w + 1, c => if c % 2 = 1 then 0 else trailingZeros w (c / 2) + 1

theorem trailingZeros_mul (w a c : ℕ) : trailingZeros (w + a) (c * 2 ^ a) = trailingZeros w c + a := by
  induction a with
  | zero => simp
  | succ a ih =>
    have hdbl : c * 2 ^ (a + 1) = 2 * (c * 2 ^ a) := by rw [Nat.pow_succ']; ring
    rw [← Nat.add_assoc, trailingZeros, if_neg (by omega), hdbl, Nat.mul_div_cancel_left _ (by norm_num),
      ih]
    omega

theorem trailingZeros_lt {w j c : ℕ} (h : c % 2 ^ j ≠ 0) : trailingZeros w c < j := by
  induction j generalizing w c with
  | zero => simp [Nat.mod_one] at h
  | succ j ih =>
    cases w with
    | zero => simp [trailingZeros]
    | succ w =>
      rw [trailingZeros]
      split_ifs with hodd
      · omega
      · have hlow : c / 2 % 2 ^ j ≠ 0 := by
          intro h0
          apply h
          rw [Nat.pow_succ', Nat.mod_mul, h0]
          omega
        have := ih (w := w) hlow
        omega

theorem pack_of_length_le {d : ℕ} (s : List ℕ) : pack (s.length + d) s = pack s.length s * 256 ^ d := by
  induction s with
  | nil => simp [pack_nil]
  | cons b s ih =>
    rw [List.length_cons, Nat.add_right_comm, pack, pack, ih, Nat.pow_add]
    ring

/-- Dropping the trailing zero bytes of a last word leaves the bytes of the string. -/
theorem take_unpack_pack (h : NulFree s) (hn : s.length < n) :
    (unpack n (pack n s)).take (n - trailingZeros (8 * n) (pack n s) / 8) = s := by
  obtain ⟨d, rfl⟩ : ∃ d, n = s.length + d := ⟨n - s.length, by omega⟩
  have hlow : trailingZeros (8 * s.length) (pack s.length s) < 8 := by
    cases hs : s.length with
    | zero => simp [trailingZeros]
    | succ m =>
      apply trailingZeros_lt
      have hall : unpack (m + 1) (pack (m + 1) s) = s := by
        rw [unpack_pack_of_le h (by omega), List.take_of_length_le (by omega)]
      have hlast : pack (m + 1) s % 256 ∈ s := by
        have hmem : pack (m + 1) s % 256 ∈ unpack (m + 1) (pack (m + 1) s) := by
          rw [unpack_concat]
          simp
        rwa [hall] at hmem
      exact Nat.ne_of_gt (h _ hlast).1
  have htz : trailingZeros (8 * (s.length + d)) (pack (s.length + d) s) / 8 = d := by
    rw [pack_of_length_le, Nat.mul_add, show (256 : ℕ) ^ d = 2 ^ (8 * d) by rw [Nat.pow_mul],
      trailingZeros_mul]
    omega
  rw [htz, Nat.add_sub_cancel, unpack_pack h, List.take_of_length_le (Nat.le_of_lt hn),
    List.take_left' rfl]

/-- The number of the first `n` bytes is the high part of the number of more bytes. -/
theorem pack_div (h : NulFree s) : pack (n + m) s / 256 ^ m = pack n s := by
  induction n generalizing s with
  | zero =>
    rw [Nat.zero_add, pack]
    exact Nat.div_eq_of_lt (pack_lt h)
  | succ n ih =>
    cases s with
    | nil => rw [pack_nil, pack_nil, Nat.zero_div]
    | cons b s =>
      rw [Nat.add_right_comm, pack, pack, Nat.pow_add, ← Nat.mul_assoc, Nat.add_comm,
        Nat.add_mul_div_right _ _ (Nat.pow_pos (by norm_num)), ih h.tail, Nat.add_comm]

theorem prefix_iff_pack (hs : NulFree s) (ht : NulFree t) (hn : s.length = n) :
    s <+: t ↔ pack n t = pack n s := by
  rw [pack_eq_iff ht hs, List.prefix_iff_eq_take, hn, List.take_of_length_le hn.le, eq_comm]

theorem land_high {w k x : ℕ} (hx : x < 2 ^ w) :
    x &&& ((2 ^ w - 1) <<< k % 2 ^ w) = x / 2 ^ k * 2 ^ k := by
  apply Nat.eq_of_testBit_eq
  intro i
  rw [Nat.testBit_and, Nat.testBit_mod_two_pow, Nat.testBit_shiftLeft, Nat.testBit_two_pow_sub_one,
    Nat.testBit_mul_two_pow, Nat.testBit_div_two_pow]
  by_cases hi : i < w
  · by_cases hk : k ≤ i
    · have : i - k < w := by omega
      simp [hi, hk, this]
    · simp [hk]
  · have : x.testBit i = false := Nat.testBit_lt_two_pow
        (lt_of_lt_of_le hx (Nat.pow_le_pow_right (by norm_num) (by omega)))
    by_cases hk : k ≤ i
    · simp [this, hk]
    · simp [this, hk]

theorem not_prefix_of_lt {u : List ℕ} (hle : s ≤ t) (hp : ¬ s <+: t) (hlt : t < u) : ¬ s <+: u := by
  induction s generalizing t u with
  | nil => exact absurd ( List.nil_prefix) hp
  | cons b s ih =>
    cases t with
    | nil => exact absurd (List.nil_lt_cons b s) (not_lt.mpr hle)
    | cons d t =>
      cases u with
      | nil => exact absurd hlt (List.not_lt_nil _)
      | cons e u =>
        rw [← not_lt, List.cons_lt_cons_iff, not_or, not_and] at hle
        rw [List.cons_lt_cons_iff] at hlt
        rw [List.cons_prefix_cons, not_and] at hp ⊢
        rintro rfl
        rcases hlt with hlt | ⟨rfl, hlt⟩
        · exact absurd hlt hle.1
        · exact ih (not_lt.mp (hle.2 rfl)) (hp rfl) hlt

/-- The byte `b` in each of `n` lanes. -/
def lanes (b : ℕ) : ℕ → ℕ
  | 0 => 0
  | n + 1 => 256 * lanes b n + b

theorem land_lane {x y a b : ℕ} (ha : a < 256) (hb : b < 256) :
    (256 * x + a) &&& (256 * y + b) = 256 * (x &&& y) + (a &&& b) := by
  apply Nat.eq_of_testBit_eq
  intro i
  have hab : a &&& b < 2 ^ 8 := Nat.and_lt_two_pow a hb
  have hsplit : ∀ u v : ℕ, v < 2 ^ 8 → (256 * u + v).testBit i =
      if i < 8 then v.testBit i else u.testBit (i - 8) := by
    intro u v hv
    exact Nat.testBit_two_pow_mul_add u hv i
  rw [Nat.testBit_and, hsplit x a ha, hsplit y b hb, hsplit (x &&& y) (a &&& b) hab]
  split_ifs
  · rw [Nat.testBit_and]
  · rw [Nat.testBit_and]

theorem lanes_one_lt (n : ℕ) : lanes 1 n < 256 ^ n := by
  induction n with
  | zero => simp [lanes]
  | succ n ih =>
    rw [lanes, Nat.pow_succ']
    omega

theorem sub_lanes_cons {q b : ℕ} (hb : 0 < b) (hb' : b < 256) :
    (256 * q + b + 256 ^ (n + 1) - lanes 1 (n + 1)) % 256 ^ (n + 1) =
      256 * ((q + 256 ^ n - lanes 1 n) % 256 ^ n) + (b - 1) := by
  have hle := lanes_one_lt n
  rw [lanes, Nat.pow_succ', show 256 * q + b + 256 * 256 ^ n - (256 * lanes 1 n + 1) =
    256 * (q + 256 ^ n - lanes 1 n) + (b - 1) by omega, Nat.mod_mul, Nat.mul_add_mod,
    Nat.mul_add_div (by norm_num), Nat.mod_eq_of_lt (show b - 1 < 256 by omega),
    Nat.div_eq_of_lt (show b - 1 < 256 by omega), Nat.add_zero, Nat.add_comm]

theorem compl_cons {q b : ℕ} (hq : q < 256 ^ n) (hb : b < 256) :
    256 ^ (n + 1) - 1 - (256 * q + b) = 256 * (256 ^ n - 1 - q) + (255 - b) := by
  rw [Nat.pow_succ']
  omega

/-- In a lane that is not zero, the lane minus one and the complement share no top bit. -/
theorem lane_of_pos {b : ℕ} (hb : 0 < b) (hb' : b < 256) : (b - 1) &&& (255 - b) &&& 128 = 0 := by
  interval_cases b <;> rfl

theorem swar_iff (hc : c < 256 ^ n) :
    (c + 256 ^ n - lanes 1 n) % 256 ^ n &&& (256 ^ n - 1 - c) &&& lanes 128 n ≠ 0 ↔ HasZero n c := by
  induction n generalizing c with
  | zero => simp [lanes, HasZero, unpack, bytesLE]
  | succ n ih =>
    obtain ⟨q, b, rfl, hb⟩ : ∃ q b, c = 256 * q + b ∧ b < 256 :=
      ⟨c / 256, c % 256, (Nat.div_add_mod c 256).symm, Nat.mod_lt _ (by norm_num)⟩
    have hq : q < 256 ^ n := by
      rw [Nat.pow_succ'] at hc
      omega
    have hzero : HasZero (n + 1) (256 * q + b) ↔ HasZero n q ∨ b = 0 := by
      unfold HasZero
      rw [unpack_concat, List.mem_append, List.mem_singleton, Nat.mul_add_div (by norm_num),
        Nat.div_eq_of_lt hb, Nat.add_zero, Nat.mul_add_mod, Nat.mod_eq_of_lt hb, eq_comm (a := 0)]
    rw [hzero, compl_cons hq hb]
    rcases Nat.eq_zero_or_pos b with rfl | hpos
    · -- the lowest zero lane borrows, and its top bit survives
      simp only [or_true, iff_true]
      obtain ⟨x, hx⟩ : ∃ x, (256 * q + 0 + 256 ^ (n + 1) - lanes 1 (n + 1)) % 256 ^ (n + 1) =
          256 * x + 255 := by
        have hle := lanes_one_lt n
        have hone : 1 ≤ 256 ^ n := Nat.one_le_pow _ _ (by norm_num)
        refine ⟨(256 * q + 0 + 256 ^ (n + 1) - lanes 1 (n + 1)) % 256 ^ (n + 1) / 256, ?_⟩
        have hlow : (256 * q + 0 + 256 ^ (n + 1) - lanes 1 (n + 1)) % 256 ^ (n + 1) % 256 = 255 := by
          rw [Nat.pow_succ', Nat.mod_mul_right_mod, lanes]
          omega
        omega
      rw [hx, land_lane (by norm_num) (by norm_num), lanes, land_lane (by decide) (by norm_num)]
      have : (255 &&& (255 - 0) &&& 128 : ℕ) = 128 := by decide
      omega
    · rw [sub_lanes_cons hpos hb, land_lane (by omega) (by omega), lanes,
        land_lane (Nat.and_lt_two_pow (n := 8) _ (by omega)) (by norm_num), lane_of_pos hpos hb,
        Nat.add_zero, ← ih hq]
      constructor
      · intro h
        left
        omega
      · rintro (h | rfl)
        · omega
        · omega

end Expanse.BigEndian
