import Mathlib.Tactic

/-!
# Base-256 digits of natural numbers

Level `1` is the least significant byte. A key of `l` bytes is a number below
`256 ^ l`; its top digit sits at level `l`. The lemmas say how digits, low parts
and byte slices compose, so that no later proof unfolds a power.
-/

namespace Expanse.Radix

/-- The byte of `k` at level `l` (levels count from one). -/
def digit (k l : ℕ) : ℕ := k / 256 ^ (l - 1) % 256

/-- The low `l` bytes of `k`. -/
def low (k l : ℕ) : ℕ := k % 256 ^ l

/-- Bytes `a + 1 .. b` of `k`, read as one number. -/
def slice (k a b : ℕ) : ℕ := k / 256 ^ a % 256 ^ (b - a)

/-- Overwrite bytes `a + 1 .. b` of `w` by the low bytes of `v`. -/
def setSlice (w a b v : ℕ) : ℕ :=
  w / 256 ^ b * 256 ^ b + (v % 256 ^ (b - a) * 256 ^ a + w % 256 ^ a)

theorem pow_pos' (l : ℕ) : 0 < 256 ^ l := Nat.pow_pos (by decide)

theorem digit_lt (k l : ℕ) : digit k l < 256 := Nat.mod_lt _ (by decide)

theorem low_lt (k l : ℕ) : low k l < 256 ^ l := Nat.mod_lt _ (pow_pos' l)

theorem slice_lt (k a b : ℕ) : slice k a b < 256 ^ (b - a) := Nat.mod_lt _ (pow_pos' _)

theorem low_of_lt {k l : ℕ} (h : k < 256 ^ l) : low k l = k := Nat.mod_eq_of_lt h

theorem low_low {a b : ℕ} (h : a ≤ b) (k : ℕ) : low (low k b) a = low k a :=
  Nat.mod_mod_of_dvd k (Nat.pow_dvd_pow 256 h)

theorem pow_split {a b : ℕ} (h : a ≤ b) : 256 ^ b = 256 ^ a * 256 ^ (b - a) := by
  rw [← Nat.pow_add, Nat.add_sub_cancel' h]

theorem pow_pred {l : ℕ} (h : 1 ≤ l) : 256 ^ l = 256 ^ (l - 1) * 256 := by
  rw [← Nat.pow_succ, Nat.succ_eq_add_one, Nat.sub_add_cancel h]

theorem low_div {a b : ℕ} (h : a ≤ b) (k : ℕ) : low k b / 256 ^ a = slice k a b := by
  unfold low slice
  rw [pow_split h, Nat.mod_mul_right_div_self]

theorem slice_low {a b c : ℕ} (hb : b ≤ c) (hab : a ≤ b) (k : ℕ) :
    slice (low k c) a b = slice k a b := by
  rw [← low_div hab, ← low_div hab, low_low hb]

theorem digit_low {l b : ℕ} (h1 : 1 ≤ l) (h : l ≤ b) (k : ℕ) : digit (low k b) l = digit k l := by
  have hs : ∀ x, digit x l = slice x (l - 1) l := by
    intro x
    have : l - (l - 1) = 1 := by omega
    simp [digit, slice, this]
  rw [hs, hs, slice_low h (by omega)]

/-- A low part splits into a byte slice and a shorter low part. -/
theorem low_eq_slice {a b : ℕ} (h : a ≤ b) (k : ℕ) :
    low k b = slice k a b * 256 ^ a + low k a := by
  have hd := Nat.div_add_mod (low k b) (256 ^ a)
  rw [low_div h, Nat.mul_comm] at hd
  have hm : low k b % 256 ^ a = low k a := low_low h k
  omega

theorem low_eq_digit {l : ℕ} (h : 1 ≤ l) (k : ℕ) :
    low k l = digit k l * 256 ^ (l - 1) + low k (l - 1) := by
  have hs := low_eq_slice (Nat.sub_le l 1) k
  have h1 : l - (l - 1) = 1 := by omega
  simpa [slice, digit, h1] using hs

/-- Reading a level-`b` number: skipped bytes, the digit at `l`, and the rest. -/
theorem low_eq_split {l b : ℕ} (h1 : 1 ≤ l) (h : l ≤ b) (k : ℕ) :
    low k b = slice k l b * 256 ^ l + digit k l * 256 ^ (l - 1) + low k (l - 1) := by
  rw [low_eq_slice h, low_eq_digit h1, Nat.add_assoc]

theorem mul_add_div {a x y : ℕ} (h : y < 256 ^ a) : (x * 256 ^ a + y) / 256 ^ a = x := by
  rw [Nat.mul_comm, Nat.mul_add_div (pow_pos' a), Nat.div_eq_of_lt h, Nat.add_zero]

theorem mul_add_mod {a x y : ℕ} (h : y < 256 ^ a) : (x * 256 ^ a + y) % 256 ^ a = y := by
  rw [Nat.mul_comm, Nat.mul_add_mod, Nat.mod_eq_of_lt h]

theorem mul_add_lt {a b x y : ℕ} (hab : a ≤ b) (hx : x < 256 ^ (b - a)) (hy : y < 256 ^ a) :
    x * 256 ^ a + y < 256 ^ b := by
  have h1 : (x + 1) * 256 ^ a ≤ 256 ^ (b - a) * 256 ^ a := Nat.mul_le_mul_right _ hx
  rw [pow_split hab, Nat.mul_comm (256 ^ a)]
  calc x * 256 ^ a + y < (x + 1) * 256 ^ a := by rw [Nat.succ_mul]; omega
    _ ≤ _ := h1

/-- Two mixed-radix numerals with the same base part agree exactly when both parts agree. -/
theorem mul_add_inj {a x y x' y' : ℕ} (hy : y < 256 ^ a) (hy' : y' < 256 ^ a) :
    x * 256 ^ a + y = x' * 256 ^ a + y' ↔ x = x' ∧ y = y' := by
  constructor
  · intro h
    have hd := congrArg (· / 256 ^ a) h
    have hm := congrArg (· % 256 ^ a) h
    simp only [mul_add_div hy, mul_add_div hy', mul_add_mod hy, mul_add_mod hy'] at hd hm
    exact ⟨hd, hm⟩
  · rintro ⟨rfl, rfl⟩
    rfl

theorem mul_add_lt_iff {a x y x' y' : ℕ} (hy : y < 256 ^ a) (hy' : y' < 256 ^ a) :
    x * 256 ^ a + y < x' * 256 ^ a + y' ↔ x < x' ∨ x = x' ∧ y < y' := by
  have hmono : ∀ {p q : ℕ}, p < q → (p + 1) * 256 ^ a ≤ q * 256 ^ a :=
    fun h => Nat.mul_le_mul_right _ h
  rcases Nat.lt_trichotomy x x' with h | h | h
  · have := hmono h
    rw [Nat.succ_mul] at this
    constructor
    · intro _; exact Or.inl h
    · intro _; omega
  · subst h
    constructor
    · intro hlt; exact Or.inr ⟨rfl, by omega⟩
    · rintro (hlt | ⟨_, hlt⟩)
      · omega
      · omega
  · have := hmono h
    rw [Nat.succ_mul] at this
    constructor
    · intro hlt; omega
    · rintro (hlt | ⟨heq, _⟩) <;> omega

theorem low_div_add (k l : ℕ) : k / 256 ^ l * 256 ^ l + low k l = k := by
  rw [Nat.mul_comm]
  exact Nat.div_add_mod k (256 ^ l)

theorem slice_eq_div {k a b : ℕ} (hab : a ≤ b) (hk : k < 256 ^ b) : slice k a b = k / 256 ^ a := by
  unfold slice
  apply Nat.mod_eq_of_lt
  rw [Nat.div_lt_iff_lt_mul (pow_pos' a), Nat.mul_comm, ← pow_split hab]
  exact hk

theorem slice_self (k a : ℕ) : slice k a a = 0 := by simp [slice, Nat.mod_one]

theorem digit_compose {l x d r : ℕ} (h1 : 1 ≤ l) (hd : d < 256) (hr : r < 256 ^ (l - 1)) :
    digit (x * 256 ^ l + d * 256 ^ (l - 1) + r) l = d := by
  have he : x * 256 ^ l + d * 256 ^ (l - 1) + r = (x * 256 + d) * 256 ^ (l - 1) + r := by
    rw [pow_pred h1]; ring
  rw [digit, he, mul_add_div hr]
  omega

theorem low_compose {l x d r : ℕ} (h1 : 1 ≤ l) (hr : r < 256 ^ (l - 1)) :
    low (x * 256 ^ l + d * 256 ^ (l - 1) + r) (l - 1) = r := by
  have he : x * 256 ^ l + d * 256 ^ (l - 1) + r = (x * 256 + d) * 256 ^ (l - 1) + r := by
    rw [pow_pred h1]; ring
  rw [low, he, mul_add_mod hr]

theorem div_compose {l x d r : ℕ} (h1 : 1 ≤ l) (hd : d < 256) (hr : r < 256 ^ (l - 1)) :
    (x * 256 ^ l + d * 256 ^ (l - 1) + r) / 256 ^ l = x := by
  have hlt : d * 256 ^ (l - 1) + r < 256 ^ l :=
    mul_add_lt (Nat.sub_le l 1) (by
      have : l - (l - 1) = 1 := by omega
      simpa [this] using hd) hr
  rw [Nat.add_assoc, mul_add_div hlt]

/-- A number below `256 ^ b` is composed of its skipped bytes, its digit and its rest. -/
theorem eq_compose_iff {k l b s d x : ℕ} (h1 : 1 ≤ l) (hl : l ≤ b) (hk : k < 256 ^ b)
    (hd : d < 256) (hx : x < 256 ^ (l - 1)) :
    k = s * 256 ^ l + d * 256 ^ (l - 1) + x ↔
      slice k l b = s ∧ digit k l = d ∧ low k (l - 1) = x := by
  constructor
  · intro h
    refine ⟨?_, ?_, ?_⟩
    · rw [slice_eq_div hl hk, h, div_compose h1 hd hx]
    · rw [h, digit_compose h1 hd hx]
    · rw [h, low_compose h1 hx]
  · rintro ⟨rfl, rfl, rfl⟩
    rw [← low_eq_split h1 hl, low_of_lt hk]

section SetSlice

variable {w a b v : ℕ} (hab : a ≤ b)

include hab

theorem setSlice_low : low (setSlice w a b v) b = v % 256 ^ (b - a) * 256 ^ a + w % 256 ^ a :=
  mul_add_mod (mul_add_lt hab (Nat.mod_lt _ (pow_pos' _)) (Nat.mod_lt _ (pow_pos' _)))

theorem setSlice_div : setSlice w a b v / 256 ^ b = w / 256 ^ b :=
  mul_add_div (mul_add_lt hab (Nat.mod_lt _ (pow_pos' _)) (Nat.mod_lt _ (pow_pos' _)))

theorem slice_setSlice : slice (setSlice w a b v) a b = v % 256 ^ (b - a) := by
  rw [← low_div hab, setSlice_low hab, mul_add_div (Nat.mod_lt _ (pow_pos' _))]

theorem low_setSlice_below {c : ℕ} (hc : c ≤ a) : low (setSlice w a b v) c = low w c := by
  rw [← low_low (hc.trans hab), setSlice_low hab, ← low_low hc]
  have : low (v % 256 ^ (b - a) * 256 ^ a + w % 256 ^ a) a = low w a :=
    mul_add_mod (Nat.mod_lt _ (pow_pos' _))
  rw [this, low_low hc]

theorem slice_setSlice_below {c d : ℕ} (hcd : c ≤ d) (hd : d ≤ a) :
    slice (setSlice w a b v) c d = slice w c d := by
  rw [← low_div hcd, low_setSlice_below hab hd, low_div hcd]

theorem slice_setSlice_above {c d : ℕ} (hb : b ≤ c) :
    slice (setSlice w a b v) c d = slice w c d := by
  unfold slice
  rw [pow_split hb, ← Nat.div_div_eq_div_mul, ← Nat.div_div_eq_div_mul, setSlice_div hab]

end SetSlice

theorem slice_add {a b c : ℕ} (hab : a ≤ b) (hbc : b ≤ c) (k : ℕ) :
    slice k a c = slice k b c * 256 ^ (b - a) + slice k a b := by
  have h1 := low_eq_slice hbc k
  rw [low_eq_slice hab k] at h1
  rw [← low_div (hab.trans hbc), h1, pow_split hab, ← Nat.add_assoc,
    show slice k b c * (256 ^ a * 256 ^ (b - a)) + slice k a b * 256 ^ a =
      (slice k b c * 256 ^ (b - a) + slice k a b) * 256 ^ a by ring]
  exact mul_add_div (low_lt k a)

theorem slice_eq_iff {a b c : ℕ} (hab : a ≤ b) (hbc : b ≤ c) (x y : ℕ) :
    slice x a c = slice y a c ↔ slice x b c = slice y b c ∧ slice x a b = slice y a b := by
  rw [slice_add hab hbc, slice_add hab hbc y]
  exact mul_add_inj (slice_lt _ _ _) (slice_lt _ _ _)

theorem slice_digit {l : ℕ} (h : 1 ≤ l) (k : ℕ) : slice k (l - 1) l = digit k l := by
  have : l - (l - 1) = 1 := by omega
  simp [digit, slice, this]

theorem low_div_byte {l b : ℕ} (h2 : 2 ≤ l) (hl : l ≤ b) (k : ℕ) :
    low k b / 256 = slice k l b * 256 ^ (l - 1) + digit k l * 256 ^ (l - 2) + low k (l - 1) / 256 := by
  have h1 := low_eq_split (show 1 ≤ l by omega) hl k
  have e1 : 256 ^ l = 256 ^ (l - 1) * 256 := pow_pred (by omega)
  have e2 : 256 ^ (l - 1) = 256 ^ (l - 2) * 256 := by
    rw [pow_pred (show 1 ≤ l - 1 by omega), show l - 1 - 1 = l - 2 by omega]
  rw [h1, e1]
  nth_rewrite 2 [e2]
  rw [show slice k l b * (256 ^ (l - 1) * 256) + digit k l * (256 ^ (l - 2) * 256) + low k (l - 1) =
    (slice k l b * 256 ^ (l - 1) + digit k l * 256 ^ (l - 2)) * 256 + low k (l - 1) by ring]
  omega

theorem slice_through_digit {m l b : ℕ} (hm : m < l) (hl : l ≤ b) (k : ℕ) :
    slice k m b = slice k l b * 256 ^ (l - m) + digit k l * 256 ^ (l - 1 - m) +
      slice k m (l - 1) := by
  rw [slice_add (show m ≤ l - 1 by omega) (show l - 1 ≤ b by omega),
    slice_add (show l - 1 ≤ l by omega) hl, slice_digit (by omega)]
  rw [show l - (l - 1) = 1 by omega, show l - m = (l - 1 - m) + 1 by omega, Nat.pow_succ]
  ring

end Expanse.Radix
