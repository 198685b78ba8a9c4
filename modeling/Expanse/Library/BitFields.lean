import Expanse.Library.BitScan

/-!
# Words of a bitmap

A bitmap of many bits is accessed through words of `w` bits: one word is loaded, edited
and stored back, and ranks are populations of masked words. The lemmas say that loading a
word, setting or clearing a bit of it and storing it back is setting or clearing that bit
of the bitmap, and that the masked populations are ranks inside a subexpanse, whether the
word is the 64-bit one that covers the digit or the 32-bit half of it.
-/

namespace Expanse.Bitmap

variable {bits word w i d j m n x : ℕ}

/-- Word `i` of the words of `w` bits. -/
def field (bits w i : ℕ) : ℕ := bits / 2 ^ (w * i) % 2 ^ w

/-- Replace word `i`. -/
def storeField (bits w i x : ℕ) : ℕ :=
  bits / 2 ^ (w * (i + 1)) * 2 ^ (w * (i + 1)) + (x * 2 ^ (w * i) + bits % 2 ^ (w * i))

/-- `count_ones` of a word of at most 64 bits. -/
def popcount (word : ℕ) : ℕ := ((List.range 64).filter word.testBit).length

theorem field_lt : field bits w i < 2 ^ w := Nat.mod_lt _ (Nat.two_pow_pos w)

@[simp] theorem testBit_field (bits w i j : ℕ) :
    (field bits w i).testBit j = (decide (j < w) && bits.testBit (w * i + j)) := by
  rw [field, Nat.testBit_mod_two_pow, Nat.testBit_div_two_pow, Nat.add_comm]

theorem testBit_storeField (hx : x < 2 ^ w) (bits i j : ℕ) :
    (storeField bits w i x).testBit j =
      if w * i ≤ j ∧ j < w * i + w then x.testBit (j - w * i) else bits.testBit j := by
  have hlow : x * 2 ^ (w * i) + bits % 2 ^ (w * i) < 2 ^ (w * (i + 1)) := by
    have h1 : bits % 2 ^ (w * i) < 2 ^ (w * i) := Nat.mod_lt _ (Nat.two_pow_pos _)
    have h2 : (x + 1) * 2 ^ (w * i) ≤ 2 ^ w * 2 ^ (w * i) := Nat.mul_le_mul_right _ hx
    rw [Nat.mul_succ, Nat.pow_add, Nat.mul_comm (2 ^ (w * i))]
    rw [Nat.add_mul] at h2
    omega
  have hm : w * (i + 1) = w * i + w := Nat.mul_succ w i
  rw [storeField, Nat.mul_comm (bits / _), Nat.testBit_two_pow_mul_add _ hlow, Nat.mul_comm x,
    Nat.testBit_two_pow_mul_add _ (Nat.mod_lt _ (Nat.two_pow_pos _)), Nat.testBit_mod_two_pow,
    Nat.testBit_div_two_pow]
  by_cases h1 : j < w * i
  · rw [if_pos (by omega), if_pos h1, if_neg (by omega), decide_eq_true h1, Bool.true_and]
  · by_cases h2 : j < w * (i + 1)
    · rw [if_pos h2, if_neg h1, if_pos (by omega)]
    · rw [if_neg h2, if_neg (by omega)]
      congr 1
      omega

theorem digit_mod_lt (hw : 0 < w) (d : ℕ) : d % w < w := Nat.mod_lt _ hw

/-- Setting a bit through the word that covers it. -/
theorem storeField_set (hw : 0 < w) (bits d : ℕ) :
    storeField bits w (d / w) (field bits w (d / w) ||| 2 ^ (d % w)) = set bits d := by
  have hlt : field bits w (d / w) ||| 2 ^ (d % w) < 2 ^ w :=
    Nat.or_lt_two_pow field_lt (Nat.pow_lt_pow_right (by omega) (digit_mod_lt hw d))
  have hd : w * (d / w) + d % w = d := Nat.div_add_mod d w
  have hdw := digit_mod_lt hw d
  apply Nat.eq_of_testBit_eq
  intro j
  rw [testBit_storeField hlt, testBit_set]
  by_cases h : w * (d / w) ≤ j ∧ j < w * (d / w) + w
  · rw [if_pos h, Nat.testBit_or, testBit_field, Nat.testBit_two_pow,
      decide_eq_true (show j - w * (d / w) < w by omega), Bool.true_and,
      show w * (d / w) + (j - w * (d / w)) = j by omega]
    congr 1
    exact decide_eq_decide.mpr (by omega)
  · rw [if_neg h, decide_eq_false (show ¬ d = j by omega), Bool.or_false]

theorem storeField_clear (hw : 0 < w) (bits d : ℕ) :
    storeField bits w (d / w) (clear (field bits w (d / w)) (d % w)) = clear bits d := by
  have hd : w * (d / w) + d % w = d := Nat.div_add_mod d w
  have hdw := digit_mod_lt hw d
  have hlt : clear (field bits w (d / w)) (d % w) < 2 ^ w := by
    refine Nat.lt_pow_two_of_testBit _ fun j hj => ?_
    rw [testBit_clear, testBit_field, decide_eq_false (by omega), Bool.false_and, Bool.false_and]
  apply Nat.eq_of_testBit_eq
  intro j
  rw [testBit_storeField hlt, testBit_clear bits]
  by_cases h : w * (d / w) ≤ j ∧ j < w * (d / w) + w
  · rw [if_pos h, testBit_clear, testBit_field, decide_eq_true (show j - w * (d / w) < w by omega),
      Bool.true_and, show w * (d / w) + (j - w * (d / w)) = j by omega]
    congr 2
    exact decide_eq_decide.mpr (by omega)
  · rw [if_neg h, decide_eq_false (show ¬ d = j by omega)]
    simp

theorem testBit_field_digit (hw : 0 < w) (bits d : ℕ) :
    (field bits w (d / w)).testBit (d % w) = bits.testBit d := by
  rw [testBit_field, decide_eq_true (digit_mod_lt hw d), Bool.true_and, Nat.div_add_mod]

theorem subexpanseRank_eq_range (bits d : ℕ) :
    subexpanseRank bits d =
      ((List.range (d % 32)).filter fun j => bits.testBit (32 * (d / 32) + j)).length := by
  rw [subexpanseRank, List.range'_eq_map_range, List.filter_map, List.length_map]
  rfl

/-- The population below a bit of the half that covers a digit. -/
theorem popcount_half (bits d : ℕ) :
    popcount (field bits 32 (d / 32) &&& (2 ^ (d % 32) - 1)) = subexpanseRank bits d := by
  rw [subexpanseRank_eq_range, popcount]
  congr 1
  apply pairwise_lt_ext (List.pairwise_lt_range.sublist List.filter_sublist)
    (List.pairwise_lt_range.sublist List.filter_sublist)
  intro x
  simp only [List.mem_filter, List.mem_range, Nat.testBit_and, testBit_field,
    Nat.testBit_two_pow_sub_one, Bool.and_eq_true, decide_eq_true_eq]
  have := Nat.mod_lt d (show 0 < 32 by decide)
  constructor
  · rintro ⟨-, ⟨-, hb⟩, hx⟩
    exact ⟨hx, hb⟩
  · rintro ⟨hx, hb⟩
    exact ⟨by omega, ⟨by omega, hb⟩, hx⟩

theorem popcount_word (bits d : ℕ) :
    popcount (field bits 64 (d / 64) &&&
      ((2 ^ (d % 64) - 1) &&& (2 ^ 64 - 2 ^ (32 * (d / 32 % 2))))) = subexpanseRank bits d := by
  have hmask : ∀ j, (2 ^ 64 - 2 ^ (32 * (d / 32 % 2))).testBit j =
      (decide (j < 64) && decide (32 * (d / 32 % 2) ≤ j)) := by
    intro j
    have hpos : 0 < 2 ^ (32 * (d / 32 % 2)) := Nat.two_pow_pos _
    have hlt : 2 ^ (32 * (d / 32 % 2)) - 1 < 2 ^ 64 := by
      have : 2 ^ (32 * (d / 32 % 2)) ≤ 2 ^ 64 := Nat.pow_le_pow_right (by decide) (by omega)
      omega
    rw [show 2 ^ (32 * (d / 32 % 2)) = 2 ^ (32 * (d / 32 % 2)) - 1 + 1 by omega,
      Nat.testBit_two_pow_sub_succ hlt, Nat.testBit_two_pow_sub_one]
    congr 1
    by_cases h : j < 32 * (d / 32 % 2)
    · rw [decide_eq_true h, decide_eq_false (by omega)]
      rfl
    · rw [decide_eq_false h, decide_eq_true (by omega)]
      rfl
  rw [subexpanseRank_eq_range, popcount]
  have hshift : ∀ l : List ℕ, l.length = (l.map fun j => 32 * (d / 32 % 2) + j).length :=
    fun l => (List.length_map _).symm
  rw [hshift (List.filter _ (List.range (d % 32)))]
  congr 1
  apply pairwise_lt_ext (List.pairwise_lt_range.sublist List.filter_sublist)
  · rw [List.pairwise_map]
    exact (List.pairwise_lt_range.sublist List.filter_sublist).imp fun h => by omega
  intro x
  simp only [List.mem_filter, List.mem_range, List.mem_map, Nat.testBit_and, testBit_field, hmask,
    Nat.testBit_two_pow_sub_one, Bool.and_eq_true, decide_eq_true_eq]
  constructor
  · rintro ⟨hx, ⟨-, hb⟩, hlt, -, hle⟩
    refine ⟨x - 32 * (d / 32 % 2), ⟨by omega, ?_⟩, by omega⟩
    rwa [show 32 * (d / 32) + (x - 32 * (d / 32 % 2)) = 64 * (d / 64) + x by omega]
  · rintro ⟨j, ⟨hj, hb⟩, rfl⟩
    refine ⟨by omega, ⟨by omega, ?_⟩, by omega, by omega, by omega⟩
    rwa [show 64 * (d / 64) + (32 * (d / 32 % 2) + j) = 32 * (d / 32) + j by omega]

/-- The half of the 64-bit word that covers a digit is the 32-bit word that covers it. -/
theorem field_field (bits d : ℕ) :
    field (field bits 64 (d / 64)) 32 (d / 32 % 2) = field bits 32 (d / 32) := by
  apply Nat.eq_of_testBit_eq
  intro j
  rw [testBit_field, testBit_field, testBit_field]
  by_cases h : j < 32
  · rw [decide_eq_true h, decide_eq_true (show 32 * (d / 32 % 2) + j < 64 by omega), Bool.true_and,
      Bool.true_and, Bool.true_and, show 64 * (d / 64) + (32 * (d / 32 % 2) + j) = 32 * (d / 32) + j by omega]
  · rw [decide_eq_false h, Bool.false_and, Bool.false_and]

theorem popcount_field (bits sub : ℕ) : popcount (field bits 32 sub) = (subDigits bits sub).length := by
  rw [subDigits_eq, List.length_map, popcount, wordBits]
  congr 1
  apply pairwise_lt_ext (List.pairwise_lt_range.sublist List.filter_sublist)
    (List.pairwise_lt_range.sublist List.filter_sublist)
  intro x
  simp only [List.mem_filter, List.mem_range, testBit_field, testBit_subWord, Bool.and_eq_true,
    decide_eq_true_eq]
  constructor
  · rintro ⟨-, hx, hb⟩
    exact ⟨hx, hx, hb⟩
  · rintro ⟨hx, -, hb⟩
    exact ⟨by omega, hx, hb⟩

end Expanse.Bitmap
