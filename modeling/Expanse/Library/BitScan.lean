import Expanse.Library.RankedArray

/-!
# Scanning bitmaps

A scan holds what is left of a bitmap, or of one 32-digit word of it, and takes the
lowest or the highest bit each time. The lists of set bits say what each operation
does: taking a bit removes the head or the last element, a mask keeps one side.
-/

namespace Expanse

open SortedAssoc

section Sorted

variable {l : List ℕ}

theorem filter_ne_head {x : ℕ} {xs : List ℕ} (h : (x :: xs).Pairwise (· < ·)) :
    (x :: xs).filter (fun y => !decide (x = y)) = xs := by
  have hx := (List.pairwise_cons.mp h).1
  rw [List.filter_cons_of_neg (by simp), List.filter_eq_self]
  intro y hy
  have := hx y hy
  simp
  omega

theorem filter_ne_last {x : ℕ} {xs : List ℕ} (h : (xs ++ [x]).Pairwise (· < ·)) :
    (xs ++ [x]).filter (fun y => !decide (x = y)) = xs := by
  have hx := (List.pairwise_append.mp h).2.2
  rw [List.filter_append, List.filter_cons_of_neg (by simp), List.filter_nil, List.append_nil,
    List.filter_eq_self]
  intro y hy
  have := hx y hy x (by simp)
  simp
  omega

theorem getLast?_filter (p : ℕ → Bool) : (l.filter p).getLast? = l.reverse.find? p := by
  rw [List.getLast?_eq_head?_reverse, ← List.filter_reverse, List.head?_filter]

theorem find?_from (p : ℕ → Bool) (k : ℕ) :
    (List.range' k (256 - k)).find? p = (((List.range 256).filter p).filter (k ≤ ·)).head? := by
  have hs : ((List.range 256).filter p).filter (k ≤ ·) = (List.range' k (256 - k)).filter p := by
    apply pairwise_lt_ext
      (List.pairwise_lt_range.sublist (List.filter_sublist.trans List.filter_sublist))
      ((List.pairwise_lt_range').sublist List.filter_sublist)
    intro x
    simp only [List.mem_filter, List.mem_range, List.mem_range'_1, decide_eq_true_eq]
    constructor
    · rintro ⟨⟨h1, h2⟩, h3⟩
      exact ⟨⟨h3, by omega⟩, h2⟩
    · rintro ⟨⟨h1, h2⟩, h3⟩
      exact ⟨⟨by omega, h3⟩, h1⟩
  rw [hs, List.head?_filter]

theorem find?_before (p : ℕ → Bool) {k : ℕ} (hk : k ≤ 256) :
    (List.range k).reverse.find? p = (((List.range 256).filter p).filter (· < k)).getLast? := by
  have hs : ((List.range 256).filter p).filter (· < k) = (List.range k).filter p := by
    apply pairwise_lt_ext
      (List.pairwise_lt_range.sublist (List.filter_sublist.trans List.filter_sublist))
      (List.pairwise_lt_range.sublist List.filter_sublist)
    intro x
    simp only [List.mem_filter, List.mem_range, decide_eq_true_eq]
    constructor
    · rintro ⟨⟨h1, h2⟩, h3⟩
      exact ⟨h3, h2⟩
    · rintro ⟨h1, h2⟩
      exact ⟨⟨by omega, h2⟩, h1⟩
  rw [hs, getLast?_filter]

end Sorted

namespace Bitmap

def subWord (bits sub : ℕ) : ℕ := bits / 2 ^ (32 * sub) % 2 ^ 32

/-- Clear every bit below `d`. -/
def keepFrom (bits d : ℕ) : ℕ := bits / 2 ^ d * 2 ^ d

/-- Clear every bit above `d`. -/
def keepTo (bits d : ℕ) : ℕ := bits % 2 ^ (d + 1)

def wordBits (word : ℕ) : List ℕ := (List.range 32).filter word.testBit

def lowestBit (word : ℕ) : Option ℕ := (List.range 32).find? word.testBit

def highestBit (word : ℕ) : Option ℕ := (List.range 32).reverse.find? word.testBit

variable {bits word d k sub : ℕ}

@[simp] theorem testBit_subWord (bits sub i : ℕ) :
    (subWord bits sub).testBit i = (decide (i < 32) && bits.testBit (32 * sub + i)) := by
  rw [subWord, Nat.testBit_mod_two_pow, Nat.testBit_div_two_pow, Nat.add_comm]

@[simp] theorem testBit_keepFrom (bits d i : ℕ) :
    (keepFrom bits d).testBit i = (decide (d ≤ i) && bits.testBit i) := by
  rw [keepFrom, Nat.testBit_mul_two_pow, Nat.testBit_div_two_pow]
  by_cases h : d ≤ i
  · rw [show i - d + d = i by omega]
  · simp [h]

@[simp] theorem testBit_keepTo (bits d i : ℕ) :
    (keepTo bits d).testBit i = (decide (i ≤ d) && bits.testBit i) := by
  rw [keepTo, Nat.testBit_mod_two_pow]
  congr 1
  exact decide_eq_decide.mpr Nat.lt_succ_iff

theorem wordBits_sorted (word : ℕ) : (wordBits word).Pairwise (· < ·) :=
  List.pairwise_lt_range.sublist List.filter_sublist

theorem lowestBit_eq (word : ℕ) : lowestBit word = (wordBits word).head? :=
  List.head?_filter.symm

theorem highestBit_eq (word : ℕ) : highestBit word = (wordBits word).getLast? :=
  (getLast?_filter _).symm

theorem wordBits_clear (word d : ℕ) :
    wordBits (clear word d) = (wordBits word).filter fun x => !decide (d = x) := by
  rw [wordBits, wordBits, List.filter_filter]
  apply List.filter_congr
  intro x _
  rw [testBit_clear, Bool.and_comm]

theorem wordBits_clear_lowest {x : ℕ} {xs : List ℕ} (h : wordBits word = x :: xs) :
    wordBits (clear word x) = xs := by
  rw [wordBits_clear, h]
  exact filter_ne_head (h ▸ wordBits_sorted word)

theorem wordBits_clear_highest {x : ℕ} {xs : List ℕ} (h : wordBits word = xs ++ [x]) :
    wordBits (clear word x) = xs := by
  rw [wordBits_clear, h]
  exact filter_ne_last (h ▸ wordBits_sorted word)

theorem length_wordBits_le (word : ℕ) : (wordBits word).length ≤ 32 := by
  have := List.length_filter_le word.testBit (List.range 32)
  rwa [List.length_range] at this

theorem subDigits_eq (bits sub : ℕ) :
    subDigits bits sub = (wordBits (subWord bits sub)).map (32 * sub + ·) := by
  rw [subDigits, wordBits, List.range'_eq_map_range, List.filter_map]
  congr 1
  apply List.filter_congr
  intro x hx
  simp [List.mem_range.mp hx]

theorem subDigits_keepFrom :
    (wordBits (keepFrom (subWord bits sub) d)).map (32 * sub + ·) =
      (subDigits bits sub).filter (32 * sub + d ≤ ·) := by
  rw [subDigits_eq, List.filter_map]
  congr 1
  rw [wordBits, wordBits, List.filter_filter]
  apply List.filter_congr
  intro x _
  simp [Function.comp]

theorem subDigits_keepTo :
    (wordBits (keepTo (subWord bits sub) d)).map (32 * sub + ·) =
      (subDigits bits sub).filter (· ≤ 32 * sub + d) := by
  rw [subDigits_eq, List.filter_map]
  congr 1
  rw [wordBits, wordBits, List.filter_filter]
  apply List.filter_congr
  intro x _
  simp [Function.comp]

theorem digits_clear (bits d : ℕ) :
    digits (clear bits d) = (digits bits).filter fun x => !decide (d = x) := by
  rw [digits, digits, List.filter_filter]
  apply List.filter_congr
  intro x _
  rw [testBit_clear, Bool.and_comm]

theorem digits_clear_lowest {x : ℕ} {xs : List ℕ} (h : digits bits = x :: xs) :
    digits (clear bits x) = xs := by
  rw [digits_clear, h]
  exact filter_ne_head (h ▸ digits_sorted bits)

theorem digits_clear_highest {x : ℕ} {xs : List ℕ} (h : digits bits = xs ++ [x]) :
    digits (clear bits x) = xs := by
  rw [digits_clear, h]
  exact filter_ne_last (h ▸ digits_sorted bits)

theorem digits_keepFrom (bits d : ℕ) :
    digits (keepFrom bits d) = (digits bits).filter (d ≤ ·) := by
  rw [digits, digits, List.filter_filter]
  apply List.filter_congr
  intro x _
  rw [testBit_keepFrom]

theorem digits_keepTo (bits d : ℕ) :
    digits (keepTo bits d) = (digits bits).filter (· ≤ d) := by
  rw [digits, digits, List.filter_filter]
  apply List.filter_congr
  intro x _
  rw [testBit_keepTo]

theorem nextSet_eq (bits k : ℕ) : nextSet bits k = ((digits bits).filter (k ≤ ·)).head? :=
  find?_from bits.testBit k

theorem prevSet_eq (bits : ℕ) (hk : k < 256) :
    prevSet bits k = ((digits bits).filter (· ≤ k)).getLast? := by
  rw [prevSet, find?_before bits.testBit (show k + 1 ≤ 256 by omega)]
  simp only [Nat.lt_succ_iff]
  rfl

end Bitmap

end Expanse
