import Mathlib.Data.List.Find
import Expanse.Library.BitFields

/-!
# Scanning a bitmap word by word

A bitmap of 256 bits is four words of 64. A search masks the word that it starts in and goes on
with the words beside it, upwards or downwards; a count masks each word to the range. What is
found is stated on the list of set bits.
-/

namespace Expanse.Bitmap

variable {bits word w j k lo hi fuel : ℕ}

/-- The lowest bit of a 64-bit word: its number of trailing zeros, unless it is zero. -/
def firstBit (word : ℕ) : Option ℕ := (List.range 64).find? word.testBit

def lastBit (word : ℕ) : Option ℕ := (List.range 64).reverse.find? word.testBit

/-- `u64::MAX << j`. -/
def maskFrom (j : ℕ) : ℕ := 2 ^ 64 - 2 ^ j

/-- `u64::MAX >> (63 - j)`. -/
def maskTo (j : ℕ) : ℕ := (2 ^ 64 - 1) / 2 ^ (63 - j)

/-- From word `w` upwards; what is left of that word is given. -/
def scanUp (bits : ℕ) : ℕ → ℕ → ℕ → Option ℕ
  | 0, _, _ => none
  | fuel + 1, w, word =>
    match firstBit word with
    | some bit => some (64 * w + bit)
    | none => if 4 ≤ w + 1 then none else scanUp bits fuel (w + 1) (field bits 64 (w + 1))

/-- From word `w` downwards. -/
def scanDown (bits : ℕ) : ℕ → ℕ → Option ℕ
  | 0, word => lastBit word
  | w + 1, word =>
    match lastBit word with
    | some bit => some (64 * (w + 1) + bit)
    | none => scanDown bits w (field bits 64 w)

theorem testBit_maskFrom (hj : j < 64) (i : ℕ) :
    (maskFrom j).testBit i = (decide (i < 64) && decide (j ≤ i)) := by
  have hpos : 0 < 2 ^ j := Nat.two_pow_pos j
  have hlt : 2 ^ j < 2 ^ 64 := Nat.pow_lt_pow_right (by decide) hj
  rw [maskFrom, show 2 ^ j = 2 ^ j - 1 + 1 by omega, Nat.testBit_two_pow_sub_succ (by omega),
    Nat.testBit_two_pow_sub_one, ← decide_not]
  simp only [not_lt]

theorem testBit_maskTo (hj : j < 64) (i : ℕ) : (maskTo j).testBit i = decide (i ≤ j) := by
  rw [maskTo, Nat.testBit_div_two_pow, Nat.testBit_two_pow_sub_one]
  exact decide_eq_decide.mpr (by omega)

theorem filter_word (w a b : ℕ) (p : ℕ → Bool) :
    (List.range' (64 * w + a) b).find? p = ((List.range' a b).find? fun i => p (64 * w + i)).map
      (64 * w + ·) := by
  rw [← List.map_add_range', List.find?_map]
  rfl

theorem find?_none_of {l : List ℕ} {p : ℕ → Bool} (h : ∀ x ∈ l, p x = false) : l.find? p = none :=
  List.find?_eq_none.mpr fun x hx => by simp [h x hx]

theorem firstBit_masked (hj : j < 64) (bits w : ℕ) :
    (firstBit (field bits 64 w &&& maskFrom j)).map (64 * w + ·) =
      (List.range' (64 * w + j) (64 - j)).find? bits.testBit := by
  have hsplit : List.range 64 = List.range' 0 j ++ List.range' j (64 - j) := by
    rw [List.range_eq_range', show List.range' 0 64 = List.range' 0 (j + (64 - j)) by congr 1; omega,
      ← List.range'_append_1, Nat.zero_add]
  have hlow : (List.range' 0 j).find? (field bits 64 w &&& maskFrom j).testBit = none := by
    refine find?_none_of fun x hx => ?_
    have := (List.mem_range'_1.mp hx).2
    rw [Nat.testBit_and, testBit_maskFrom hj, decide_eq_false (show ¬ j ≤ x by omega), Bool.and_false,
      Bool.and_false]
  rw [firstBit, hsplit, List.find?_append, hlow, Option.none_or, filter_word]
  congr 1
  refine List.find?_congr fun x hx => ?_
  obtain ⟨h1, h2⟩ := List.mem_range'_1.mp hx
  rw [Nat.testBit_and, testBit_maskFrom hj, testBit_field, decide_eq_true (show x < 64 by omega),
    decide_eq_true h1, Bool.true_and, Bool.and_true, Bool.and_true]

theorem firstBit_field (bits w : ℕ) : (firstBit (field bits 64 w)).map (64 * w + ·) =
    (List.range' (64 * w) 64).find? bits.testBit := by
  have hfull : field bits 64 w &&& maskFrom 0 = field bits 64 w := by
    apply Nat.eq_of_testBit_eq
    intro i
    rw [Nat.testBit_and, testBit_maskFrom (by decide), testBit_field]
    by_cases h : i < 64 <;> simp [h]
  rw [← hfull, firstBit_masked (by decide), Nat.add_zero]

theorem nextSet_word (hw : w < 4) (hj : j < 64) : nextSet bits (64 * w + j) =
    ((List.range' (64 * w + j) (64 - j)).find? bits.testBit).or (nextSet bits (64 * (w + 1))) := by
  have hsplit : List.range' (64 * w + j) (256 - (64 * w + j)) =
      List.range' (64 * w + j) (64 - j) ++ List.range' (64 * (w + 1)) (256 - 64 * (w + 1)) := by
    rw [show 64 * (w + 1) = 64 * w + j + (64 - j) by omega, List.range'_append_1]
    congr 1
    omega
  rw [nextSet, hsplit, List.find?_append]
  rfl

theorem scanUp_eq (hw : w < 4) (hf : 4 ≤ w + fuel) : scanUp bits fuel w word =
    ((firstBit word).map (64 * w + ·)).or (nextSet bits (64 * (w + 1))) := by
  induction fuel generalizing w word with
  | zero => omega
  | succ fuel ih =>
    rw [scanUp]
    cases firstBit word with
    | some bit => rfl
    | none =>
      dsimp only
      by_cases hlast : 4 ≤ w + 1
      · rw [if_pos hlast, show w + 1 = 4 by omega]
        rfl
      · have hnext := @nextSet_word bits (w + 1) 0 (by omega) (by decide)
        rw [if_neg hlast, ih (by omega) (by omega), firstBit_field, Option.map_none, Option.none_or]
        exact hnext.symm

theorem scanUp_from (hk : k < 256) :
    scanUp bits 4 (k / 64) (field bits 64 (k / 64) &&& maskFrom (k % 64)) =
      ((digits bits).filter (k ≤ ·)).head? := by
  rw [scanUp_eq (by omega) (by omega), firstBit_masked (by omega), ← nextSet_word (by omega) (by omega),
    Nat.div_add_mod, nextSet_eq]

theorem scanUp_start : scanUp bits 4 0 (field bits 64 0) = (digits bits).head? := by
  have h := @nextSet_word bits 0 0 (by decide) (by decide)
  rw [scanUp_eq (by decide) (by decide), firstBit_field]
  rw [nextSet_eq] at h
  refine h.symm.trans ?_
  rw [List.filter_eq_self.mpr fun x _ => by simp]

/-- The last set bit below `n`. -/
def lastBelow (bits n : ℕ) : Option ℕ := (List.range n).reverse.find? bits.testBit

theorem lastBelow_eq (h : k ≤ 256) : lastBelow bits k = ((digits bits).filter (· < k)).getLast? :=
  find?_before bits.testBit h

theorem lastBelow_word (bits w j : ℕ) : lastBelow bits (64 * w + j) =
    ((List.range' (64 * w) j).reverse.find? bits.testBit).or (lastBelow bits (64 * w)) := by
  have hsplit : List.range (64 * w + j) = List.range (64 * w) ++ List.range' (64 * w) j := by
    rw [List.range_eq_range', List.range_eq_range', ← List.range'_append_1, Nat.zero_add]
  rw [lastBelow, hsplit, List.reverse_append, List.find?_append]
  rfl

theorem lastBit_masked (hj : j < 64) (bits w : ℕ) :
    (lastBit (field bits 64 w &&& maskTo j)).map (64 * w + ·) =
      (List.range' (64 * w) (j + 1)).reverse.find? bits.testBit := by
  have hsplit : List.range 64 = List.range' 0 (j + 1) ++ List.range' (j + 1) (63 - j) := by
    rw [List.range_eq_range', show List.range' 0 64 = List.range' 0 (j + 1 + (63 - j)) by congr 1; omega,
      ← List.range'_append_1, Nat.zero_add]
  have hhigh : (List.range' (j + 1) (63 - j)).reverse.find? (field bits 64 w &&& maskTo j).testBit = none := by
    refine find?_none_of fun x hx => ?_
    have := (List.mem_range'_1.mp (List.mem_reverse.mp hx)).1
    rw [Nat.testBit_and, testBit_maskTo hj, decide_eq_false (show ¬ x ≤ j by omega), Bool.and_false]
  have hshift : List.range' (64 * w) (j + 1) = (List.range' 0 (j + 1)).map (64 * w + ·) := by
    rw [List.map_add_range']
    rfl
  rw [lastBit, hsplit, List.reverse_append, List.find?_append, hhigh, Option.none_or, hshift,
    ← List.map_reverse, List.find?_map]
  congr 1
  refine List.find?_congr fun x hx => ?_
  have := (List.mem_range'_1.mp (List.mem_reverse.mp hx)).2
  rw [Nat.testBit_and, testBit_maskTo hj, testBit_field, decide_eq_true (show x < 64 by omega),
    decide_eq_true (show x ≤ j by omega), Bool.true_and, Bool.and_true]
  rfl

theorem lastBit_field (bits w : ℕ) : (lastBit (field bits 64 w)).map (64 * w + ·) =
    (List.range' (64 * w) 64).reverse.find? bits.testBit := by
  have hfull : field bits 64 w &&& maskTo 63 = field bits 64 w := by
    apply Nat.eq_of_testBit_eq
    intro i
    rw [Nat.testBit_and, testBit_maskTo (by decide), testBit_field]
    by_cases h : i < 64
    · simp [h, show i ≤ 63 by omega]
    · simp [h]
  rw [← hfull, lastBit_masked (by decide)]

theorem scanDown_eq : scanDown bits w word = ((lastBit word).map (64 * w + ·)).or (lastBelow bits (64 * w)) := by
  induction w generalizing word with
  | zero =>
    rw [scanDown]
    cases lastBit word with
    | none => rfl
    | some bit => simp
  | succ w ih =>
    rw [scanDown]
    cases lastBit word with
    | some bit => rfl
    | none =>
      rw [Option.map_none, Option.none_or, ih, lastBit_field, Nat.mul_succ, ← lastBelow_word]

theorem scanDown_from (hk : k < 256) :
    scanDown bits (k / 64) (field bits 64 (k / 64) &&& maskTo (k % 64)) =
      ((digits bits).filter (· ≤ k)).getLast? := by
  have hle : ((digits bits).filter (· ≤ k)) = (digits bits).filter (· < k + 1) :=
    List.filter_congr fun x _ => decide_eq_decide.mpr Nat.lt_succ_iff.symm
  rw [scanDown_eq, lastBit_masked (by omega), ← lastBelow_word,
    show 64 * (k / 64) + (k % 64 + 1) = k + 1 by omega, lastBelow_eq (by omega), hle]

theorem scanDown_start : scanDown bits 3 (field bits 64 3) = (digits bits).getLast? := by
  rw [scanDown_eq, lastBit_field, ← lastBelow_word, lastBelow_eq (by decide)]
  rw [List.filter_eq_self.mpr fun x hx => by simpa using (mem_digits.mp hx).1]

/-- The bits of word `w` in the range `lo .. hi`. -/
def maskRange (w lo hi : ℕ) : ℕ :=
  if hi < 64 * w ∨ 64 * w + 63 < lo then 0
  else
    (if 64 * w < lo then maskFrom (lo - 64 * w) else 2 ^ 64 - 1) &&&
      (if hi < 64 * w + 63 then maskTo (hi - 64 * w) else 2 ^ 64 - 1)

def countRange (bits lo hi : ℕ) : ℕ :=
  ((List.range 4).map fun w => popcount (field bits 64 w &&& maskRange w lo hi)).sum

theorem testBit_maskRange {i : ℕ} (hi' : i < 64) :
    (maskRange w lo hi).testBit i = decide (lo ≤ 64 * w + i ∧ 64 * w + i ≤ hi) := by
  unfold maskRange
  split_ifs with hout hlo hhi hhi
  · rw [Nat.zero_testBit, decide_eq_false (by omega)]
  · rw [Nat.testBit_and, testBit_maskFrom (by omega), testBit_maskTo (by omega), ← Bool.decide_and,
      ← Bool.decide_and]
    exact decide_eq_decide.mpr (by omega)
  · rw [Nat.testBit_and, testBit_maskFrom (by omega), Nat.testBit_two_pow_sub_one, ← Bool.decide_and,
      ← Bool.decide_and]
    exact decide_eq_decide.mpr (by omega)
  · rw [Nat.testBit_and, testBit_maskTo (by omega), Nat.testBit_two_pow_sub_one, ← Bool.decide_and]
    exact decide_eq_decide.mpr (by omega)
  · rw [Nat.testBit_and, Nat.testBit_two_pow_sub_one, ← Bool.decide_and]
    exact decide_eq_decide.mpr (by omega)

theorem range_words : List.range 256 = (List.range 4).flatMap fun w => (List.range 64).map (64 * w + ·) := by
  have h4 : List.range 4 = [0, 1, 2, 3] := rfl
  rw [h4, show (256 : ℕ) = 64 + (64 + (64 + 64)) from rfl, List.range_add, List.range_add, List.range_add]
  simp [Function.comp_def, ← Nat.add_assoc]

theorem countRange_eq : countRange bits lo hi = (digits bits).countP fun d => decide (lo ≤ d ∧ d ≤ hi) := by
  rw [countRange, digits, range_words, List.filter_flatMap, List.countP_flatMap]
  congr 1
  refine List.map_congr_left fun w _ => ?_
  rw [popcount, Function.comp_apply, List.filter_map, List.countP_map, List.countP_filter,
    List.countP_eq_length_filter]
  congr 1
  refine List.filter_congr fun i hi' => ?_
  have h64 := List.mem_range.mp hi'
  rw [Nat.testBit_and, testBit_field, testBit_maskRange h64, decide_eq_true h64, Bool.true_and, Bool.and_comm]
  rfl

/-- `word & (word - 1)`: a word without its lowest bit. -/
def dropFirst (word : ℕ) : ℕ := word &&& (word - 1)

def bitsOfWord (word : ℕ) : List ℕ := (List.range 64).filter word.testBit

/-- The set bits of four words, from word `w` on. -/
def wordsFrom (ws : List ℕ) (w : ℕ) : List ℕ :=
  (List.range' w (4 - w)).flatMap fun i => (bitsOfWord (ws.getD i 0)).map (64 * i + ·)

theorem firstBit_eq (word : ℕ) : firstBit word = (bitsOfWord word).head? := List.head?_filter.symm

theorem testBit_dropFirst {b : ℕ} (hb : word.testBit b = true) (hlow : ∀ i < b, word.testBit i = false) (i : ℕ) :
    (dropFirst word).testBit i = (word.testBit i && decide (i ≠ b)) := by
  have hmod : word % 2 ^ (b + 1) = 2 ^ b := by
    apply Nat.eq_of_testBit_eq
    intro j
    rw [Nat.testBit_mod_two_pow, Nat.testBit_two_pow]
    rcases Nat.lt_trichotomy j b with h | rfl | h
    · rw [hlow j h, Bool.and_false, decide_eq_false h.ne']
    · rw [hb, decide_eq_true (Nat.lt_succ_self j), decide_eq_true rfl]
      rfl
    · rw [decide_eq_false (by omega), decide_eq_false (by omega), Bool.false_and]
  have hpos : 0 < 2 ^ b := Nat.two_pow_pos b
  have hpred : word - 1 = 2 ^ (b + 1) * (word / 2 ^ (b + 1)) + (2 ^ b - 1) := by
    have := Nat.div_add_mod word (2 ^ (b + 1))
    omega
  have hlt : 2 ^ b - 1 < 2 ^ (b + 1) := by
    rw [Nat.pow_succ]
    omega
  rw [dropFirst, Nat.testBit_and, hpred, Nat.testBit_two_pow_mul_add _ hlt, Nat.testBit_two_pow_sub_one,
    Nat.testBit_div_two_pow]
  rcases Nat.lt_trichotomy i b with h | rfl | h
  · rw [hlow i h, Bool.false_and, Bool.false_and]
  · rw [if_pos (Nat.lt_succ_self i)]
    simp
  · rw [if_neg (by omega), show i - (b + 1) + (b + 1) = i by omega, decide_eq_true h.ne', Bool.and_self,
      Bool.and_true]

theorem bitsOfWord_sorted (word : ℕ) : (bitsOfWord word).Pairwise (· < ·) :=
  List.pairwise_lt_range.sublist List.filter_sublist

/-- Dropping the lowest bit takes the head. -/
theorem bitsOfWord_dropFirst {b : ℕ} {bs : List ℕ} (h : bitsOfWord word = b :: bs) :
    bitsOfWord (dropFirst word) = bs := by
  have hs := bitsOfWord_sorted word
  rw [h] at hs
  have hmem : b ∈ bitsOfWord word := by
    rw [h]
    exact List.mem_cons_self
  obtain ⟨hb64, hbit⟩ := List.mem_filter.mp hmem
  have hlow : ∀ i < b, word.testBit i = false := by
    intro i hi
    by_contra hne
    have hi' : i ∈ bitsOfWord word := List.mem_filter.mpr
      ⟨List.mem_range.mpr (lt_trans hi (List.mem_range.mp hb64)), by simpa using hne⟩
    rw [h] at hi'
    rcases List.mem_cons.mp hi' with rfl | hi'
    · omega
    · have := (List.pairwise_cons.mp hs).1 i hi'
      omega
  calc bitsOfWord (dropFirst word) = (bitsOfWord word).filter fun i => !decide (b = i) := by
        rw [bitsOfWord, bitsOfWord, List.filter_filter]
        refine List.filter_congr fun i _ => ?_
        rw [testBit_dropFirst hbit hlow, Bool.and_comm]
        congr 1
        simp [eq_comm]
    _ = bs := by
        rw [h]
        exact filter_ne_head hs

theorem bitsOfWord_zero : bitsOfWord 0 = [] := by
  rw [bitsOfWord, List.filter_eq_nil_iff]
  intro x _
  simp

theorem eq_zero_of_bits (hw : word < 2 ^ 64) (h : bitsOfWord word = []) : word = 0 := by
  apply Nat.eq_of_testBit_eq
  intro i
  rw [Nat.zero_testBit]
  by_cases hi : i < 64
  · have := List.filter_eq_nil_iff.mp h i (List.mem_range.mpr hi)
    simpa using this
  · exact Nat.testBit_lt_two_pow (lt_of_lt_of_le hw (Nat.pow_le_pow_right (by decide) (by omega)))

theorem wordsFrom_succ {ws : List ℕ} (hw : w < 4) :
    wordsFrom ws w = (bitsOfWord (ws.getD w 0)).map (64 * w + ·) ++ wordsFrom ws (w + 1) := by
  rw [wordsFrom, show 4 - w = 4 - (w + 1) + 1 by omega, List.range'_succ, List.flatMap_cons]
  rfl

/-- Words below the one read may change. -/
theorem wordsFrom_set {ws : List ℕ} {v x : ℕ} (hv : v < w) : wordsFrom (ws.set v x) w = wordsFrom ws w := by
  rw [wordsFrom, wordsFrom]
  refine List.flatMap_congr fun i hi => ?_
  have hi' := (List.mem_range'_1.mp hi).1
  rw [List.getD_eq_getElem?_getD, List.getElem?_set_ne (by omega), ← List.getD_eq_getElem?_getD]

/-- The words of a bitmap with the bits below `start` cleared. -/
def startWords (bits start : ℕ) : List ℕ :=
  (List.range 4).map fun w =>
    if w < start / 64 then 0
    else if w = start / 64 then field bits 64 w &&& maskFrom (start % 64)
    else field bits 64 w

theorem startWords_getD (bits start : ℕ) (hw : w < 4) : (startWords bits start).getD w 0 =
    if w < start / 64 then 0
    else if w = start / 64 then field bits 64 w &&& maskFrom (start % 64)
    else field bits 64 w := by
  rw [List.getD_eq_getElem?_getD, startWords, List.getElem?_map, List.getElem?_range hw]
  rfl

theorem startWords_lt (bits start : ℕ) : (startWords bits start).getD w 0 < 2 ^ 64 := by
  by_cases hw : w < 4
  · rw [startWords_getD bits start hw]
    split_ifs
    · decide
    · exact lt_of_le_of_lt Nat.and_le_left field_lt
    · exact field_lt
  · have hlen : (startWords bits start).length ≤ w := by
      rw [startWords, List.length_map, List.length_range]
      omega
    rw [List.getD_eq_getElem?_getD, List.getElem?_eq_none hlen]
    decide

theorem wordsFrom_start (bits start : ℕ) : wordsFrom (startWords bits start) 0 =
    (digits bits).filter (start ≤ ·) := by
  rw [wordsFrom, digits, range_words, List.filter_flatMap, List.filter_flatMap, ← List.range_eq_range']
  refine List.flatMap_congr fun w hw => ?_
  have hw4 := List.mem_range.mp hw
  rw [bitsOfWord, List.filter_map, List.filter_map, List.filter_filter, startWords_getD bits start hw4]
  congr 1
  refine List.filter_congr fun i hi => ?_
  have h64 := List.mem_range.mp hi
  simp only [Function.comp_apply]
  split_ifs with h1 h2
  · rw [Nat.zero_testBit, decide_eq_false (by omega), Bool.false_and]
  · rw [Nat.testBit_and, testBit_field, testBit_maskFrom (by omega), decide_eq_true h64, Bool.true_and,
      Bool.true_and, Bool.and_comm]
    congr 1
    exact decide_eq_decide.mpr (by omega)
  · rw [testBit_field, decide_eq_true h64, Bool.true_and, decide_eq_true (show start ≤ 64 * w + i by omega),
      Bool.true_and]

/-- The words at the two ends of a range, masked to it. -/
def endMask (lo hi w word : ℕ) : ℕ :=
  let word := if w = lo / 64 then word &&& maskFrom (lo % 64) else word
  if w = hi / 64 ∧ hi % 64 ≠ 63 then word &&& (2 ^ (hi % 64 + 1) - 1) else word

def rangeBits (bits lo hi : ℕ) : List ℕ :=
  (List.range' (lo / 64) (hi / 64 + 1 - lo / 64)).flatMap fun w =>
    (bitsOfWord (endMask lo hi w (field bits 64 w))).map (64 * w + ·)

theorem testBit_endMask {i : ℕ} (hi' : i < 64) (h1 : lo / 64 ≤ w) (h2 : w ≤ hi / 64) :
    (endMask lo hi w (field bits 64 w)).testBit i =
      (decide (lo ≤ 64 * w + i ∧ 64 * w + i ≤ hi) && bits.testBit (64 * w + i)) := by
  have hfield : (field bits 64 w).testBit i = bits.testBit (64 * w + i) := by
    rw [testBit_field, decide_eq_true hi', Bool.true_and]
  have hlow : (if w = lo / 64 then field bits 64 w &&& maskFrom (lo % 64) else field bits 64 w).testBit i =
      (decide (lo ≤ 64 * w + i) && bits.testBit (64 * w + i)) := by
    split_ifs with h
    · rw [Nat.testBit_and, testBit_maskFrom (by omega), decide_eq_true hi', Bool.true_and, hfield, Bool.and_comm]
      congr 1
      exact decide_eq_decide.mpr (by omega)
    · rw [hfield, decide_eq_true (by omega), Bool.true_and]
  rw [endMask, Bool.decide_and]
  by_cases h : w = hi / 64 ∧ hi % 64 ≠ 63
  · rw [if_pos h, Nat.testBit_and, hlow, Nat.testBit_two_pow_sub_one, Bool.and_right_comm]
    congr 2
    exact decide_eq_decide.mpr (by omega)
  · rw [if_neg h, hlow, decide_eq_true (p := 64 * w + i ≤ hi) (by omega), Bool.and_true]

theorem rangeBits_eq (hhi : hi < 256) : rangeBits bits lo hi = (digits bits).filter fun d => lo ≤ d ∧
    d ≤ hi := by
  have hwords : ((List.range 4).flatMap fun w =>
      ((List.range 64).map (64 * w + ·)).filter fun d => decide (lo ≤ d ∧ d ≤ hi) && bits.testBit d) =
      (List.range' (lo / 64) (hi / 64 + 1 - lo / 64)).flatMap fun w =>
        ((List.range 64).map (64 * w + ·)).filter fun d => decide (lo ≤ d ∧ d ≤ hi) && bits.testBit d := by
    have hout : ∀ w, w < lo / 64 ∨ hi / 64 < w → ((List.range 64).map (64 * w + ·)).filter
        (fun d => decide (lo ≤ d ∧ d ≤ hi) && bits.testBit d) = [] := by
      intro w hw
      refine List.filter_eq_nil_iff.mpr fun d hd => ?_
      obtain ⟨i, hi', rfl⟩ := List.mem_map.mp hd
      have := List.mem_range.mp hi'
      rw [decide_eq_false (by omega), Bool.false_and]
      exact Bool.false_ne_true
    by_cases hne : lo / 64 ≤ hi / 64 + 1
    · have hsplit : List.range 4 = List.range' 0 (lo / 64) ++ (List.range' (lo / 64) (hi / 64 + 1 - lo / 64) ++
          List.range' (hi / 64 + 1) (4 - (hi / 64 + 1))) := by
        rw [List.range_eq_range', show List.range' (hi / 64 + 1) (4 - (hi / 64 + 1)) =
          List.range' (lo / 64 + (hi / 64 + 1 - lo / 64)) (4 - (hi / 64 + 1)) by congr 1; omega,
            List.range'_append_1, show List.range' (lo / 64) (hi / 64 + 1 - lo / 64 + (4 - (hi / 64 + 1))) =
          List.range' (0 + lo / 64) (hi / 64 + 1 - lo / 64 + (4 - (hi / 64 + 1))) by congr 1; omega,
            List.range'_append_1]
        congr 1
        omega
      have hbelow := List.flatMap_eq_nil_iff.mpr fun w (hw : w ∈ List.range' 0 (lo / 64)) => hout w (.inl (by
        have := (List.mem_range'_1.mp hw).2
        omega))
      have habove := List.flatMap_eq_nil_iff.mpr fun w
          (hw : w ∈ List.range' (hi / 64 + 1) (4 - (hi / 64 + 1))) =>
        hout w (.inr (List.mem_range'_1.mp hw).1)
      rw [hsplit, List.flatMap_append, List.flatMap_append, hbelow, habove, List.nil_append, List.append_nil]
    · rw [show hi / 64 + 1 - lo / 64 = 0 by omega, List.flatMap_eq_nil_iff.mpr fun w _ =>
        hout w (by omega)]
      rfl
  rw [digits, range_words, List.filter_flatMap, List.filter_flatMap, rangeBits]
  simp only [List.filter_filter]
  rw [hwords]
  refine List.flatMap_congr fun w hw => ?_
  obtain ⟨h1, h2⟩ := List.mem_range'_1.mp hw
  rw [bitsOfWord, List.filter_map]
  congr 1
  exact List.filter_congr fun i hi' => testBit_endMask (List.mem_range.mp hi') h1 (by omega)

end Expanse.Bitmap
