import Expanse.Library.SortedAssoc

/-!
# Bitmaps over 256 digits and arrays ranked by them

A 256-bit membership bitmap splits into eight subexpanses of 32 digits. A ranked
array keeps, for each subexpanse, one packed row of items; the item of a digit
sits at the number of present digits below it inside its subexpanse.
-/

namespace Expanse

open SortedAssoc

theorem pairwise_lt_ext {l l' : List ℕ} (h : l.Pairwise (· < ·)) (h' : l'.Pairwise (· < ·))
    (hmem : ∀ x, x ∈ l ↔ x ∈ l') : l = l' := by
  have hn : ∀ {m : List ℕ}, m.Pairwise (· < ·) → m.Nodup := fun hm => hm.imp Nat.ne_of_lt
  exact ((List.perm_ext_iff_of_nodup (hn h) (hn h')).mpr hmem).eq_of_pairwise
    (fun a b _ _ hab hba => absurd hab (Nat.lt_asymm hba)) h h'

namespace Bitmap

def set (bits d : ℕ) : ℕ := bits ||| 2 ^ d

def clear (bits d : ℕ) : ℕ := bits ^^^ (bits &&& 2 ^ d)

def digits (bits : ℕ) : List ℕ := (List.range 256).filter bits.testBit

def count (bits : ℕ) : ℕ := (digits bits).length

/-- The present digits of one 32-digit subexpanse, ascending. -/
def subDigits (bits sub : ℕ) : List ℕ := (List.range' (32 * sub) 32).filter bits.testBit

/-- The present digits below `d` inside its subexpanse. -/
def subexpanseRank (bits d : ℕ) : ℕ :=
  ((List.range' (32 * (d / 32)) (d % 32)).filter bits.testBit).length

/-- The least present digit at or above `d`. -/
def nextSet (bits d : ℕ) : Option ℕ := (List.range' d (256 - d)).find? bits.testBit

/-- The greatest present digit at or below `d`. -/
def prevSet (bits d : ℕ) : Option ℕ := (List.range (d + 1)).reverse.find? bits.testBit

@[simp] theorem testBit_set (bits d i : ℕ) :
    (set bits d).testBit i = (bits.testBit i || decide (d = i)) := by
  simp [set, Nat.testBit_or, Nat.testBit_two_pow]

@[simp] theorem testBit_clear (bits d i : ℕ) :
    (clear bits d).testBit i = (bits.testBit i && !decide (d = i)) := by
  rw [clear, Nat.testBit_xor, Nat.testBit_and, Nat.testBit_two_pow]
  by_cases h : d = i <;> simp [h]

@[simp] theorem mem_digits {bits d : ℕ} : d ∈ digits bits ↔ d < 256 ∧ bits.testBit d = true := by
  simp [digits]

theorem digits_sorted (bits : ℕ) : (digits bits).Pairwise (· < ·) :=
  List.pairwise_lt_range.sublist List.filter_sublist

theorem count_le (bits : ℕ) : count bits ≤ 256 := by
  have := List.length_filter_le bits.testBit (List.range 256)
  rwa [List.length_range] at this

theorem testBit_of_count {bits d : ℕ} (h : count bits = 256) (hd : d < 256) :
    bits.testBit d = true := by
  have hall := List.length_filter_eq_length_iff.mp
    (show ((List.range 256).filter bits.testBit).length = (List.range 256).length by
      rw [List.length_range]
      exact h)
  exact hall d (List.mem_range.mpr hd)

theorem count_set {bits d : ℕ} (hb : bits.testBit d = false) (hd : d < 256) :
    count (set bits d) = count bits + 1 := by
  have hn : d ∉ digits bits := by simp [hb]
  have he : digits (set bits d) = (digits bits).insertIdx (lowerBound (digits bits) d) d := by
    apply pairwise_lt_ext (digits_sorted _) (pairwise_insert (digits_sorted _) hn)
    intro x
    rw [List.mem_insertIdx (lowerBound_le _ _), mem_digits, mem_digits, testBit_set]
    by_cases hx : d = x
    · subst hx
      simp [hd]
    · simp [hx, Ne.symm hx]
  rw [count, he, List.length_insertIdx_of_le_length (lowerBound_le _ _), count]

theorem mem_subDigits {bits sub d : ℕ} :
    d ∈ subDigits bits sub ↔ d / 32 = sub ∧ bits.testBit d = true := by
  simp only [subDigits, List.mem_filter, List.mem_range'_1]
  constructor
  · rintro ⟨h, hb⟩
    exact ⟨by omega, hb⟩
  · rintro ⟨h, hb⟩
    exact ⟨by omega, hb⟩

theorem subDigits_sorted (bits sub : ℕ) : (subDigits bits sub).Pairwise (· < ·) :=
  (List.pairwise_lt_range').sublist List.filter_sublist

theorem subexpanseRank_set (bits d : ℕ) : subexpanseRank (set bits d) d = subexpanseRank bits d := by
  unfold subexpanseRank
  congr 1
  apply List.filter_congr
  intro x hx
  rw [List.mem_range'_1] at hx
  rw [testBit_set, decide_eq_false (by omega), Bool.or_false]

theorem nextSet_eq_some {bits k d : ℕ} :
    nextSet bits k = some d ↔ k ≤ d ∧ d < 256 ∧ bits.testBit d = true ∧
      ∀ j, k ≤ j → j < d → bits.testBit j = false := by
  rw [nextSet, List.find?_range'_eq_some]
  simp only [List.mem_range'_1, Bool.not_eq_true']
  constructor
  · rintro ⟨hb, ⟨h1, h2⟩, hmin⟩
    exact ⟨h1, by omega, hb, hmin⟩
  · rintro ⟨h1, h2, hb, hmin⟩
    exact ⟨hb, ⟨h1, by omega⟩, hmin⟩

theorem subexpanseRank_eq (bits d : ℕ) :
    subexpanseRank bits d = lowerBound (subDigits bits (d / 32)) d := by
  have hsplit : List.range' (32 * (d / 32)) 32 =
      List.range' (32 * (d / 32)) (d % 32) ++ List.range' d (32 - d % 32) := by
    have h := List.range'_append_1 (s := 32 * (d / 32)) (m := d % 32) (n := 32 - d % 32)
    rw [show 32 * (d / 32) + d % 32 = d by omega, show d % 32 + (32 - d % 32) = 32 by omega] at h
    exact h.symm
  rw [subDigits, hsplit, List.filter_append, lowerBound_append]
  · rw [subexpanseRank]
    have hge : ∀ x ∈ (List.range' d (32 - d % 32)).filter bits.testBit, d ≤ x := by
      intro x hx
      simp only [List.mem_filter, List.mem_range'_1] at hx
      omega
    cases h : (List.range' d (32 - d % 32)).filter bits.testBit with
    | nil => simp [lowerBound]
    | cons y ys =>
      have := hge y (by simp [h])
      simp [lowerBound, this]
  · intro x hx
    simp only [List.mem_filter, List.mem_range'_1] at hx
    omega

theorem subDigits_set {bits d : ℕ} (hd : bits.testBit d = false) (sub : ℕ) :
    subDigits (set bits d) sub =
      if sub = d / 32 then (subDigits bits sub).insertIdx (lowerBound (subDigits bits sub) d) d
      else subDigits bits sub := by
  have hnot : d ∉ subDigits bits sub := by
    rw [mem_subDigits]
    simp [hd]
  split_ifs with hs
  · apply pairwise_lt_ext (subDigits_sorted _ _) (pairwise_insert (subDigits_sorted _ _) hnot)
    intro x
    rw [List.mem_insertIdx (lowerBound_le _ _), mem_subDigits, mem_subDigits, testBit_set]
    by_cases hx : d = x
    · subst hx
      simp [hs]
    · simp [hx, Ne.symm hx]
  · apply pairwise_lt_ext (subDigits_sorted _ _) (subDigits_sorted _ _)
    intro x
    rw [mem_subDigits, mem_subDigits, testBit_set]
    by_cases hx : d = x
    · subst hx
      simp [Ne.symm hs]
    · simp [hx]

theorem mem_eraseIdx_lowerBound {l : List ℕ} (hs : l.Pairwise (· < ·)) {d : ℕ} (hd : d ∈ l)
    (x : ℕ) : x ∈ l.eraseIdx (lowerBound l d) ↔ x ≠ d ∧ x ∈ l := by
  have hn : l.Nodup := hs.imp Nat.ne_of_lt
  have hg := getElem?_lowerBound hs hd
  rw [List.mem_eraseIdx_iff_getElem?]
  constructor
  · rintro ⟨i, hi, hx⟩
    refine ⟨?_, List.mem_of_getElem? hx⟩
    rintro rfl
    exact hi ((List.getElem?_inj (List.getElem?_eq_some_iff.mp hx).1 hn).mp (hx.trans hg.symm))
  · rintro ⟨hx, hm⟩
    obtain ⟨i, hi⟩ := List.mem_iff_getElem?.mp hm
    refine ⟨i, ?_, hi⟩
    rintro rfl
    exact hx (Option.some.inj (hi.symm.trans hg))

theorem subDigits_clear {bits d : ℕ} (hd : bits.testBit d = true) (sub : ℕ) :
    subDigits (clear bits d) sub =
      if sub = d / 32 then (subDigits bits sub).eraseIdx (lowerBound (subDigits bits sub) d)
      else subDigits bits sub := by
  split_ifs with hs
  · have hm : d ∈ subDigits bits sub := mem_subDigits.mpr ⟨hs.symm, hd⟩
    apply pairwise_lt_ext (subDigits_sorted _ _)
      ((subDigits_sorted _ _).sublist (List.eraseIdx_sublist _ _))
    intro x
    rw [mem_eraseIdx_lowerBound (subDigits_sorted _ _) hm, mem_subDigits, mem_subDigits,
      testBit_clear]
    by_cases hx : d = x
    · simp [hx]
    · simp [hx, Ne.symm hx]
  · apply pairwise_lt_ext (subDigits_sorted _ _) (subDigits_sorted _ _)
    intro x
    rw [mem_subDigits, mem_subDigits, testBit_clear]
    by_cases hx : d = x
    · subst hx
      simp [Ne.symm hs]
    · simp [hx]

end Bitmap

/-- A bitmap with one packed row of items per 32-digit subexpanse. -/
structure Ranked (α : Type*) where
  bits : ℕ
  subs : List (List α)

namespace Ranked

variable {α : Type*}

def empty : Ranked α := ⟨0, List.replicate 8 []⟩

/-- The row of subexpanse `sub`. -/
def sub (r : Ranked α) (sub : ℕ) : List α := r.subs.getD sub []

/-- The item of digit `d`: test its bit, then index its row by rank. -/
def get (r : Ranked α) (d : ℕ) : Option α :=
  if r.bits.testBit d then (r.sub (d / 32))[Bitmap.subexpanseRank r.bits d]? else none

/-- Overwrite the item of a present digit. -/
def set (r : Ranked α) (d : ℕ) (a : α) : Ranked α :=
  ⟨r.bits, r.subs.modify (d / 32) fun row => row.set (Bitmap.subexpanseRank r.bits d) a⟩

/-- Open a row position for an absent digit. -/
def insert (r : Ranked α) (d : ℕ) (a : α) : Ranked α :=
  ⟨Bitmap.set r.bits d,
    r.subs.modify (d / 32) fun row => row.insertIdx (Bitmap.subexpanseRank r.bits d) a⟩

/-- Close the row position of a present digit. -/
def remove (r : Ranked α) (d : ℕ) : Ranked α :=
  ⟨Bitmap.clear r.bits d,
    r.subs.modify (d / 32) fun row => row.eraseIdx (Bitmap.subexpanseRank r.bits d)⟩

/-- Append the item of a digit above every present one. -/
def push (r : Ranked α) (d : ℕ) (a : α) : Ranked α :=
  ⟨Bitmap.set r.bits d, r.subs.modify (d / 32) fun row => row ++ [a]⟩

/-- Pack ascending entries: count digits per subexpanse and fill each row in order. -/
def ofEntries (l : List (ℕ × α)) : Ranked α := l.foldl (fun r e => r.push e.1 e.2) empty

def row (r : Ranked α) (i : ℕ) : List (ℕ × α) := (Bitmap.subDigits r.bits i).zip (r.sub i)

def entries (r : Ranked α) : List (ℕ × α) := (List.range 8).flatMap r.row

/-- Every row is as long as its subexpanse has digits, and no bit lies beyond 256. -/
structure Ok (r : Ranked α) : Prop where
  rows : r.subs.length = 8
  fit : ∀ i < 8, (r.sub i).length = (Bitmap.subDigits r.bits i).length
  bound : ∀ d, r.bits.testBit d = true → d < 256

theorem empty_ok : (empty : Ranked α).Ok where
  rows := by simp [empty]
  fit := by
    intro i hi
    have h0 : Bitmap.subDigits 0 i = [] := by simp [Bitmap.subDigits]
    have hs : (empty : Ranked α).sub i = [] := by
      rw [sub, List.getD_eq_getElem?_getD, empty, List.getElem?_replicate, if_pos hi]
      rfl
    rw [hs]
    simp [empty, h0]
  bound := by simp [empty]

theorem mem_row {r : Ranked α} {i d : ℕ} {a : α} :
    (d, a) ∈ r.row i ↔ d / 32 = i ∧ r.get d = some a := by
  constructor
  · intro hm
    obtain ⟨j, hj⟩ := List.mem_iff_getElem?.mp hm
    rw [row, List.getElem?_zip_eq_some] at hj
    obtain ⟨hd, ha⟩ := hj
    obtain ⟨hs, hb⟩ := Bitmap.mem_subDigits.mp (List.mem_of_getElem? hd)
    subst hs
    have hg := getElem?_lowerBound (Bitmap.subDigits_sorted r.bits (d / 32))
      (List.mem_of_getElem? hd)
    have hn : (Bitmap.subDigits r.bits (d / 32)).Nodup :=
      (Bitmap.subDigits_sorted _ _).imp Nat.ne_of_lt
    have hrank : Bitmap.subexpanseRank r.bits d = j := by
      rw [Bitmap.subexpanseRank_eq]
      exact (List.getElem?_inj (List.getElem?_eq_some_iff.mp hg).1 hn).mp (hg.trans hd.symm)
    exact ⟨rfl, by rw [get, if_pos hb, hrank]; exact ha⟩
  · rintro ⟨rfl, hg⟩
    unfold get at hg
    split_ifs at hg with hb
    rw [Bitmap.subexpanseRank_eq] at hg
    apply List.mem_of_getElem? (i := lowerBound (Bitmap.subDigits r.bits (d / 32)) d)
    rw [row, List.getElem?_zip_eq_some]
    exact ⟨getElem?_lowerBound (Bitmap.subDigits_sorted _ _) (Bitmap.mem_subDigits.mpr ⟨rfl, hb⟩),
      hg⟩

section Rows

variable {r : Ranked α} (h : r.Ok)

include h

theorem row_keys {i : ℕ} (hi : i < 8) : (r.row i).map Prod.fst = Bitmap.subDigits r.bits i :=
  List.map_fst_zip (le_of_eq (h.fit i hi).symm)

theorem row_sorted {i : ℕ} (hi : i < 8) : KeySorted (r.row i) := by
  rw [keySorted_iff, row_keys h hi]
  exact Bitmap.subDigits_sorted r.bits i

theorem get_bound {d : ℕ} {a : α} (hg : r.get d = some a) : d < 256 := by
  unfold get at hg
  split_ifs at hg with hb
  exact h.bound d hb

theorem mem_entries {d : ℕ} {a : α} : (d, a) ∈ r.entries ↔ r.get d = some a := by
  simp only [entries, List.mem_flatMap, List.mem_range]
  constructor
  · rintro ⟨i, hi, hm⟩
    exact ((mem_row).mp hm).2
  · intro hg
    have hd := get_bound h hg
    exact ⟨d / 32, by omega, (mem_row).mpr ⟨rfl, hg⟩⟩

theorem entries_sorted : KeySorted r.entries := by
  rw [KeySorted, entries, List.pairwise_flatMap]
  constructor
  · intro i hi
    exact row_sorted h (List.mem_range.mp hi)
  · apply List.pairwise_lt_range.imp_of_mem
    rintro i j hi hj hij ⟨x, a⟩ hx ⟨y, b⟩ hy
    have h1 := ((mem_row).mp hx).1
    have h2 := ((mem_row).mp hy).1
    change x < y
    omega

theorem get_isSome {d : ℕ} : (r.get d).isSome ↔ r.bits.testBit d = true := by
  constructor
  · intro hs
    unfold get at hs
    split_ifs at hs with hb
    · exact hb
    · simp at hs
  · intro hb
    have hd := h.bound d hb
    have hm := Bitmap.mem_subDigits.mpr ⟨rfl, hb⟩
    rw [← row_keys h (show d / 32 < 8 by omega)] at hm
    obtain ⟨⟨x, a⟩, hx, rfl⟩ := List.mem_map.mp hm
    rw [((mem_row).mp hx).2]
    rfl

/-- The next present digit is the first entry at or above it. -/
theorem find?_entries (k : ℕ) : (r.entries.find? fun e => k ≤ e.1) =
    (Bitmap.nextSet r.bits k).bind fun d => (r.get d).map fun a => (d, a) := by
  apply Option.ext
  rintro ⟨d, a⟩
  rw [(entries_sorted h).find?_eq_some]
  simp only [Option.bind_eq_some_iff, Option.map_eq_some_iff, Prod.mk.injEq, mem_entries h,
    Bitmap.nextSet_eq_some]
  constructor
  · rintro ⟨hg, hk, hmin⟩
    refine ⟨d, ⟨hk, get_bound h hg, (get_isSome h).mp (by rw [hg]; rfl), ?_⟩, a, hg, rfl, rfl⟩
    intro j hkj hjd
    rw [← Bool.not_eq_true, ← get_isSome h]
    intro hj
    obtain ⟨w, hw⟩ := Option.isSome_iff_exists.mp hj
    have := hmin j w hw hkj
    omega
  · rintro ⟨_, ⟨hk, -, -, hmin⟩, _, hg, rfl, rfl⟩
    refine ⟨hg, hk, ?_⟩
    intro x w hx hkx
    by_contra hlt
    have hb := hmin x hkx (by omega)
    rw [← Bool.not_eq_true, ← get_isSome h, hx] at hb
    simp at hb

theorem entries_keys : r.entries.map Prod.fst = Bitmap.digits r.bits := by
  apply pairwise_lt_ext (keySorted_iff.mp (entries_sorted h)) (Bitmap.digits_sorted _)
  intro x
  rw [Bitmap.mem_digits]
  constructor
  · intro hx
    obtain ⟨⟨y, a⟩, hy, rfl⟩ := List.mem_map.mp hx
    have hg := (mem_entries h).mp hy
    exact ⟨get_bound h hg, (get_isSome h).mp (by rw [hg]; rfl)⟩
  · rintro ⟨_, hb⟩
    obtain ⟨a, ha⟩ := Option.isSome_iff_exists.mp ((get_isSome h).mpr hb)
    exact List.mem_map.mpr ⟨(x, a), (mem_entries h).mpr ha, rfl⟩

end Rows

theorem sub_modify (subs : List (List α)) (bits j i : ℕ) (f : List α → List α)
    (hj : j < subs.length) :
    (Ranked.mk bits (subs.modify j f)).sub i =
      if i = j then f ((Ranked.mk bits subs).sub i) else (Ranked.mk bits subs).sub i := by
  unfold sub
  simp only [List.getD_eq_getElem?_getD, List.getElem?_modify]
  by_cases hij : j = i
  · subst hij
    simp [hj]
  · simp [hij, Ne.symm hij]

section Edits

variable {r : Ranked α} (h : r.Ok) {d : ℕ}

include h

theorem set_ok (hd : d < 256) (a : α) : (r.set d a).Ok where
  rows := by simp [set, h.rows]
  fit := by
    intro i hi
    have hrow : (r.set d a).sub i = if i = d / 32 then
        (r.sub i).set (Bitmap.subexpanseRank r.bits d) a else r.sub i :=
      sub_modify r.subs r.bits (d / 32) i _ (by rw [h.rows]; omega)
    rw [hrow]
    split_ifs
    · rw [List.length_set]
      exact h.fit i hi
    · exact h.fit i hi
  bound := h.bound

omit h in
theorem set_set (a b : α) : (r.set d a).set d b = r.set d b := by
  simp only [set, List.modify_modify_eq, Function.comp_def, List.set_set]

omit h in
/-- Stores at two digits do not interfere. -/
theorem set_comm {d' : ℕ} (hd : r.bits.testBit d = true) (hd' : r.bits.testBit d' = true)
    (hne : d ≠ d') (a b : α) : (r.set d a).set d' b = (r.set d' b).set d a := by
  obtain ⟨bits, subs⟩ := r
  simp only [set, Ranked.mk.injEq, true_and]
  by_cases hs : d / 32 = d' / 32
  · rw [hs, List.modify_modify_eq, List.modify_modify_eq]
    congr 1
    funext row
    apply List.set_comm
    -- equal ranks in one row would be equal digits
    intro hr
    have hrank : ∀ y, bits.testBit y = true →
        (Bitmap.subDigits bits (y / 32))[Bitmap.subexpanseRank bits y]? = some y := by
      intro y hy
      rw [Bitmap.subexpanseRank_eq]
      exact getElem?_lowerBound (Bitmap.subDigits_sorted _ _) (Bitmap.mem_subDigits.mpr ⟨rfl, hy⟩)
    have h1 := hrank d hd
    have h2 := hrank d' hd'
    rw [hs, hr, h2] at h1
    cases h1
    exact hne rfl
  · rw [List.modify_modify_ne _ _ _ (fun h => hs h)]

omit h in
/-- Writing back what a digit holds changes nothing. -/
theorem set_get {a : α} (hg : r.get d = some a) : r.set d a = r := by
  obtain ⟨bits, subs⟩ := r
  unfold get at hg
  split_ifs at hg with hb
  have hid : (subs.modify (d / 32) fun row => row.set (Bitmap.subexpanseRank bits d) a) = subs := by
    apply List.ext_getElem?
    intro i
    rw [List.getElem?_modify]
    split_ifs with hi
    · subst hi
      cases hs : subs[d / 32]? with
      | none => rfl
      | some row =>
        simp only [sub, List.getD_eq_getElem?_getD, hs, Option.getD_some] at hg
        obtain ⟨hlt, he⟩ := List.getElem?_eq_some_iff.mp hg
        simp [← he]
    · simp
  simp only [set, hid]

theorem get_set (hb : r.bits.testBit d = true) (a : α) (x : ℕ) :
    (r.set d a).get x = if x = d then some a else r.get x := by
  have hd := h.bound d hb
  have hrow : (r.set d a).sub (x / 32) = if x / 32 = d / 32 then
      (r.sub (x / 32)).set (Bitmap.subexpanseRank r.bits d) a else r.sub (x / 32) :=
    sub_modify r.subs r.bits (d / 32) (x / 32) _ (by rw [h.rows]; omega)
  have hbits : (r.set d a).bits = r.bits := rfl
  have hidx : ∀ y, r.bits.testBit y = true →
      (Bitmap.subDigits r.bits (y / 32))[Bitmap.subexpanseRank r.bits y]? = some y := by
    intro y hy
    rw [Bitmap.subexpanseRank_eq]
    exact getElem?_lowerBound (Bitmap.subDigits_sorted _ _) (Bitmap.mem_subDigits.mpr ⟨rfl, hy⟩)
  unfold get
  rw [hbits, hrow]
  by_cases hx : x = d
  · subst hx
    have hlt : Bitmap.subexpanseRank r.bits x < (r.sub (x / 32)).length := by
      rw [h.fit _ (by omega)]
      exact (List.getElem?_eq_some_iff.mp (hidx x hb)).1
    simp [hb, hlt]
  · rw [if_neg hx]
    by_cases hbx : r.bits.testBit x = true
    · simp only [hbx, if_true]
      split_ifs with hs
      · rw [List.getElem?_set_ne]
        intro he
        have h1 := hidx x hbx
        have h2 := hidx d hb
        rw [hs, ← he] at h1
        exact hx (Option.some.inj (h1.symm.trans h2))
      · rfl
    · simp [hbx]

theorem insert_ok (hd : d < 256) (hb : r.bits.testBit d = false) (a : α) : (r.insert d a).Ok where
  rows := by simp [insert, h.rows]
  fit := by
    intro i hi
    have hrow : (r.insert d a).sub i = if i = d / 32 then
        (r.sub i).insertIdx (Bitmap.subexpanseRank r.bits d) a else r.sub i :=
      sub_modify r.subs (Bitmap.set r.bits d) (d / 32) i _ (by rw [h.rows]; omega)
    have hbits : (r.insert d a).bits = Bitmap.set r.bits d := rfl
    rw [hrow, hbits, Bitmap.subDigits_set hb]
    split_ifs with hs
    · rw [List.length_insertIdx, List.length_insertIdx, h.fit i hi, Bitmap.subexpanseRank_eq, hs]
    · exact h.fit i hi
  bound := by
    intro x hx
    simp only [insert, Bitmap.testBit_set, Bool.or_eq_true, decide_eq_true_eq] at hx
    rcases hx with hx | rfl
    · exact h.bound x hx
    · exact hd

theorem row_insert (hd : d < 256) (hb : r.bits.testBit d = false) (a : α) {i : ℕ} (hi : i < 8) :
    (r.insert d a).row i = if i = d / 32 then
      (r.row i).insertIdx (lowerBound ((r.row i).map Prod.fst) d) (d, a) else r.row i := by
  have hrow : (r.insert d a).sub i = if i = d / 32 then
      (r.sub i).insertIdx (Bitmap.subexpanseRank r.bits d) a else r.sub i :=
    sub_modify r.subs (Bitmap.set r.bits d) (d / 32) i _ (by rw [h.rows]; omega)
  have hbits : (r.insert d a).bits = Bitmap.set r.bits d := rfl
  rw [row, hrow, hbits, Bitmap.subDigits_set hb, row_keys h hi]
  split_ifs with hs
  · rw [Bitmap.subexpanseRank_eq, ← hs, row]
    exact zip_insertIdx (h.fit i hi).symm _ _ _
  · rfl

theorem get_insert (hd : d < 256) (hb : r.bits.testBit d = false) (a : α) (x : ℕ) :
    (r.insert d a).get x = if x = d then some a else r.get x := by
  have hok := insert_ok h hd hb a
  by_cases hx : x < 256
  · have hi : x / 32 < 8 := by omega
    have hkey : d ∉ (r.row (x / 32)).map Prod.fst := by
      rw [row_keys h hi, Bitmap.mem_subDigits]
      simp [hb]
    apply Option.ext
    intro y
    have hmem : (r.insert d a).get x = some y ↔ (x, y) ∈ (r.insert d a).row (x / 32) := by
      rw [mem_row]
      simp
    have hold : r.get x = some y ↔ (x, y) ∈ r.row (x / 32) := by
      rw [mem_row]
      simp
    rw [hmem, row_insert h hd hb a hi]
    by_cases hs : x / 32 = d / 32
    · rw [if_pos hs, updated_insertIdx ((lowerBound_le _ _).trans (by simp)) hkey x y]
      by_cases hxd : x = d
      · simp [hxd, eq_comm]
      · simp [hxd, hold]
    · rw [if_neg hs, ← hold]
      have hxd : x ≠ d := by rintro rfl; exact hs rfl
      simp [hxd]
  · have hnone : ∀ {r' : Ranked α}, r'.Ok → r'.get x = none := by
      intro r' hr'
      by_contra hne
      obtain ⟨y, hy⟩ := Option.ne_none_iff_exists'.mp hne
      exact hx (get_bound hr' hy)
    rw [hnone hok, hnone h, if_neg (by omega)]

theorem remove_ok (hb : r.bits.testBit d = true) : (r.remove d).Ok where
  rows := by simp [remove, h.rows]
  fit := by
    intro i hi
    have hd := h.bound d hb
    have hrow : (r.remove d).sub i = if i = d / 32 then
        (r.sub i).eraseIdx (Bitmap.subexpanseRank r.bits d) else r.sub i :=
      sub_modify r.subs (Bitmap.clear r.bits d) (d / 32) i _ (by rw [h.rows]; omega)
    have hbits : (r.remove d).bits = Bitmap.clear r.bits d := rfl
    rw [hrow, hbits, Bitmap.subDigits_clear hb]
    split_ifs with hs
    · rw [List.length_eraseIdx, List.length_eraseIdx, h.fit i hi, Bitmap.subexpanseRank_eq, hs]
    · exact h.fit i hi
  bound := by
    intro x hx
    simp only [remove, Bitmap.testBit_clear, Bool.and_eq_true] at hx
    exact h.bound x hx.1

theorem get_remove (hb : r.bits.testBit d = true) (x : ℕ) :
    (r.remove d).get x = if x = d then none else r.get x := by
  have hok := remove_ok h hb
  have hd := h.bound d hb
  have hbits : (r.remove d).bits = Bitmap.clear r.bits d := rfl
  by_cases hx : x = d
  · subst hx
    rw [if_pos rfl, get, hbits, Bitmap.testBit_clear]
    simp
  rw [if_neg hx]
  by_cases hx256 : x < 256
  · have hi : x / 32 < 8 := by omega
    have hrow : (r.remove d).row (x / 32) = if x / 32 = d / 32 then
        (r.row (x / 32)).eraseIdx (lowerBound (Bitmap.subDigits r.bits (d / 32)) d)
        else r.row (x / 32) := by
      have hsub : (r.remove d).sub (x / 32) = if x / 32 = d / 32 then
          (r.sub (x / 32)).eraseIdx (Bitmap.subexpanseRank r.bits d) else r.sub (x / 32) :=
        sub_modify r.subs (Bitmap.clear r.bits d) (d / 32) (x / 32) _ (by rw [h.rows]; omega)
      rw [row, hsub, hbits, Bitmap.subDigits_clear hb]
      split_ifs with hs
      · rw [Bitmap.subexpanseRank_eq, hs, zip_eraseIdx, row]
      · rfl
    apply Option.ext
    intro y
    have hmem : (r.remove d).get x = some y ↔ (x, y) ∈ (r.remove d).row (x / 32) := by
      rw [mem_row]
      simp
    have hold : r.get x = some y ↔ (x, y) ∈ r.row (x / 32) := by
      rw [mem_row]
      simp
    rw [hmem, hold, hrow]
    split_ifs with hs
    · obtain ⟨a, ha⟩ := Option.isSome_iff_exists.mp ((get_isSome h).mpr hb)
      have hrowd : (r.row (x / 32))[lowerBound (Bitmap.subDigits r.bits (d / 32)) d]? =
          some (d, a) := by
        rw [hs, row, List.getElem?_zip_eq_some, ← Bitmap.subexpanseRank_eq]
        refine ⟨?_, ?_⟩
        · rw [Bitmap.subexpanseRank_eq]
          exact getElem?_lowerBound (Bitmap.subDigits_sorted _ _)
            (Bitmap.mem_subDigits.mpr ⟨rfl, hb⟩)
        · unfold get at ha
          rwa [if_pos hb] at ha
      rw [erased_eraseIdx (row_sorted h hi) hrowd x y]
      simp [hx]
    · rfl
  · have hnone : ∀ {r' : Ranked α}, r'.Ok → r'.get x = none := by
      intro r' hr'
      by_contra hne
      obtain ⟨y, hy⟩ := Option.ne_none_iff_exists'.mp hne
      exact hx256 (get_bound hr' hy)
    rw [hnone hok, hnone h]

theorem push_eq_insert (hd : d < 256) (hlt : ∀ x, r.bits.testBit x = true → x < d) (a : α) :
    r.push d a = r.insert d a := by
  have hrank : Bitmap.subexpanseRank r.bits d = (r.sub (d / 32)).length := by
    rw [Bitmap.subexpanseRank_eq, h.fit _ (by omega)]
    apply lowerBound_of_all_lt
    intro x hx
    exact hlt x (Bitmap.mem_subDigits.mp hx).2
  unfold push insert
  congr 1
  apply List.ext_getElem?
  intro i
  simp only [List.getElem?_modify]
  by_cases hi : d / 32 = i
  · subst hi
    have hs : r.subs[d / 32]? = some (r.sub (d / 32)) := by
      rw [sub, List.getD_eq_getElem?_getD]
      have hlt' : d / 32 < r.subs.length := by rw [h.rows]; omega
      simp [hlt']
    simp [hs, hrank]
  · simp [hi]

end Edits

/-- Packing ascending entries below 256 keeps exactly those entries. -/
theorem foldl_push_spec {r : Ranked α} (h : r.Ok) {l : List (ℕ × α)} (hs : KeySorted l)
    (hb : ∀ e ∈ l, e.1 < 256) (hlt : ∀ x, r.bits.testBit x = true → ∀ e ∈ l, x < e.1) :
    (l.foldl (fun r e => r.push e.1 e.2) r).Ok ∧
      ∀ d a, (l.foldl (fun r e => r.push e.1 e.2) r).get d = some a ↔
        r.get d = some a ∨ (d, a) ∈ l := by
  induction l generalizing r with
  | nil => simp [h]
  | cons e l ih =>
    rw [KeySorted, List.pairwise_cons] at hs
    have hd := hb e (by simp)
    have hle : ∀ x, r.bits.testBit x = true → x < e.1 := fun x hx => hlt x hx e (by simp)
    have hbit : r.bits.testBit e.1 = false := by
      by_contra hne
      exact absurd (hle e.1 (by simpa using hne)) (lt_irrefl _)
    simp only [List.foldl_cons]
    rw [push_eq_insert h hd hle]
    have hok := insert_ok h hd hbit e.2
    obtain ⟨h1, h2⟩ := ih hok hs.2 (fun e' he' => hb e' (by simp [he'])) (by
      intro x hx e' he'
      simp only [insert, Bitmap.testBit_set, Bool.or_eq_true, decide_eq_true_eq] at hx
      rcases hx with hx | rfl
      · exact hlt x hx e' (by simp [he'])
      · exact hs.1 e' he')
    refine ⟨h1, ?_⟩
    intro d a
    rw [h2 d a, get_insert h hd hbit]
    have hnone : r.get e.1 = none := by simp [get, hbit]
    by_cases hde : d = e.1
    · subst hde
      simp only [if_true, hnone, List.mem_cons]
      constructor
      · rintro (he | he)
        · cases he
          exact Or.inr (Or.inl rfl)
        · exact Or.inr (Or.inr he)
      · rintro (he | he | he)
        · cases he
        · left
          rw [← he]
        · exact Or.inr he
    · have hne : (d, a) ≠ e := by
        rintro rfl
        exact hde rfl
      simp [hde, hne]

theorem ofEntries_ok {l : List (ℕ × α)} (hs : KeySorted l) (hb : ∀ e ∈ l, e.1 < 256) :
    (ofEntries l).Ok := (foldl_push_spec empty_ok hs hb (by simp [empty])).1

theorem get_ofEntries {l : List (ℕ × α)} (hs : KeySorted l) (hb : ∀ e ∈ l, e.1 < 256) {d : ℕ}
    {a : α} : (ofEntries l).get d = some a ↔ (d, a) ∈ l := by
  rw [ofEntries, (foldl_push_spec empty_ok hs hb (by simp [empty])).2]
  simp [get, empty]

theorem entries_ofEntries {l : List (ℕ × α)} (hs : KeySorted l) (hb : ∀ e ∈ l, e.1 < 256) :
    (ofEntries l).entries = l := by
  apply (entries_sorted (ofEntries_ok hs hb)).ext hs
  intro k v
  rw [mem_entries (ofEntries_ok hs hb), get_ofEntries hs hb]

end Ranked

end Expanse
