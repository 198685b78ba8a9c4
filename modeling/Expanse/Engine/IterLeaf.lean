import Expanse.Engine.Iter
import Expanse.Engine.GetSpec

/-!
# What a leaf cursor hands out

`left` lists the entries a leaf cursor still has, in the order of its walk. One
step takes the head of that list; entering a leaf form starts with all of its
entries and a seek with those on the far side of its key. The one step that fails
is that of a full expanse past the last word.
-/

namespace Expanse

open Radix SortedAssoc Edge

namespace LeafCursor

variable {V : Type}

theorem read_eq {cols : Columns V} {i : ℕ} {x : ℕ × V} (h : cols.entries[i]? = some x) :
    read cols i = .ok x := by
  rw [read, h]

def ScanOk (dir : Direction) (node : Ranked V) (sub word rank : ℕ) : Prop :=
  match dir with
  | .forward =>
    (Bitmap.wordBits word).map (32 * sub + ·) = (Bitmap.subDigits node.bits sub).drop rank
  | .backward =>
    (Bitmap.wordBits word).map (32 * sub + ·) =
        (Bitmap.subDigits node.bits sub).take (Bitmap.wordBits word).length ∧
      rank = wrappingPred (Bitmap.wordBits word).length

section Scan

variable {node : Ranked V} {sub word rank : ℕ}

theorem row_drop : (node.row sub).drop rank =
    ((Bitmap.subDigits node.bits sub).drop rank).zip ((node.sub sub).drop rank) :=
  List.drop_zipWith

theorem row_take : (node.row sub).take rank =
    ((Bitmap.subDigits node.bits sub).take rank).zip ((node.sub sub).take rank) :=
  List.take_zipWith

variable (node) in
theorem scanOk_fresh (sub : ℕ) : ScanOk .forward node sub (Bitmap.subWord node.bits sub) 0 := by
  rw [ScanOk, ← Bitmap.subDigits_eq, List.drop_zero]

variable (node) in
theorem scanOk_fresh_back (sub : ℕ) :
    ScanOk .backward node sub (Bitmap.subWord node.bits sub)
      (wrappingPred (Bitmap.wordBits (Bitmap.subWord node.bits sub)).length) := by
  refine ⟨?_, rfl⟩
  rw [← Bitmap.subDigits_eq, List.take_of_length_le]
  rw [Bitmap.subDigits_eq, List.length_map]

theorem row_take_fresh : (node.row sub).take
    (Bitmap.wordBits (Bitmap.subWord node.bits sub)).length = node.row sub := by
  apply List.take_of_length_le
  have h := congrArg List.length (Bitmap.subDigits_eq node.bits sub)
  rw [List.length_map] at h
  rw [Ranked.row, List.length_zip]
  omega

/-- The lowest bit left of a word stands for the next entry of the row. -/
theorem scan_cons (hok : node.Ok) {b : ℕ} {bs : List ℕ} (hs : sub < 8)
    (hw : ScanOk .forward node sub word rank) (hb : Bitmap.wordBits word = b :: bs) :
    ∃ v, (node.sub sub)[rank]? = some v ∧
      (node.row sub).drop rank = (32 * sub + b, v) :: (node.row sub).drop (rank + 1) ∧
      ScanOk .forward node sub (Bitmap.clear word b) (rank + 1) := by
  rw [ScanOk, hb] at hw
  obtain ⟨hlt, hd, hrest⟩ := Direction.rest_forward hw.symm
  have hlt' : rank < (node.sub sub).length := by rwa [hok.fit sub hs]
  refine ⟨(node.sub sub)[rank], List.getElem?_eq_getElem hlt', ?_, ?_⟩
  · rw [row_drop, row_drop, ← hw, List.drop_eq_getElem_cons hlt',
      show List.drop (rank + 1) (Bitmap.subDigits node.bits sub) = List.map (32 * sub + ·) bs
        from hrest]
    rfl
  · rw [ScanOk, Bitmap.wordBits_clear_lowest hb]
    exact hrest.symm

/-- The highest bit left of a word stands for the last entry of what is left of the row. -/
theorem scan_cons_back (hok : node.Ok) {b : ℕ} {bs : List ℕ} (hs : sub < 8)
    (hw : ScanOk .backward node sub word rank) (hb : Bitmap.wordBits word = bs ++ [b]) :
    ∃ v, (node.sub sub)[rank]? = some v ∧
      (node.row sub).take (Bitmap.wordBits word).length =
        (node.row sub).take bs.length ++ [(32 * sub + b, v)] ∧
      Bitmap.wordBits (Bitmap.clear word b) = bs ∧
      ScanOk .backward node sub (Bitmap.clear word b) (wrappingPred rank) := by
  obtain ⟨hw, hrank⟩ := hw
  have hclear := Bitmap.wordBits_clear_highest hb
  have h32 := Bitmap.length_wordBits_le word
  have hlen : (Bitmap.wordBits word).length = bs.length + 1 := by rw [hb]; simp
  have hr : rank = bs.length := by
    rw [hrank, hlen, wrappingPred]
    omega
  rw [hlen] at hw
  have hd : bs.length < (Bitmap.subDigits node.bits sub).length := by
    have := congrArg List.length hw
    rw [List.length_map, List.length_take, hlen] at this
    omega
  have hd' : bs.length < (node.sub sub).length := by rwa [hok.fit sub hs]
  rw [hb, List.map_append, List.take_succ_eq_append_getElem hd] at hw
  obtain ⟨h1, h2⟩ := List.append_inj' hw rfl
  refine ⟨(node.sub sub)[bs.length], by rw [hr, List.getElem?_eq_getElem hd'], ?_, hclear, ?_⟩
  · rw [hlen, row_take, row_take, List.take_succ_eq_append_getElem hd,
      List.take_succ_eq_append_getElem hd', List.zip_append (by simp; omega)]
    rw [← show List.map (32 * sub + ·) [b] = _ from h2]
    rfl
  · refine ⟨?_, ?_⟩
    · rw [hclear]
      exact h1
    · rw [hclear, hr]

end Scan

variable [Inhabited V]

def left (dir : Direction) : LeafCursor V → List (ℕ × V)
  | empty => []
  | rootLeaf cols idx => dir.rest idx cols.entries
  | linear cols _ _ idx pre => shift pre (dir.rest idx cols.entries)
  | bitmapSet bits _ pre => (dir.order (Bitmap.digits bits)).map fun d => (pre + d, default)
  | bitmapMap node sub word rank pre =>
    match dir with
    | .forward =>
      shift pre ((node.row sub).drop rank ++ (List.range' (sub + 1) (7 - sub)).flatMap node.row)
    | .backward =>
      shift pre ((List.range sub).flatMap node.row ++
        (node.row sub).take (Bitmap.wordBits word).length).reverse
  | immedSingle key value done => if done then [] else [(key, value)]
  | immedMulti keys values idx => dir.rest idx (keys.zip values)
  | fullExpanse n m => (dir.order (List.range' n (m + 1 - n))).map fun k => (k, default)

def Ok (dir : Direction) : LeafCursor V → Prop
  | empty => True
  | rootLeaf cols idx => cols.Packed 8 ∧ idx ≤ cols.size
  | linear cols kb pop idx pre =>
    cols.Packed kb ∧ pop = cols.size ∧ idx ≤ cols.size ∧ 256 ^ kb ∣ pre
  | bitmapSet bits wordIdx pre =>
    256 ∣ pre ∧
      match dir with
      | .forward => ∀ d ∈ Bitmap.digits bits, 64 * wordIdx ≤ d
      | .backward => wordIdx < 4 ∧ ∀ d ∈ Bitmap.digits bits, d < 64 * wordIdx + 64
  | bitmapMap node sub word rank pre =>
    256 ∣ pre ∧ node.Ok ∧ sub < 8 ∧ ScanOk dir node sub word rank
  | immedSingle _ _ _ => True
  | immedMulti keys values idx =>
    keys.Pairwise (· < ·) ∧ keys.length = values.length ∧ idx ≤ keys.length
  | fullExpanse _ _ => True

def inTree : LeafCursor V → Bool
  | empty => false
  | rootLeaf _ _ => false
  | _ => true

def fullMax : LeafCursor V → Option ℕ
  | fullExpanse _ m => some m
  | _ => none

/-- A step hands out the head of a list and leaves its tail; at the end it hands out nothing. -/
def StepsTo (dir : Direction) (r : Except Fault (Option ((ℕ × V) × LeafCursor V)))
    (m : Option ℕ) (t : Bool) : List (ℕ × V) → Prop
  | [] => r = .ok none
  | x :: xs => ∃ c, r = .ok (some (x, c)) ∧ c.Ok dir ∧ c.left dir = xs ∧ c.inTree = t ∧
      (dir = .forward → c.fullMax = m)

theorem bitmapMapNext_spec {node : Ranked V} {pre : ℕ} (hok : node.Ok) (hpre : 256 ∣ pre)
    {n sub word rank : ℕ} (hn : sub + (n + 1) = 8) (hw : ScanOk .forward node sub word rank) :
    StepsTo .forward (bitmapMapNext node pre (n + 1) sub word rank) none true
      (shift pre ((node.row sub).drop rank ++ (List.range' (sub + 1) n).flatMap node.row)) := by
  induction n generalizing sub word rank with
  | zero =>
    cases hb : Bitmap.wordBits word with
    | nil =>
      rw [ScanOk, hb] at hw
      rw [row_drop, ← hw, bitmapMapNext, Bitmap.lowestBit_eq, hb]
      rfl
    | cons b bs =>
      obtain ⟨v, hv, hrow, hw'⟩ := scan_cons hok (by omega) hw hb
      rw [bitmapMapNext, Bitmap.lowestBit_eq, hb, hrow]
      simp only [List.head?_cons, hv]
      refine ⟨_, rfl, ⟨hpre, hok, by omega, hw'⟩, ?_, rfl, fun _ => rfl⟩
      rw [left, show 7 - sub = 0 by omega]
      rfl
  | succ n ih =>
    cases hb : Bitmap.wordBits word with
    | nil =>
      rw [ScanOk, hb] at hw
      rw [row_drop, ← hw, bitmapMapNext, Bitmap.lowestBit_eq, hb]
      have := ih (by omega) (scanOk_fresh node (sub + 1))
      rw [List.drop_zero] at this
      exact this
    | cons b bs =>
      obtain ⟨v, hv, hrow, hw'⟩ := scan_cons hok (by omega) hw hb
      rw [bitmapMapNext, Bitmap.lowestBit_eq, hb, hrow]
      simp only [List.head?_cons, hv]
      refine ⟨_, rfl, ⟨hpre, hok, by omega, hw'⟩, ?_, rfl, fun _ => rfl⟩
      rw [left, show 7 - sub = n + 1 by omega]
      rfl

theorem bitmapMapBack_spec {node : Ranked V} {pre : ℕ} (hok : node.Ok) (hpre : 256 ∣ pre)
    {sub word rank : ℕ} (hs : sub < 8) (hw : ScanOk .backward node sub word rank) :
    StepsTo .backward (bitmapMapBack node pre sub word rank) none true
      (shift pre ((List.range sub).flatMap node.row ++
        (node.row sub).take (Bitmap.wordBits word).length).reverse) := by
  induction sub generalizing word rank with
  | zero =>
    rcases List.eq_nil_or_concat (Bitmap.wordBits word) with hb | ⟨bs, b, hb⟩
    · rw [bitmapMapBack, Bitmap.highestBit_eq, hb]
      rfl
    · rw [List.concat_eq_append] at hb
      obtain ⟨v, hv, hrow, hcl, hw'⟩ := scan_cons_back hok hs hw hb
      rw [hrow, ← List.append_assoc, List.reverse_append, bitmapMapBack, Bitmap.highestBit_eq, hb,
        List.getLast?_concat]
      simp only [hv]
      refine ⟨_, rfl, ⟨hpre, hok, hs, hw'⟩, ?_, rfl, fun h => by cases h⟩
      rw [left, hcl]
      rfl
  | succ sub ih =>
    rcases List.eq_nil_or_concat (Bitmap.wordBits word) with hb | ⟨bs, b, hb⟩
    · rw [bitmapMapBack, Bitmap.highestBit_eq, hb]
      have := ih (by omega) (scanOk_fresh_back node sub)
      rw [row_take_fresh] at this
      rw [List.range_succ, List.flatMap_append, List.length_nil, List.take_zero, List.append_nil,
        List.flatMap_singleton]
      exact this
    · rw [List.concat_eq_append] at hb
      obtain ⟨v, hv, hrow, hcl, hw'⟩ := scan_cons_back hok hs hw hb
      rw [hrow, ← List.append_assoc, List.reverse_append, bitmapMapBack, Bitmap.highestBit_eq, hb,
        List.getLast?_concat]
      simp only [hv]
      refine ⟨_, rfl, ⟨hpre, hok, hs, hw'⟩, ?_, rfl, fun h => by cases h⟩
      rw [left, hcl]
      rfl

theorem step_rootLeaf {dir : Direction} {cols : Columns V} {idx : ℕ}
    (h : (rootLeaf cols idx).Ok dir) :
    StepsTo dir ((rootLeaf cols idx).step dir) none false ((rootLeaf cols idx).left dir) := by
  obtain ⟨hp, hi⟩ := h
  have hlen := cols.length_entries
  rw [left]
  cases hl : dir.rest idx cols.entries with
  | nil =>
    cases dir with
    | forward =>
      have := Direction.rest_forward_nil hl
      rw [hlen] at this
      simp [StepsTo, step, next, this]
    | backward =>
      have := Direction.rest_backward_nil (hlen ▸ hi) hl
      simp [StepsTo, step, nextBack, this]
  | cons x xs =>
    cases dir with
    | forward =>
      obtain ⟨h1, h2, h3⟩ := Direction.rest_forward hl
      rw [hlen] at h1
      exact ⟨rootLeaf cols (idx + 1), by simp [step, next, h1, read_eq h2, Except.map], ⟨hp, h1⟩,
        h3, rfl, fun _ => rfl⟩
    | backward =>
      obtain ⟨h1, h2, h3⟩ := Direction.rest_backward (hlen ▸ hi) hl
      exact ⟨rootLeaf cols (idx - 1), by simp [step, nextBack, h1, read_eq h2, Except.map],
        ⟨hp, by omega⟩, h3, rfl, fun h => by cases h⟩

theorem step_linear {dir : Direction} {cols : Columns V} {kb pop idx pre : ℕ}
    (h : (linear cols kb pop idx pre).Ok dir) :
    StepsTo dir ((linear cols kb pop idx pre).step dir) none true
      ((linear cols kb pop idx pre).left dir) := by
  obtain ⟨hp, rfl, hi, hd⟩ := h
  have hlen := cols.length_entries
  rw [left]
  cases hl : dir.rest idx cols.entries with
  | nil =>
    cases dir with
    | forward =>
      have := Direction.rest_forward_nil hl
      rw [hlen] at this
      simp [StepsTo, step, next, this, shift]
    | backward =>
      have := Direction.rest_backward_nil (hlen ▸ hi) hl
      simp [StepsTo, step, nextBack, this, shift]
  | cons x xs =>
    cases dir with
    | forward =>
      obtain ⟨h1, h2, h3⟩ := Direction.rest_forward hl
      rw [hlen] at h1
      exact ⟨linear cols kb cols.size (idx + 1) pre,
        by simp [step, next, h1, read_eq h2, Except.map], ⟨hp, rfl, h1, hd⟩,
        by rw [left, h3]; rfl, rfl, fun _ => rfl⟩
    | backward =>
      obtain ⟨h1, h2, h3⟩ := Direction.rest_backward (hlen ▸ hi) hl
      exact ⟨linear cols kb cols.size (idx - 1) pre,
        by simp [step, nextBack, h1, read_eq h2, Except.map], ⟨hp, rfl, by omega, hd⟩,
        by rw [left, h3]; rfl, rfl, fun h => by cases h⟩

theorem step_bitmapSet {dir : Direction} {bits w pre : ℕ}
    (h : (bitmapSet bits w pre : LeafCursor V).Ok dir) :
    StepsTo dir ((bitmapSet bits w pre : LeafCursor V).step dir) none true
      ((bitmapSet bits w pre : LeafCursor V).left dir) := by
  obtain ⟨hpre, h⟩ := h
  cases dir with
  | forward =>
    have hn : Bitmap.nextSet bits (64 * w) = (Bitmap.digits bits).head? := by
      rw [Bitmap.nextSet_eq, List.filter_eq_self.mpr]
      intro d hd
      exact decide_eq_true (h d hd)
    rw [left, Direction.order]
    cases hd : Bitmap.digits bits with
    | nil =>
      rw [hd] at hn
      simp [StepsTo, step, next, hn]
    | cons d ds =>
      rw [hd] at hn
      have hcl := Bitmap.digits_clear_lowest hd
      refine ⟨bitmapSet (Bitmap.clear bits d) (d / 64) pre, by simp [step, next, hn], ⟨hpre, ?_⟩,
        by rw [left, hcl]; rfl, rfl, fun _ => rfl⟩
      intro x hx
      rw [hcl] at hx
      have := List.rel_of_pairwise_cons (hd ▸ Bitmap.digits_sorted bits) hx
      omega
  | backward =>
    obtain ⟨hw, h⟩ := h
    have hn : Bitmap.prevSet bits (64 * w + 63) = (Bitmap.digits bits).getLast? := by
      rw [Bitmap.prevSet_eq bits (by omega), List.filter_eq_self.mpr]
      intro d hd
      have := h d hd
      exact decide_eq_true (by omega)
    rw [left, Direction.order]
    rcases List.eq_nil_or_concat (Bitmap.digits bits) with hd | ⟨ds, d, hd⟩
    · rw [hd] at hn ⊢
      simp [StepsTo, step, nextBack, hn]
    · rw [List.concat_eq_append] at hd
      have hcl := Bitmap.digits_clear_highest hd
      have h256 : d < 256 := (Bitmap.mem_digits.mp (show d ∈ Bitmap.digits bits by rw [hd]; simp)).1
      rw [hd, List.getLast?_concat] at hn
      rw [hd, List.reverse_append]
      refine ⟨bitmapSet (Bitmap.clear bits d) (d / 64) pre, by simp [step, nextBack, hn],
        ⟨hpre, by omega, ?_⟩, by rw [left, hcl]; rfl, rfl, fun h => by cases h⟩
      intro x hx
      rw [hcl] at hx
      have := (List.pairwise_append.mp (hd ▸ Bitmap.digits_sorted bits)).2.2 x hx d (by simp)
      omega

theorem step_immedMulti {dir : Direction} {keys : List ℕ} {values : List V} {idx : ℕ}
    (h : (immedMulti keys values idx).Ok dir) :
    StepsTo dir ((immedMulti keys values idx).step dir) none true
      ((immedMulti keys values idx).left dir) := by
  obtain ⟨hk, hlen, hi⟩ := h
  have hi' : idx ≤ (keys.zip values).length := by rw [List.length_zip]; omega
  rw [left]
  cases hl : dir.rest idx (keys.zip values) with
  | nil =>
    cases dir with
    | forward =>
      have := Direction.rest_forward_nil hl
      simp only [StepsTo, step, next, List.getElem?_eq_none this, Option.map_none]
    | backward =>
      have := Direction.rest_backward_nil hi' hl
      simp [StepsTo, step, nextBack, this]
  | cons x xs =>
    cases dir with
    | forward =>
      obtain ⟨h1, h2, h3⟩ := Direction.rest_forward hl
      rw [List.length_zip] at h1
      exact ⟨immedMulti keys values (idx + 1), by simp [step, next, h2], ⟨hk, hlen, by omega⟩, h3,
        rfl, fun _ => rfl⟩
    | backward =>
      obtain ⟨h1, h2, h3⟩ := Direction.rest_backward hi' hl
      exact ⟨immedMulti keys values (idx - 1), by simp [step, nextBack, h1, h2],
        ⟨hk, hlen, by omega⟩, h3, rfl, fun h => by cases h⟩

theorem step_fullExpanse {dir : Direction} {n m : ℕ}
    (hsafe : dir = .forward → n ≤ m → n + 1 < 256 ^ 8) :
    StepsTo dir ((fullExpanse n m : LeafCursor V).step dir) (some m) true
      ((fullExpanse n m : LeafCursor V).left dir) := by
  rw [left]
  by_cases hnm : n ≤ m
  · cases dir with
    | forward =>
      obtain ⟨j, hj⟩ : ∃ j, m + 1 - n = j + 1 := ⟨m - n, by omega⟩
      rw [Direction.order, hj, List.range'_succ, List.map_cons]
      refine ⟨fullExpanse (n + 1) m, ?_, trivial, ?_, rfl, fun _ => rfl⟩
      · rw [step, next, if_pos hnm, if_pos (hsafe rfl hnm)]
      rw [left, Direction.order, show m + 1 - (n + 1) = j by omega]
    | backward =>
      obtain ⟨j, hj⟩ : ∃ j, m + 1 - n = j + 1 := ⟨m - n, by omega⟩
      rw [Direction.order, hj, List.range'_concat, List.reverse_append, Nat.one_mul,
        show n + j = m by omega]
      refine ⟨if m = n then fullExpanse 1 0 else fullExpanse n (m - 1), by
        simp [step, nextBack, hnm], ?_, ?_, ?_, fun h => by cases h⟩
      · split_ifs <;> trivial
      · split_ifs with he
        · rw [show j = 0 by omega]
          rfl
        · rw [left, Direction.order, show m - 1 + 1 - n = j by omega]
          rfl
      · split_ifs <;> rfl
  · rw [show m + 1 - n = 0 by omega]
    cases dir with
    | forward => simp [StepsTo, step, next, hnm, Direction.order]
    | backward => simp [StepsTo, step, nextBack, hnm, Direction.order]

theorem step_spec {dir : Direction} {c : LeafCursor V} (h : c.Ok dir)
    (hsafe : dir = .forward → ∀ n m, c = fullExpanse n m → n ≤ m → n + 1 < 256 ^ 8) :
    StepsTo dir (c.step dir) c.fullMax c.inTree (c.left dir) := by
  cases c with
  | empty => cases dir <;> rfl
  | rootLeaf cols idx => exact step_rootLeaf h
  | linear cols kb pop idx pre => exact step_linear h
  | bitmapSet bits w pre => exact step_bitmapSet h
  | bitmapMap node sub word rank pre =>
    obtain ⟨hpre, hok, hs, hw⟩ := h
    cases dir with
    | forward =>
      have := bitmapMapNext_spec (n := 7 - sub) hok hpre (by omega) hw
      rw [show 7 - sub + 1 = 8 - sub by omega] at this
      exact this
    | backward => exact bitmapMapBack_spec hok hpre hs hw
  | immedSingle key value done =>
    cases done with
    | true => cases dir <;> rfl
    | false =>
      cases dir with
      | forward => exact ⟨immedSingle key value true, rfl, trivial, rfl, rfl, fun _ => rfl⟩
      | backward => exact ⟨immedSingle key value true, rfl, trivial, rfl, rfl, fun _ => rfl⟩
  | immedMulti keys values idx => exact step_immedMulti h
  | fullExpanse n m => exact step_fullExpanse fun hd => hsafe hd n m rfl

end LeafCursor

end Expanse
