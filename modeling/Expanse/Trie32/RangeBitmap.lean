import Expanse.Trie32.RemoveAll
import Expanse.Trie32.RemoveRange
import Expanse.Trie32.Visit

/-!
# Ranges removed from a bitmap leaf

The leaf of a set clears the digits of the range; the leaf of a map takes each row apart into what
goes and what stays, and allocates what stays anew. Either is left as the leaf of the entries
outside the range.
-/

namespace Expanse.Trie32

open Bitmap Packed SortedAssoc Trie32.Tree

variable {l : List (ℕ × ℕ)} {lo hi sub d p : ℕ} {bits : ℕ}

def outside (lo hi : ℕ) (l : List (ℕ × ℕ)) : List (ℕ × ℕ) := l.filter fun x => !inRange lo hi x

theorem between_eq_filter (lo hi : ℕ) (l : List (ℕ × ℕ)) : between lo hi l = l.filter (inRange lo hi) := rfl

theorem delAll_between (hs : KeySorted l) (lo hi : ℕ) : delAll l (between lo hi l) = outside lo hi l :=
  delAll_filter hs (inRange lo hi)

theorem filter_from_cons {ks : List ℕ} {start : ℕ} {ds : List ℕ} (hs : ks.Pairwise (· < ·))
    (h : (ks.filter fun x => decide (start ≤ x)) = d :: ds) :
    d ∈ ks ∧ start ≤ d ∧ (∀ x ∈ ds, d < x) ∧ (ks.filter fun x => decide (d + 1 ≤ x)) = ds := by
  have hmem : d ∈ ks.filter fun x => decide (start ≤ x) := by rw [h]; exact List.mem_cons_self
  obtain ⟨hd, hge⟩ := List.mem_filter.mp hmem
  have hge' := of_decide_eq_true hge
  have hsorted := hs.filter fun x => decide (start ≤ x)
  rw [h] at hsorted
  have habove := (List.pairwise_cons.mp hsorted).1
  refine ⟨hd, hge', habove, ?_⟩
  have hinner : (ks.filter fun x => decide (d + 1 ≤ x)) =
      (ks.filter fun x => decide (start ≤ x)).filter fun x => decide (d + 1 ≤ x) := by
    rw [List.filter_filter]
    refine List.filter_congr fun x _ => ?_
    rw [← Bool.decide_and]
    exact decide_eq_decide.mpr (by omega)
  rw [hinner, h, List.filter_cons_of_neg (by simp), List.filter_eq_self.mpr fun x hx =>
    decide_eq_true (Nat.succ_le_of_lt (habove x hx))]

theorem digitsTo_eq {fuel start : ℕ} (bits : ℕ) (hf : 257 ≤ fuel + start) (hstart : start ≤ 256) :
    digitsTo bits hi fuel start = .ok ((digits bits).filter fun d => start ≤ d ∧ d ≤ hi) := by
  induction fuel generalizing start with
  | zero => omega
  | succ fuel ih =>
    have hsplit : (digits bits).filter (fun d => decide (start ≤ d ∧ d ≤ hi)) =
        ((digits bits).filter fun d => decide (start ≤ d)).filter fun d => decide (d ≤ hi) := by
      rw [List.filter_filter]
      exact List.filter_congr fun d _ => by rw [Bool.decide_and, Bool.and_comm]
    rw [digitsTo, hsplit]
    by_cases h256 : start = 256
    · have hnil : (digits bits).filter (fun d => decide (start ≤ d)) = [] := by
        refine List.filter_eq_nil_iff.mpr fun d hd => ?_
        have := (mem_digits.mp hd).1
        simpa using by omega
      rw [bitmapFirstGe, if_pos (by omega), hnil]
      rfl
    · rw [bitmapFirstGe_eq bits (by omega)]
      cases hds : (digits bits).filter fun d => decide (start ≤ d) with
      | nil => rfl
      | cons d ds =>
        obtain ⟨hd, hge, habove, hrest⟩ := filter_from_cons (digits_sorted bits) hds
        have hlt := (mem_digits.mp hd).1
        rw [List.head?_cons]
        dsimp only
        by_cases hout : hi < d
        · rw [if_pos hout, List.filter_eq_nil_iff.mpr fun x hx => ?_]
          rcases List.mem_cons.mp hx with rfl | hx
          · simpa using hout
          · simpa using lt_trans hout (habove x hx)
        · have htail : (digits bits).filter (fun x => decide (d + 1 ≤ x ∧ x ≤ hi)) =
              ds.filter fun x => decide (x ≤ hi) := by
            rw [← hrest, List.filter_filter]
            exact List.filter_congr fun x _ => by rw [Bool.decide_and, Bool.and_comm]
          rw [if_neg hout, @ih (d + 1) (by omega) (by omega), htail,
            List.filter_cons_of_pos (by simpa using not_lt.mp hout)]
          rfl

/-- The loop clears the digits of the range. -/
theorem setBitmapRemove_all (hs : KeySorted l) (ks : List (ℕ × ℕ)) :
    (ks.map Prod.fst).foldl (fun b d => (setBitmapRemove false b d).2) (setBitmapOf l) =
      setBitmapOf (delAll l ks) := by
  induction ks generalizing l with
  | nil => rfl
  | cons x ks ih =>
    rw [List.map_cons, List.foldl_cons, setBitmapRemove_eq false hs]
    exact ih (hs.del x.1)

/-- The entries of row `sub` in a range. -/
def rowIn (lo hi sub : ℕ) (x : ℕ × ℕ) : Bool := decide (x.1 / 32 = sub) && inRange lo hi x

theorem sortRow_eq {existing : List ℕ} {rank : ℕ} (hit : ℕ → Bool) (es : List (ℕ × ℕ))
    (h : ∀ k x, es[k]? = some x → existing[rank + k]? = some x.2) :
    sortRow existing hit rank (es.map Prod.fst) =
      .ok (es.filter fun x => hit x.1, (es.filter fun x => !hit x.1).map Prod.snd) := by
  induction es generalizing rank with
  | nil => rfl
  | cons x es ih =>
    have hrest := @ih (rank + 1) fun k y hy => by
      have := h (k + 1) y (by simpa using hy)
      rwa [show rank + (k + 1) = rank + 1 + k by omega] at this
    rw [List.map_cons, sortRow, show existing[rank]? = some x.2 from h 0 x rfl]
    dsimp only
    rw [hrest, ok_bind]
    cases hx : hit x.1 with
    | true => simp [hx, pure_eq_ok]
    | false => simp [hx, pure_eq_ok]

/-- The bits that row `sub` and the range have in common, in the word of the row. -/
def rowHit (bits lo hi sub : ℕ) : ℕ :=
  field bits 64 (sub / 2) &&&
    (2 ^ (min hi (sub * 32 + 31) - sub * 32 - (max lo (sub * 32) - sub * 32) + 1) - 1) *
      2 ^ (max lo (sub * 32) - sub * 32 + sub % 2 * 32)

theorem testBit_rowHit {keys : List ℕ} (hin : ¬(sub * 32 + 31 < lo ∨ hi < sub * 32)) (hle : lo ≤ hi)
    {j : ℕ} (hj : j < 64) :
    (rowHit (bitsOf keys) lo hi sub).testBit j =
      (decide (64 * (sub / 2) + j ∈ keys) && rowIn lo hi sub (64 * (sub / 2) + j, 0)) := by
  rw [rowHit, Nat.testBit_and, Nat.testBit_mul_two_pow, Nat.testBit_two_pow_sub_one, testBit_field,
    testBit_bitsOf, decide_eq_true hj, Bool.true_and, rowIn, inRange]
  refine congrArg _ ?_
  rw [← Bool.decide_and, ← Bool.decide_and]
  refine decide_eq_decide.mpr ?_
  dsimp only
  omega

theorem storeField_rowHit {keys : List ℕ} (hin : ¬(sub * 32 + 31 < lo ∨ hi < sub * 32)) (hle : lo ≤ hi) :
    storeField (bitsOf keys) 64 (sub / 2)
        (field (bitsOf keys) 64 (sub / 2) &&& (2 ^ 64 - 1 - rowHit (bitsOf keys) lo hi sub)) =
      bitsOf (keys.filter fun k => !rowIn lo hi sub (k, 0)) := by
  have hlt : rowHit (bitsOf keys) lo hi sub < 2 ^ 64 := lt_of_le_of_lt Nat.and_le_left field_lt
  apply Nat.eq_of_testBit_eq
  intro j
  rw [testBit_storeField (lt_of_le_of_lt Nat.and_le_left field_lt), testBit_bitsOf]
  by_cases hj : 64 * (sub / 2) ≤ j ∧ j < 64 * (sub / 2) + 64
  · rw [if_pos hj, Nat.testBit_and, Nat.sub_sub, Nat.add_comm 1, Nat.testBit_two_pow_sub_succ hlt,
      testBit_rowHit hin hle (by omega), testBit_field, testBit_bitsOf,
        decide_eq_true (show j - 64 * (sub / 2) < 64 by omega),
      Bool.true_and, Bool.true_and, show 64 * (sub / 2) + (j - 64 * (sub / 2)) = j by omega]
    by_cases hmem : j ∈ keys
    · cases hr : rowIn lo hi sub (j, 0) with
      | true => simp [hmem, hr]
      | false => simp [hmem, hr]
    · simp [hmem]
  · have hout : rowIn lo hi sub (j, 0) = false := by
      rw [rowIn, decide_eq_false (by dsimp only; omega), Bool.false_and]
    rw [if_neg hj, testBit_bitsOf]
    exact decide_eq_decide.mpr (by simp [hout])

theorem bitsOfWord_row (hs : KeySorted l) (sub : ℕ) :
    bitsOfWord (field (field (bitsOf (l.map Prod.fst)) 64 (sub / 2)) 32 (sub % 2)) =
      ((l.filter fun x => decide (x.1 / 32 = sub)).map fun x => (x.1 - 32 * sub, x.2)).map Prod.fst := by
  have hfield : field (field (bitsOf (l.map Prod.fst)) 64 (sub / 2)) 32 (sub % 2) =
      field (bitsOf (l.map Prod.fst)) 32 sub := by
    have := field_field (bitsOf (l.map Prod.fst)) (32 * sub)
    rwa [show 32 * sub / 64 = sub / 2 by omega, show 32 * sub / 32 = sub by omega] at this
  rw [hfield]
  refine pairwise_lt_ext (bitsOfWord_sorted _) ?_ fun x => ?_
  · rw [List.map_map, List.pairwise_map]
    refine (hs.filter _).imp_of_mem fun {x y} hx hy hlt => ?_
    have hx' := of_decide_eq_true (List.mem_filter.mp hx).2
    have hy' := of_decide_eq_true (List.mem_filter.mp hy).2
    dsimp only [Function.comp_apply]
    omega
  · rw [bitsOfWord, List.mem_filter, List.mem_range, testBit_field, testBit_bitsOf, Bool.and_eq_true,
      decide_eq_true_eq, decide_eq_true_eq]
    simp only [List.mem_map, List.mem_filter, decide_eq_true_eq]
    constructor
    · rintro ⟨-, hx, e, he, hex⟩
      exact ⟨(e.1 - 32 * sub, e.2), ⟨e, ⟨he, by omega⟩, rfl⟩, by dsimp only; omega⟩
    · rintro ⟨-, ⟨e, ⟨he, hrow⟩, rfl⟩, rfl⟩
      dsimp only
      exact ⟨by omega, by omega, e, he, by omega⟩

/-- The outcome of a row: what goes, and the leaf of what stays. -/
def DropsRow (lo hi sub p : ℕ) (l : List (ℕ × ℕ)) (r : Except Fault (List (ℕ × ℕ) × MapBitmap × SubEdit)) :
    Prop :=
  ∃ edit, r = .ok (l.filter (rowIn lo hi sub), ⟨bitsOf ((l.filter fun x => !rowIn lo hi sub x).map Prod.fst), p,
      subsOf 0 (l.filter fun x => !rowIn lo hi sub x)⟩, edit) ∧
    (subBytes VALUE_SIZE (subsOf 0 (l.filter fun x => !rowIn lo hi sub x)) : ℤ) =
      subBytes VALUE_SIZE (subsOf 0 l) + edit.delta

theorem dropsRow_none (h : ∀ x ∈ l, rowIn lo hi sub x = false) :
    DropsRow lo hi sub p l (.ok ([], ⟨bitsOf (l.map Prod.fst), p, subsOf 0 l⟩, ⟨none, 0⟩)) := by
  have hself : l.filter (fun x => !rowIn lo hi sub x) = l :=
    List.filter_eq_self.mpr fun x hx => by rw [h x hx]; rfl
  have hnil : l.filter (rowIn lo hi sub) = [] := List.filter_eq_nil_iff.mpr fun x hx => by simp [h x hx]
  exact ⟨⟨none, 0⟩, by rw [hself, hnil], by rw [hself]; simp⟩

theorem row_filter (lo hi sub : ℕ) (l : List (ℕ × ℕ)) :
    row (l.filter fun x => !rowIn lo hi sub x) sub =
      ((l.filter fun x => decide (x.1 / 32 = sub)).filter fun x => !inRange lo hi x).map Prod.snd := by
  rw [row, List.filter_filter, List.filter_filter]
  refine congrArg _ (List.filter_congr fun x _ => ?_)
  by_cases hx : x.1 / 32 = sub
  · simp [rowIn, hx]
  · simp [hx]

theorem row_filter_ne {i : ℕ} (lo hi : ℕ) (l : List (ℕ × ℕ)) (hi' : i ≠ sub) :
    row (l.filter fun x => !rowIn lo hi sub x) i = row l i := by
  rw [row, row, List.filter_filter]
  refine congrArg _ (List.filter_congr fun x _ => ?_)
  by_cases hx : x.1 / 32 = i
  · have : ¬ x.1 / 32 = sub := fun h => hi' (hx.symm.trans h)
    simp [rowIn, hx, hi']
  · simp [hx]

/-- What is left of a map's bitmap leaf behind one row. -/
theorem dropRow_spec (hs : KeySorted l) (hsub : sub < 8) (hle : lo ≤ hi) :
    DropsRow lo hi sub p l (dropRow lo hi ⟨bitsOf (l.map Prod.fst), p, subsOf 0 l⟩ sub) := by
  rw [dropRow]
  dsimp only
  rw [← rowHit]
  by_cases hout : sub * 32 + 31 < lo ∨ hi < sub * 32
  · rw [if_pos hout]
    refine dropsRow_none fun x _ => ?_
    rw [rowIn, inRange, ← Bool.decide_and]
    exact decide_eq_false (by omega)
  rw [if_neg hout]
  have hbit : ∀ x ∈ l, x.1 / 32 = sub →
      (rowHit (bitsOf (l.map Prod.fst)) lo hi sub).testBit (sub % 2 * 32 + (x.1 - 32 * sub)) =
        inRange lo hi x := by
    intro x hx hrow
    rw [testBit_rowHit hout hle (by omega), show 64 * (sub / 2) + (sub % 2 * 32 + (x.1 - 32 * sub)) =
      x.1 by omega,
      decide_eq_true (List.mem_map_of_mem hx), Bool.true_and, rowIn, decide_eq_true hrow, Bool.true_and]
    rfl
  by_cases hzero : rowHit (bitsOf (l.map Prod.fst)) lo hi sub = 0
  · rw [if_pos hzero]
    refine dropsRow_none fun x hx => ?_
    by_cases hrow : x.1 / 32 = sub
    · have := hbit x hx hrow
      rw [hzero, Nat.zero_testBit] at this
      rw [rowIn, ← this, Bool.and_false]
    · rw [rowIn, decide_eq_false hrow, Bool.false_and]
  rw [if_neg hzero]
  have hslot : (subsOf 0 l).getD sub none = packSub 0 (row l sub) := by
    rw [List.getD_eq_getElem?_getD, getElem?_subsOf hsub]
    rfl
  rw [hslot]
  by_cases hnil : row l sub = []
  · rw [packSub, if_pos hnil]
    refine dropsRow_none fun x hx => ?_
    have hne : ¬ x.1 / 32 = sub := fun hrow => by
      have := List.filter_eq_nil_iff.mp (List.map_eq_nil_iff.mp hnil) x hx
      simp [hrow] at this
    rw [rowIn, decide_eq_false hne, Bool.false_and]
  rw [packSub_of_ne hnil]
  dsimp only
  have hexisting : ∀ k x, ((l.filter fun x => decide (x.1 / 32 = sub)).map
      fun x => (x.1 - 32 * sub, x.2))[k]? = some x →
      (resize (capClass (row l sub).length) 0 (row l sub))[0 + k]? = some x.2 := by
    intro k x hx
    rw [List.getElem?_map] at hx
    obtain ⟨y, hy, rfl⟩ := Option.map_eq_some_iff.mp hx
    have hrow : (row l sub)[k]? = some y.2 := by rw [row, List.getElem?_map, hy]; rfl
    rw [Nat.zero_add, resize_eq (le_capClass _), List.getElem?_append_left
      (List.getElem?_eq_some_iff.mp hrow).1, hrow]
  have hsort := sortRow_eq (fun i => (rowHit (bitsOf (l.map Prod.fst)) lo hi sub).testBit
      (sub % 2 * 32 + i)) _ hexisting
  -- the digits that are hit, counted from the first of the row
  have hsplit : ∀ q : Bool → Bool,
      ((l.filter fun x => decide (x.1 / 32 = sub)).map fun x => (x.1 - 32 * sub, x.2)).filter (fun x =>
        q ((rowHit (bitsOf (l.map Prod.fst)) lo hi sub).testBit (sub % 2 * 32 + x.1))) =
      ((l.filter fun x => decide (x.1 / 32 = sub)).filter fun x => q (inRange lo hi x)).map
        fun x => (x.1 - 32 * sub, x.2) := by
    intro q
    rw [List.filter_map]
    refine congrArg _ (List.filter_congr fun x hx => ?_)
    obtain ⟨hmem, hrow⟩ := List.mem_filter.mp hx
    rw [Function.comp_apply, hbit x hmem (of_decide_eq_true hrow)]
  have hgone : (((l.filter fun x => decide (x.1 / 32 = sub)).filter (inRange lo hi)).map
      fun x => (x.1 - 32 * sub, x.2)).map
      (fun x => (sub * 32 + x.1, x.2)) = l.filter (rowIn lo hi sub) := by
    have hfilter : (l.filter fun x => decide (x.1 / 32 = sub)).filter (inRange lo hi) =
        l.filter (rowIn lo hi sub) := by
      rw [List.filter_filter]
      exact List.filter_congr fun x _ => Bool.and_comm _ _
    rw [hfilter, List.map_map]
    refine (List.map_congr_left fun x hx => ?_).trans (List.map_id _)
    have hrow := (List.mem_filter.mp hx).2
    rw [rowIn, Bool.and_eq_true, decide_eq_true_eq] at hrow
    exact Prod.ext (by dsimp only [Function.comp_apply, id]; omega) rfl
  have hpop : popcount (field (field (bitsOf (l.map Prod.fst)) 64 (sub / 2)) 32 (sub % 2)) =
      (row l sub).length := by
    have := congrArg List.length (bitsOfWord_row hs sub)
    rw [List.length_map, List.length_map] at this
    rw [row, List.length_map]
    exact this
  have hkeys : (l.filter fun x => !rowIn lo hi sub x).map Prod.fst =
      (l.map Prod.fst).filter fun k => !rowIn lo hi sub (k, 0) := by
    rw [List.filter_map]
    rfl
  have hsubs : (subsOf 0 l).set sub (packSub 0 (row (l.filter fun x => !rowIn lo hi sub x) sub)) =
      subsOf 0 (l.filter fun x => !rowIn lo hi sub x) := by
    have hd : 32 * sub / 32 = sub := by omega
    have := @set_subsOf ℕ (32 * sub) 0 l (l.filter fun x => !rowIn lo hi sub x)
      fun i hi' => row_filter_ne lo hi l (hd ▸ hi')
    rwa [hd] at this
  have hgoneq := hsplit id
  have hkeepq := hsplit not
  dsimp only [id] at hgoneq
  rw [bitsOfWord_row hs, hsort, ok_bind]
  dsimp only
  have hkeep : (((l.filter fun x => decide (x.1 / 32 = sub)).filter fun x => !inRange lo hi x).map
      fun x => (x.1 - 32 * sub, x.2)).map Prod.snd = row (l.filter fun x => !rowIn lo hi sub x) sub := by
    rw [row_filter, List.map_map]
    rfl
  rw [hgoneq, hkeepq, hgone, storeField_rowHit hout hle, ← hkeys, hkeep, hpop, pure_eq_ok]
  refine ⟨_, congrArg (fun subs => Except.ok (_, (⟨_, p, subs⟩ : MapBitmap), _)) hsubs, ?_⟩
  have hd : 32 * sub / 32 = sub := by omega
  have := @subBytes_subsOf ℕ (32 * sub) 0 l (l.filter fun x => !rowIn lo hi sub x) VALUE_SIZE (by omega)
    fun i hi' => row_filter_ne lo hi l (hd ▸ hi')
  rwa [hd] at this

/-- Two parts of a list, where all of the one comes before all of the other. -/
theorem filter_append_filter {α : Type} {l : List α} {q₁ q₂ : α → Bool}
    (h : l.Pairwise fun x y => q₂ x = true → q₁ y = false)
    (hdisj : ∀ x ∈ l, q₁ x = true → q₂ x = false) :
      l.filter q₁ ++ l.filter q₂ = l.filter fun x => q₁ x || q₂ x := by
  induction l with
  | nil => rfl
  | cons x l ih =>
    obtain ⟨hx, hl⟩ := List.pairwise_cons.mp h
    have hrest := ih hl fun y hy => hdisj y (List.mem_cons_of_mem x hy)
    cases h₁ : q₁ x with
    | true =>
      have h₂ := hdisj x List.mem_cons_self h₁
      rw [List.filter_cons_of_pos h₁, List.filter_cons_of_neg (by rw [h₂]; exact Bool.false_ne_true),
        List.filter_cons_of_pos (by rw [h₁]; rfl), List.cons_append, hrest]
    | false =>
      cases h₂ : q₂ x with
      | true =>
        have hnil : l.filter q₁ = [] := List.filter_eq_nil_iff.mpr fun y hy => by
          rw [hx y hy h₂]
          exact Bool.false_ne_true
        rw [hnil, List.nil_append] at hrest
        rw [List.filter_cons_of_neg (by rw [h₁]; exact Bool.false_ne_true), hnil, List.nil_append,
          List.filter_cons_of_pos h₂, List.filter_cons_of_pos (by rw [h₁, h₂]; rfl), hrest]
      | false =>
        rw [List.filter_cons_of_neg (by rw [h₁]; exact Bool.false_ne_true),
          List.filter_cons_of_neg (by rw [h₂]; exact Bool.false_ne_true),
          List.filter_cons_of_neg (by rw [h₁, h₂]; exact Bool.false_ne_true), hrest]

/-- The entries of rows `s .. s + n - 1` in a range. -/
def rowsIn (lo hi s n : ℕ) (x : ℕ × ℕ) : Bool := decide (s ≤ x.1 / 32 ∧ x.1 / 32 < s + n) && inRange lo hi x

theorem rowsIn_succ (s n : ℕ) (x : ℕ × ℕ) : rowsIn lo hi s (n + 1) x =
    (rowIn lo hi s x || rowsIn lo hi (s + 1) n x) := by
  rw [rowsIn, rowIn, rowsIn, ← Bool.and_or_distrib_right, ← Bool.decide_or]
  exact congrArg (· && _) (decide_eq_decide.mpr (by omega))

theorem rowsIn_split (hs : KeySorted l) (s n : ℕ) :
    l.filter (rowIn lo hi s) ++ l.filter (rowsIn lo hi (s + 1) n) = l.filter (rowsIn lo hi s (n + 1)) := by
  rw [filter_append_filter]
  · exact List.filter_congr fun x _ => (rowsIn_succ s n x).symm
  · refine List.Pairwise.imp (fun {x y} hlt h => ?_) hs
    rw [rowsIn, Bool.and_eq_true, decide_eq_true_eq] at h
    rw [rowIn, decide_eq_false (by omega), Bool.false_and]
  · intro x _ h
    rw [rowIn, Bool.and_eq_true, decide_eq_true_eq] at h
    rw [rowsIn, decide_eq_false (by omega), Bool.false_and]

theorem dropRows_spec (hs : KeySorted l) (hle : lo ≤ hi) (s n : ℕ) (h8 : s + n ≤ 8) :
    ∃ retired delta, dropRows lo hi (List.range' s n) ⟨bitsOf (l.map Prod.fst), p, subsOf 0 l⟩ =
        .ok (l.filter (rowsIn lo hi s n), ⟨bitsOf ((l.filter fun x => !rowsIn lo hi s n x).map Prod.fst), p,
          subsOf 0 (l.filter fun x => !rowsIn lo hi s n x)⟩, retired, delta) ∧
      (subBytes VALUE_SIZE (subsOf 0 (l.filter fun x => !rowsIn lo hi s n x)) : ℤ) =
        subBytes VALUE_SIZE (subsOf 0 l) + delta := by
  induction n generalizing s l with
  | zero =>
    have hnone : ∀ x ∈ l, rowsIn lo hi s 0 x = false := fun x _ => by
      rw [rowsIn, decide_eq_false (by omega), Bool.false_and]
    have hself : l.filter (fun x => !rowsIn lo hi s 0 x) = l :=
      List.filter_eq_self.mpr fun x hx => by rw [hnone x hx]; rfl
    have hnil : l.filter (rowsIn lo hi s 0) = [] := List.filter_eq_nil_iff.mpr fun x hx => by simp [hnone x hx]
    exact ⟨[], 0, by rw [hself, hnil]; rfl, by rw [hself, add_zero]⟩
  | succ n ih =>
    obtain ⟨edit, hrow, hbytes⟩ := dropRow_spec (p := p) hs (show s < 8 by omega) hle
    obtain ⟨retired, delta, hrows, hbytes'⟩ := ih (hs.filter _) (s + 1) (by omega)
    have hgone : (l.filter fun x => !rowIn lo hi s x).filter (rowsIn lo hi (s + 1) n) =
        l.filter (rowsIn lo hi (s + 1) n) := by
      rw [List.filter_filter]
      refine List.filter_congr fun x _ => ?_
      by_cases hx : x.1 / 32 = s
      · rw [rowsIn, decide_eq_false (by omega), Bool.false_and, Bool.false_and]
      · rw [rowIn, decide_eq_false hx, Bool.false_and, Bool.not_false, Bool.and_true]
    have hstay : (l.filter fun x => !rowIn lo hi s x).filter (fun x => !rowsIn lo hi (s + 1) n x) =
        l.filter fun x => !rowsIn lo hi s (n + 1) x := by
      rw [List.filter_filter]
      exact List.filter_congr fun x _ => by rw [rowsIn_succ, Bool.not_or, Bool.and_comm]
    rw [hgone, hstay] at hrows
    rw [hstay] at hbytes'
    refine ⟨edit.retired.toList ++ retired, edit.delta + delta, ?_, by rw [hbytes', hbytes, add_assoc]⟩
    rw [List.range'_succ, dropRows, hrow, ok_bind]
    dsimp only
    rw [hrows, ok_bind, ← rowsIn_split hs]
    rfl

end Expanse.Trie32
