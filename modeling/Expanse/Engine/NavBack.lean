import Expanse.Engine.NavSpec
import Expanse.Library.BitScan

/-!
# Searching backward

`prev` finds the largest key at or below a suffix. It mirrors `next`: a narrow pointer
below the suffix is searched from its end, and the children of a branch are visited from
the suffix's digit down. The answer is the last entry at or below the suffix.
-/

namespace Expanse

open Radix SortedAssoc

namespace SortedAssoc

variable {α : Type*} {l : List (ℕ × α)} {k d : ℕ} {v : α}

/-- The entry in front of a position. -/
def lastBefore (l : List (ℕ × α)) : ℕ → Option (ℕ × α)
  | 0 => none
  | n + 1 => l[n]?

/-- The last entry at or below `k`, in front of the upper bound. -/
def lastUpTo (l : List (ℕ × α)) (k : ℕ) : Option (ℕ × α) :=
  lastBefore l (lowerBound (l.map Prod.fst) (k + 1))

theorem KeySorted.rfind?_eq_some (hs : KeySorted l) :
    (l.reverse.find? fun e => e.1 ≤ k) = some (d, v) ↔
      (d, v) ∈ l ∧ d ≤ k ∧ ∀ x w, (x, w) ∈ l → x ≤ k → x ≤ d := by
  induction l with
  | nil => simp
  | cons e es ih =>
    obtain ⟨y, w⟩ := e
    have hes := List.Pairwise.of_cons hs
    have hlt : ∀ x w, (x, w) ∈ es → y < x := fun x w hx => List.rel_of_pairwise_cons hs hx
    rw [List.reverse_cons, List.find?_append, Option.or_eq_some_iff, ih hes]
    constructor
    · rintro (⟨hm, hk, hmax⟩ | ⟨hnone, hy⟩)
      · refine ⟨List.mem_cons_of_mem _ hm, hk, fun x w' hx hxk => ?_⟩
        rcases List.mem_cons.mp hx with he | hx
        · cases he
          exact (hlt d v hm).le
        · exact hmax x w' hx hxk
      · rw [List.find?_eq_none] at hnone
        rw [List.find?_singleton] at hy
        split_ifs at hy with hyk
        cases hy
        refine ⟨List.mem_cons_self, by simpa using hyk, fun x w' hx hxk => ?_⟩
        rcases List.mem_cons.mp hx with he | hx
        · cases he
          exact le_rfl
        · have := hnone (x, w') (List.mem_reverse.mpr hx)
          simp only [decide_eq_true_eq] at this
          omega
    · rintro ⟨hm, hk, hmax⟩
      rcases List.mem_cons.mp hm with he | hm
      · cases he
        right
        refine ⟨?_, by simp [hk]⟩
        rw [List.find?_eq_none]
        rintro ⟨x, w'⟩ hx
        rw [List.mem_reverse] at hx
        have h₁ := hlt x w' hx
        have h₂ := hmax x w' (List.mem_cons_of_mem _ hx)
        simp only [decide_eq_true_eq]
        omega
      · exact .inl ⟨hm, hk, fun x w' hx => hmax x w' (List.mem_cons_of_mem _ hx)⟩

theorem lastUpTo_eq (hs : KeySorted l) : lastUpTo l k = l.reverse.find? fun e => e.1 ≤ k := by
  have hkeys : (l.map Prod.fst).Pairwise (· < ·) := List.pairwise_map.mpr hs
  unfold lastUpTo lastBefore
  cases hb : lowerBound (l.map Prod.fst) (k + 1) with
  | zero =>
    symm
    rw [List.find?_eq_none]
    rintro ⟨x, w⟩ hx
    rw [List.mem_reverse] at hx
    obtain ⟨i, hi⟩ := List.mem_iff_getElem?.mp hx
    have := le_of_lowerBound_le hkeys (k := k + 1) (i := i) (x := x) (by omega)
      (by rw [List.getElem?_map, hi]; rfl)
    simp only [decide_eq_true_eq]
    omega
  | succ n =>
    have hn : n < l.length := by
      have := lowerBound_le (l.map Prod.fst) (k + 1)
      rw [List.length_map] at this
      omega
    obtain ⟨⟨x, w⟩, hx⟩ : ∃ e, l[n]? = some e := ⟨_, List.getElem?_eq_getElem hn⟩
    simp only [hx]
    symm
    rw [hs.rfind?_eq_some]
    have hlt : n < lowerBound (l.map Prod.fst) (k + 1) := by omega
    have hxk : x < k + 1 := lt_of_lt_lowerBound hlt (by rw [List.getElem?_map, hx]; rfl)
    refine ⟨List.mem_of_getElem? hx, by omega, fun y w' hy hyk => ?_⟩
    obtain ⟨i, hi⟩ := List.mem_iff_getElem?.mp hy
    by_contra hlt
    -- a larger key at or below `k` would stand past the upper bound
    have hin : n < i := by
      by_contra hle
      rcases Nat.lt_or_eq_of_le (Nat.le_of_not_lt hle) with hlt' | rfl
      · have := List.pairwise_iff_getElem.mp hs i n (List.getElem?_eq_some_iff.mp hi).1 hn hlt'
        rw [(List.getElem?_eq_some_iff.mp hi).2, (List.getElem?_eq_some_iff.mp hx).2] at this
        omega
      · rw [hi] at hx
        cases hx
        omega
    have := le_of_lowerBound_le hkeys (k := k + 1) (i := i) (x := y) (by omega)
      (by rw [List.getElem?_map, hi]; rfl)
    omega

end SortedAssoc

namespace Bitmap

theorem prevSet_eq_some {bits k d : ℕ} :
    prevSet bits k = some d ↔ d ≤ k ∧ bits.testBit d = true ∧ ∀ j, d < j → j ≤ k → bits.testBit j = false := by
  induction k with
  | zero =>
    rw [prevSet]
    simp only [Nat.zero_add, List.range_one, List.reverse_singleton, List.find?_singleton]
    split_ifs with h0
    · simp only [Option.some.injEq]
      constructor
      · rintro rfl
        exact ⟨le_rfl, h0, fun j _ _ => by omega⟩
      · rintro ⟨hd, -⟩
        omega
    · rw [iff_false_left (by simp)]
      rintro ⟨hd, hb, -⟩
      rw [Nat.le_zero.mp hd] at hb
      exact h0 hb
  | succ k ih =>
    rw [prevSet] at ih ⊢
    rw [List.range_succ, List.reverse_append, List.reverse_singleton, List.singleton_append, List.find?_cons]
    cases hb : bits.testBit (k + 1) with
    | true =>
      simp only [Option.some.injEq]
      constructor
      · rintro rfl
        exact ⟨le_rfl, hb, fun j _ _ => by omega⟩
      · rintro ⟨hd, -, hmax⟩
        by_contra hne
        rw [hmax (k + 1) (by omega) le_rfl] at hb
        cases hb
    | false =>
      refine Iff.trans ih ?_
      constructor
      · rintro ⟨hd, hb', hmax⟩
        refine ⟨by omega, hb', fun j hj hjk => ?_⟩
        rcases Nat.lt_or_eq_of_le hjk with hlt | rfl
        · exact hmax j hj (by omega)
        · exact hb
      · rintro ⟨hd, hb', hmax⟩
        refine ⟨?_, hb', fun j hj hjk => hmax j hj (by omega)⟩
        rcases Nat.lt_or_eq_of_le hd with hlt | rfl
        · omega
        · rw [hb] at hb'
          cases hb'

end Bitmap

namespace Ranked

variable {α : Type*} {r : Ranked α} (h : r.Ok)
include h

/-- The previous present digit is the last entry at or below it. -/
theorem rfind?_entries (k : ℕ) : (r.entries.reverse.find? fun e => e.1 ≤ k) =
    (Bitmap.prevSet r.bits k).bind fun d => (r.get d).map fun a => (d, a) := by
  apply Option.ext
  rintro ⟨d, a⟩
  rw [(entries_sorted h).rfind?_eq_some]
  simp only [Option.bind_eq_some_iff, Option.map_eq_some_iff, Prod.mk.injEq, mem_entries h,
    Bitmap.prevSet_eq_some]
  constructor
  · rintro ⟨hg, hk, hmax⟩
    refine ⟨d, ⟨hk, (get_isSome h).mp (by rw [hg]; rfl), ?_⟩, a, hg, rfl, rfl⟩
    intro j hdj hjk
    rw [← Bool.not_eq_true, ← get_isSome h]
    intro hj
    obtain ⟨w, hw⟩ := Option.isSome_iff_exists.mp hj
    have := hmax j w hw hjk
    omega
  · rintro ⟨_, ⟨hk, -, hmax⟩, _, hg, rfl, rfl⟩
    refine ⟨hg, hk, ?_⟩
    intro x w hx hxk
    by_contra hlt
    have hb := hmax x (by omega) hxk
    rw [← Bool.not_eq_true, ← get_isSome h, hx] at hb
    simp at hb

end Ranked

namespace Edge

variable {V : Type} {B x s : ℕ} {l : List (ℕ × V)}

/-- Where a backward search for a suffix with upper part `q` and lower part `r` starts inside
the sub-expanse at `x`, whose keys end at `top`: nowhere, at `r`, or at its end. -/
def seekBack (x q r top : ℕ) : Option ℕ :=
  if q < x then none else if q = x then some r else some top

/-- The backward search position below a narrow pointer to a node at level `m`. -/
def enterSkipBack (aux m level suffix : ℕ) : Option ℕ :=
  seekBack (slice aux m level) (suffix / 256 ^ m) (low suffix m) (256 ^ m - 1)

/-- How many keys of a leaf are at or below `low`; the largest suffix takes them all. -/
def leafUpTo (kb low : ℕ) (cols : Columns V) : ℕ :=
  if low = 256 ^ kb - 1 then cols.size else lowerBound cols.keys (low + 1)

/-- The largest key at or below `suffix`, with its value. -/
def prev [Inhabited V] : ℕ → Edge V → ℕ → ℕ → Option (ℕ × V)
  | 0, _, _, _ => none
  | fuel + 1, e, suffix, level =>
    match e with
    | null => none
    | immed _ cols => lastUpTo cols.entries suffix
    | leaf kb aux cols =>
      (enterSkipBack aux kb level suffix).bind fun k =>
        (lastBefore cols.entries (leafUpTo kb k cols)).map fun x =>
          (compose (slice aux kb level) x.1 kb, x.2)
    | leafB1 aux node =>
      (enterSkipBack aux 1 level suffix).bind fun k =>
        (Bitmap.prevSet node.bits k).bind fun d =>
          (node.get d).map fun v => (compose (slice aux 1 level) d 1, v)
    | fullExpanse _ => some (min suffix (256 ^ level - 1), default)
    | branch aux node =>
      let bl := node.level level
      (enterSkipBack aux bl level suffix).bind fun k =>
        let d := digit k bl
        (node.slots.filter fun s => s.1 ≤ d).reverse.findSome? fun s =>
          (prev fuel s.2 (if s.1 = d then low k (bl - 1) else 256 ^ (bl - 1) - 1) (bl - 1)).map
            fun x => (compose (slice aux bl level) (compose s.1 x.1 (bl - 1)) bl, x.2)

theorem rfind?_shift (hB : 0 < B) (hl : ∀ e ∈ l, e.1 < B) :
    ((shift (x * B) l).reverse.find? fun e => e.1 ≤ s) =
      (seekBack x (s / B) (s % B) (B - 1)).bind fun k =>
        (l.reverse.find? fun e => e.1 ≤ k).map fun e => (x * B + e.1, e.2) := by
  have hs := Nat.div_add_mod s B
  have hr := Nat.mod_lt s hB
  rw [Nat.mul_comm] at hs
  generalize s / B = q at hs
  generalize s % B = r at hs hr
  rw [shift, ← List.map_reverse, List.find?_map]
  unfold seekBack
  split_ifs with hlt heq
  · have : (q + 1) * B ≤ x * B := Nat.mul_le_mul_right B hlt
    rw [Nat.add_mul] at this
    rw [Option.bind_none, Option.map_eq_none_iff, List.find?_eq_none]
    intro e _
    simp only [Function.comp, decide_eq_true_eq]
    omega
  · rw [Option.bind_some]
    congr 1
    apply List.find?_congr
    intro e _
    simp only [Function.comp, decide_eq_decide]
    rw [← heq]
    omega
  · have : (x + 1) * B ≤ q * B := Nat.mul_le_mul_right B (by omega)
    rw [Nat.add_mul] at this
    rw [Option.bind_some]
    congr 1
    apply List.find?_congr
    intro e he
    have := hl e (List.mem_reverse.mp he)
    simp only [Function.comp, decide_eq_decide]
    omega

theorem lastBefore_leafUpTo {kb k : ℕ} {cols : Columns V} (hs : KeySorted cols.entries)
    (hb : ∀ e ∈ cols.entries, e.1 < 256 ^ kb) :
    lastBefore cols.entries (leafUpTo kb k cols) =
      cols.entries.reverse.find? fun e => e.1 ≤ k := by
  rw [← lastUpTo_eq hs, lastUpTo, Columns.map_fst_entries, leafUpTo]
  split_ifs with hk
  · congr 1
    have hp := pow_pos' kb
    have hkeys : cols.keys.Pairwise (· < ·) := by
      rw [← Columns.map_fst_entries]
      exact List.pairwise_map.mpr hs
    rw [lowerBound_eq_countP hkeys, Eq.comm, Columns.size, List.countP_eq_length]
    intro y hy
    rw [← Columns.map_fst_entries] at hy
    obtain ⟨e, he, rfl⟩ := List.mem_map.mp hy
    have := hb e he
    rw [decide_eq_true_eq]
    omega
  · rfl

variable [Inhabited V] {fl : Flavour} {P : Branch (Edge V) → Prop} {L fuel suffix : ℕ} {e : Edge V}

theorem prev_eq (h : Readable fl P L e) (hs : suffix < 256 ^ L) (hf : L ≤ fuel) (h1 : 1 ≤ L) :
    prev fuel e suffix L = (entries L e).reverse.find? fun x => x.1 ≤ suffix := by
  induction fuel generalizing L e suffix with
  | zero => omega
  | succ fuel ih =>
    cases e with
    | null => simp [prev, entries]
    | immed kb cols =>
      have hsorted := h.sorted
      rw [entries] at hsorted
      rw [prev, entries, lastUpTo_eq hsorted]
    | leaf kb aux cols =>
      rw [Readable] at h
      have hb : ∀ e ∈ cols.entries, e.1 < 256 ^ kb := by
        rintro ⟨k, v⟩ hm
        exact h.2.2.1.bound k (Columns.mem_keys hm)
      rw [prev, entries, rfind?_shift (pow_pos' kb) hb]
      have hsorted : KeySorted cols.entries := by
        rw [keySorted_iff, Columns.map_fst_entries]
        exact h.2.2.1.sorted
      simp only [lastBefore_leafUpTo hsorted hb]
      rfl
    | leafB1 aux node =>
      rw [Readable] at h
      rw [prev, entries, rfind?_shift (pow_pos' 1)]
      · simp only [Ranked.rfind?_entries h.2.1, Option.map_bind]
        apply congrArg
        funext k
        congr 1
        funext d
        rw [Function.comp, Option.map_map]
        rfl
      · rintro ⟨k, v⟩ hm
        have := Ranked.get_bound h.2.1 ((Ranked.mem_entries h.2.1).mp hm)
        simpa using this
    | fullExpanse aux =>
      symm
      rw [prev, (show Readable fl P L (fullExpanse aux : Edge V) from h).sorted.rfind?_eq_some,
        Nat.min_eq_left (by omega)]
      refine ⟨mem_entries_full.mpr ⟨hs, rfl⟩, le_rfl, fun x w _ hx => hx⟩
    | branch aux node =>
      have hb := readable_branch.mp h
      have h2 := hb.two_le
      have hl := hb.le
      rw [h.entries_eq_shift_core rfl]
      change _ = ((shift (slice aux (node.level L) L * 256 ^ node.level L)
        (core (node.level L) (branch aux node))).reverse.find? _)
      rw [prev, rfind?_shift (pow_pos' _) (core_bound hb)]
      change (seekBack _ _ _ _).bind _ = _
      apply Option.bind_congr
      intro k hk
      -- the position inside the node fits in its level
      have hkb : k < 256 ^ node.level L := by
        have hp := pow_pos' (node.level L)
        unfold seekBack at hk
        split_ifs at hk
        · cases hk
          exact low_lt _ _
        · cases hk
          omega
      have hdig := digit_eq_div (show 1 ≤ node.level L by omega) hkb
      simp only [core]
      rw [List.reverse_flatMap, List.find?_flatMap, ← List.filter_reverse,
        ← findSome?_filter (l := node.slots.reverse) (p := fun c => c.1 ≤ digit k (node.level L))]
      · rw [List.map_findSome?]
        apply findSome?_congr
        intro c hc
        obtain ⟨hc, hle⟩ := List.mem_filter.mp hc
        rw [List.mem_reverse] at hc
        rw [decide_eq_true_eq] at hle
        have hcs := (hb.slot (d := c.1) (c := c.2) hc).2
        have hp := pow_pos' (node.level L - 1)
        have hstart : (if c.1 = digit k (node.level L) then low k (node.level L - 1)
            else 256 ^ (node.level L - 1) - 1) < 256 ^ (node.level L - 1) := by
          split_ifs
          · exact low_lt _ _
          · omega
        rw [ih hcs hstart (by omega) (by omega), Function.comp, Function.comp,
          rfind?_shift (pow_pos' _) (slot_bound hb hc), ← hdig]
        have hseek : seekBack c.1 (digit k (node.level L)) (k % 256 ^ (node.level L - 1))
            (256 ^ (node.level L - 1) - 1) =
            some (if c.1 = digit k (node.level L) then low k (node.level L - 1)
              else 256 ^ (node.level L - 1) - 1) := by
          unfold seekBack
          split_ifs with hlt heq heq' <;> first | rfl | omega
        rw [hseek, Option.bind_some, Option.map_map]
        rfl
      · intro c hc hlt
        rw [List.mem_reverse] at hc
        rw [decide_eq_false_iff_not, not_le] at hlt
        rw [Function.comp, rfind?_shift (pow_pos' _) (slot_bound hb hc), ← hdig, seekBack, if_pos hlt]
        rfl

end Edge

end Expanse
