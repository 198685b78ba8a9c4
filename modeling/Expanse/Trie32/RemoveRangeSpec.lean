import Expanse.Trie32.Compact
import Expanse.Trie32.RangeBitmap

/-!
# What a removed range leaves

The removal of a range leaves the tree that removals of its entries leave, one by one. It hands out
those entries in key order and leaves everything else in the arena as it was.
-/

namespace Expanse.Trie32

open Bitmap Packed SortedAssoc Trie32.Tree

variable {fl : Flavour} {kb fuel h d lo hi pre : ℕ} {l ks : List (ℕ × ℕ)} {form : Form}
    {kids k₁ k₂ : List (ℕ × Tree)}
  {c t : Tree} {e : Edge32} {C F : Cells} {a a' : Arena} {nd : Node} {r : Swept}

/-- The removal of the entries `ks` from a stored tree, with the digits `pre` above it. -/
structure Sweeps (fl : Flavour) (kb pre : ℕ) (F : Cells) (e : Edge32) (t : Tree) (ks : List (ℕ × ℕ))
  (r : Swept) : Prop where
  gone : r.gone = under pre ks
  count : r.count = ks.length
  stored : ∃ C', Rep fl kb r.edge (removeAll fl kb t ks) C' ∧ Owned r.arena (C' + F)
  plain : Plain r.arena
  kept : ks = [] → r.edge = e

theorem sweeps_none (ho : Owned a (C + F)) (hrep : Rep fl kb e t C) (hp : Plain a) :
    Sweeps fl kb pre F e t [] ⟨[], 0, e, a⟩ := ⟨rfl, rfl, ⟨C, hrep, ho⟩, hp, fun _ => rfl⟩

theorem length_outside (lo hi : ℕ) (l : List (ℕ × ℕ)) :
    (between lo hi l).length + (outside lo hi l).length = l.length :=
  (List.length_eq_length_filter_add (inRange lo hi)).symm

theorem outside_sublist (lo hi : ℕ) (l : List (ℕ × ℕ)) : (outside lo hi l).Sublist l := List.filter_sublist

theorem outside_split {l₁ l₃ : List (ℕ × ℕ)} (hbelow : ∀ x ∈ l₁, x.1 < lo) (habove : ∀ x ∈ l₃, hi < x.1)
    (h : l = l₁ ++ between lo hi l ++ l₃) : outside lo hi l = l₁ ++ l₃ := by
  have hmid : outside lo hi (between lo hi l) = [] := List.filter_eq_nil_iff.mpr fun x hx => by
    simp [(List.mem_filter.mp hx).2, inRange]
  have hl₁ : outside lo hi l₁ = l₁ := List.filter_eq_self.mpr fun x hx => by
    have := hbelow x hx
    rw [inRange, decide_eq_false (by omega)]
    rfl
  have hl₃ : outside lo hi l₃ = l₃ := List.filter_eq_self.mpr fun x hx => by
    have := habove x hx
    rw [inRange, decide_eq_false (by omega)]
    rfl
  have happend : ∀ l l' : List (ℕ × ℕ), outside lo hi (l ++ l') = outside lo hi l ++ outside lo hi l' :=
    fun l l' => List.filter_append l l'
  calc outside lo hi l = outside lo hi (l₁ ++ between lo hi l ++ l₃) := by rw [← h]
    _ = l₁ ++ l₃ := by rw [happend, happend, hl₁, hmid, hl₃, List.append_nil]

theorem Held.outside (h : Held fl kb l) (lo hi : ℕ) : Held fl kb (outside lo hi l) :=
  ⟨fun x hx => h.fit x (List.mem_filter.mp hx).1, h.sorted.filter _⟩

theorem sweepImmed_spec (hok : Ok fl (kb + 1) (immed l)) (ho : Owned a F) (hp : Plain a) :
    Sweeps fl (kb + 1) pre F (immedEdge fl (kb + 1) l) (immed l) (between lo hi l)
      (sweepImmed fl a (immedEdge fl (kb + 1) l) (kb + 1) pre lo hi l) := by
  obtain ⟨hl, hone, hcap⟩ := ok_immed.mp hok
  have hlen := length_outside lo hi l
  rw [sweepImmed]
  rw [← between_eq_filter]
  change Sweeps _ _ _ _ _ _ _ (if between lo hi l = [] then _ else
    ⟨_, _, if outside lo hi l = [] then .null else immedEdge fl (kb + 1) (outside lo hi l), _⟩)
  by_cases hnil : between lo hi l = []
  · rw [if_pos hnil, hnil]
    exact sweeps_none ho.shift (rep_immed.mpr ⟨rfl, rfl⟩) hp
  · rw [if_neg hnil]
    refine ⟨rfl, rfl, ?_, hp, fun h => absurd h hnil⟩
    rw [removeAll_immed hok, delAll_between hl.sorted, shrunkLeaf]
    by_cases hout : outside lo hi l = []
    · rw [hout, if_pos rfl, if_pos List.length_nil]
      exact ⟨0, rep_null.mpr ⟨rfl, rfl⟩, ho.shift⟩
    · rw [if_neg hout, if_neg fun h => hout (List.length_eq_zero_iff.mp h), if_pos (by omega)]
      exact ⟨0, rep_immed.mpr ⟨rfl, rfl⟩, ho.shift⟩

theorem survivors_eq {vw : ℕ} {buf : List ℕ} {l₁ mid l₃ : List (ℕ × ℕ)} (hvw : vw = valueWidth fl)
    (hb : LeafHolds vw kb (l₁ ++ mid ++ l₃) buf) (hpos : 0 < (l₁ ++ l₃).length)
    (hcap : (l₁ ++ l₃).length ≤ immedCap fl kb) :
    survivors fl kb (l₁ ++ mid ++ l₃).length l₁.length (l₁.length + mid.length) buf = l₁ ++ l₃ := by
  subst hvw
  cases fl with
  | set =>
    rw [survivors]
    have hfront := leaf_slice (i := 0) (n := l₁.length) hb (by simp)
    have hback := leaf_slice (i := l₁.length + mid.length) (n := l₃.length) hb (by simp; omega)
    have hlen : (l₁ ++ mid ++ l₃).length - (l₁.length + mid.length) = l₃.length := by
      rw [List.length_append, List.length_append, Nat.add_sub_cancel_left]
    rw [hlen, List.map_append, List.range_eq_range', hfront, hback, List.drop_zero, List.append_assoc,
      List.take_left, ← List.append_assoc, ← List.length_append, List.drop_left, List.take_length]
  | map =>
    have hone : (l₁ ++ l₃).length = 1 := by
      have : immedCap .map kb ≤ 1 := by
        rw [immedCap]
        split_ifs <;> omega
      omega
    rw [survivors]
    rw [List.length_append] at hone
    by_cases h0 : l₁.length = 0
    · obtain rfl := List.length_eq_zero_iff.mp h0
      obtain ⟨x, rfl⟩ := List.length_eq_one_iff.mp (by omega : l₃.length = 1)
      rw [if_pos List.length_nil, leafEntry_eq (x := x) hb (by simp)]
      rfl
    · obtain ⟨x, rfl⟩ := List.length_eq_one_iff.mp (by omega : l₁.length = 1)
      obtain rfl := List.length_eq_zero_iff.mp (by simpa using hone : l₃.length = 0)
      rw [if_neg h0, leafEntry_eq (x := x) hb (by simp)]
      rfl

theorem sweepLeaf_spec (h4 : kb + 1 ≤ 4) (ho : Owned a ((h, .leaf (valueWidth fl) (kb + 1) l) ::ₘ F))
    (hok : Ok fl (kb + 1) (leaf l)) (hp : Plain a) (hle : lo ≤ hi) (hhi : hi < 256 ^ (kb + 1)) :
    ∃ r, sweepLeaf fl a (leafEdge fl (kb + 1) h l.length) (kb + 1) h l.length pre lo hi = .ok r ∧
      Sweeps fl (kb + 1) pre F (leafEdge fl (kb + 1) h l.length) (leaf l) (between lo hi l) r := by
  obtain ⟨hl, hmin, hmax⟩ := ok_leaf.mp hok
  obtain ⟨buf, hn, hb⟩ := ho.find_leaf
  have hlow : leafLowerBound (keysOff (valueWidth fl) l.length) (kb + 1) buf l.length lo =
      lowerBound (l.map Prod.fst) lo :=
    leafLowerBound_eq hb hl.sorted
  have hhigh : (if hi = remMask (kb + 1) then l.length
      else leafLowerBound (keysOff (valueWidth fl) l.length) (kb + 1) buf l.length (hi + 1)) =
      lowerBound (l.map Prod.fst) (hi + 1) := by
    split_ifs with hmask
    · rw [remMask_eq h4] at hmask
      rw [lowerBound_of_all_lt fun x hx => ?_, List.length_map]
      obtain ⟨y, hy, rfl⟩ := List.mem_map.mp hx
      have := (hl.fit y hy).1
      omega
    · exact leafLowerBound_eq hb hl.sorted
  have hgone := @leaf_between (kb + 1) lo hi _ l buf hb hl.sorted hle
  obtain ⟨l₁, l₃, hsplit, hbelow, habove, h0, h1⟩ := lowerBound_between hl.sorted hle
  have hlen := length_outside lo hi l
  have hout := outside_split hbelow habove hsplit
  have hparts := congrArg List.length hsplit
  rw [List.length_append, List.length_append] at hparts
  have hsub : l.length - (between lo hi l).length = (outside lo hi l).length := by omega
  rw [sweepLeaf]
  dsimp only
  rw [leaf_eq hn hb.fits, ok_bind, hlow, hhigh, hgone, h0, h1, Nat.add_sub_cancel_left, hsub]
  by_cases hnil : between lo hi l = []
  · rw [hnil, if_pos (by simp)]
    exact ⟨_, rfl, sweeps_none (by rwa [cells_single]) (rep_leaf.mpr ⟨h, rfl, rfl⟩) hp⟩
  have hpos := List.length_pos_of_ne_nil hnil
  have htree : removeAll fl (kb + 1) (leaf l) (between lo hi l) = shrunkLeaf fl (kb + 1) (outside lo hi l) := by
    rw [removeAll_leaf hok, delAll_between hl.sorted]
  have sweeps : ∀ {e a'}, (∃ C', Rep fl (kb + 1) e (shrunkLeaf fl (kb + 1) (outside lo hi l)) C' ∧
      Owned a' (C' + F)) →
      Plain a' → Sweeps fl (kb + 1) pre F (leafEdge fl (kb + 1) h l.length) (leaf l) (between lo hi l)
        ⟨under pre (between lo hi l), (between lo hi l).length, e, a'⟩ := by
    intro e a' hst hp'
    rw [← htree] at hst
    exact ⟨rfl, rfl, hst, hp', fun h => absurd h hnil⟩
  rw [if_neg (by omega)]
  by_cases hzero : (outside lo hi l).length = 0
  · obtain ⟨a', ha, ho', hs⟩ := freeNode_spec ho (hp.room 0 1)
    rw [if_pos hzero, ha, ok_bind]
    refine ⟨_, rfl, sweeps ⟨0, ?_, ho'.shift⟩ (hs.plain hp)⟩
    rw [shrunkLeaf, if_pos hzero]
    exact rep_null.mpr ⟨rfl, rfl⟩
  rw [if_neg hzero]
  by_cases hcap : (outside lo hi l).length ≤ immedCap fl (kb + 1)
  · obtain ⟨a', ha, ho', hs⟩ := freeNode_spec ho (hp.room 0 1)
    have hstay : survivors fl (kb + 1) l.length l₁.length (l₁.length + (between lo hi l).length) buf =
        outside lo hi l := by
      have hb' := hb
      rw [hsplit] at hb'
      have := survivors_eq rfl hb' (by rw [← hout]; omega) (by rw [← hout]; exact hcap)
      rwa [← hsplit, ← hout] at this
    rw [if_pos hcap, ha, ok_bind, hstay]
    refine ⟨_, rfl, sweeps ⟨0, ?_, ho'.shift⟩ (hs.plain hp)⟩
    rw [shrunkLeaf, if_neg hzero, if_pos hcap]
    exact rep_immed.mpr ⟨rfl, rfl⟩
  · obtain ⟨h', a', ha, ho', hs⟩ := leafRemoveSpan_spec false ho (hp.room 1 1) (i := l₁.length)
      (j := l₁.length + (between lo hi l).length) (by omega) (by omega) (leafTop_mul fl h4 hmax)
    have hkeep : l.take l₁.length ++ l.drop (l₁.length + (between lo hi l).length) = outside lo hi l := by
      generalize between lo hi l = mid at hsplit
      rw [hout, hsplit, List.append_assoc, List.take_left, ← List.append_assoc, ← List.length_append,
        List.drop_left]
    rw [Nat.add_sub_cancel_left, hsub] at ha
    rw [hkeep] at ho'
    rw [if_neg hcap, ha, ok_bind]
    refine ⟨_, rfl, sweeps ⟨_, ?_, by rwa [cells_single]⟩ (hs.plain hp)⟩
    rw [shrunkLeaf, if_neg hzero, if_neg hcap]
    exact rep_leaf.mpr ⟨h', rfl, rfl⟩

theorem retireAll_plain (hp : Plain a) (ns : List ℕ) : a.retireAll ns = .ok a := by
  induction ns with
  | nil => rfl
  | cons n ns ih =>
    rw [Arena.retireAll, Arena.retire, hp.deferred, if_neg Bool.false_ne_true, ok_bind, ih]

/-- The leaf drops the range. If nothing stays, its node is about to be freed and only has to be there. -/
theorem dropDigits_spec (hl : Held fl 1 l) (hne : l ≠ []) (hle : lo ≤ hi) (hhi : hi < 256) (hp : Plain a)
    (ho : Owned a ((h, .node (bitmapNode fl l)) ::ₘ F)) :
    ∃ a' nd, dropDigits fl a h lo hi = .ok (between lo hi l, (outside lo hi l).length, a') ∧
      Owned a' ((h, .node nd) ::ₘ F) ∧ Plain a' ∧ (outside lo hi l ≠ [] →
        nd = bitmapNode fl (outside lo hi l)) := by
  have hlen := length_outside lo hi l
  cases fl with
  | set =>
    have hdigits : (digits (setBitmapOf l).bits).filter (fun d => decide (lo ≤ d ∧ d ≤ hi)) =
        (between lo hi l).map Prod.fst := by
      rw [setBitmapOf, digits_bitmap hl, List.filter_map]
      rfl
    have hkeys : ((between lo hi l).map Prod.fst).map (fun d => (d, 0)) = between lo hi l := by
      rw [List.map_map]
      refine (List.map_congr_left fun x hx => ?_).trans (List.map_id _)
      exact Prod.ext rfl (hl.zero x (List.mem_filter.mp hx).1).symm
    have hfit : (Desc.node (.bitmap (setBitmapOf (outside lo hi l)))).Fits
        (.bitmap (setBitmapOf (outside lo hi l))) := rfl
    obtain ⟨ho', hs⟩ := put_spec_same ho hfit rfl
    refine ⟨_, .bitmap (setBitmapOf (outside lo hi l)), ?_, ho', hs.plain hp, fun _ => rfl⟩
    have hb : a.bitmap h = .ok (setBitmapOf l) := bitmap_eq ho
    rw [dropDigits]
    dsimp only
    rw [hb, ok_bind, digitsTo_eq _ (by omega) (by omega), ok_bind, hdigits, hkeys, setBitmapRemove_all hl.sorted,
      delAll_between hl.sorted]
    rfl
  | map =>
    have hin : ∀ x ∈ l, rowsIn lo hi 0 8 x = inRange lo hi x := fun x hx => by
      have hlt : x.1 < 256 := by simpa using (hl.fit x hx).1
      rw [rowsIn, decide_eq_true (by omega), Bool.true_and]
    have hgone : l.filter (rowsIn lo hi 0 8) = between lo hi l := List.filter_congr hin
    have hstay : (l.filter fun x => !rowsIn lo hi 0 8 x) = outside lo hi l :=
      List.filter_congr fun x hx => by rw [hin x hx]
    obtain ⟨retired, delta, hrows, hbytes⟩ := @dropRows_spec l lo hi (l.length - 1) hl.sorted hle 0 8 le_rfl
    rw [hgone, hstay] at hrows
    rw [hstay] at hbytes
    have hpos := List.length_pos_of_ne_nil hne
    have hcount : l.length - 1 + 1 - (between lo hi l).length = (outside lo hi l).length := by omega
    have hpop0 : (if 0 < (outside lo hi l).length then
          (⟨bitsOf ((outside lo hi l).map Prod.fst), (outside lo hi l).length - 1,
            subsOf 0 (outside lo hi l)⟩ : MapBitmap)
        else ⟨bitsOf ((outside lo hi l).map Prod.fst), l.length - 1, subsOf 0 (outside lo hi l)⟩) =
        ⟨bitsOf ((outside lo hi l).map Prod.fst),
          if 0 < (outside lo hi l).length then (outside lo hi l).length - 1 else l.length - 1,
            subsOf 0 (outside lo hi l)⟩ := by
      split_ifs <;> rfl
    generalize hq : (if 0 < (outside lo hi l).length then (outside lo hi l).length - 1 else l.length - 1) =
      q at hpop0
    have hδ : ((Desc.node (.mapBitmap ⟨bitsOf ((outside lo hi l).map Prod.fst), q,
        subsOf 0 (outside lo hi l)⟩)).bytes : ℤ) =
        (Desc.node (bitmapNode .map l)).bytes + delta := by
      show ((96 + subBytes VALUE_SIZE (subsOf 0 (outside lo hi l)) : ℕ) : ℤ) =
        ((96 + subBytes VALUE_SIZE (subsOf 0 l) : ℕ) : ℤ) + delta
      push_cast
      rw [hbytes]
      ring
    obtain ⟨ho', hs⟩ := put_spec ho (fits_node _) hδ
    refine ⟨_, _, ?_, ho', hs.plain hp, fun hne' => ?_⟩
    · have hb : a.mapBitmap h = .ok (mapBitmapOf l) := mapBitmap_eq ho
      have hput : ∀ n, (a.put h n).retireAll retired = .ok (a.put h n) := fun n =>
        @retireAll_plain (a.put h n) ⟨hp.fixed, hp.deferred⟩ retired
      rw [dropDigits]
      dsimp only
      rw [hb, ok_bind, List.range_eq_range', show mapBitmapOf l =
        ⟨bitsOf (l.map Prod.fst), l.length - 1, subsOf 0 l⟩ from rfl,
        hrows, ok_bind]
      dsimp only
      rw [if_neg (by omega), hcount, hpop0, hput]
      rfl
    · rw [← hq, if_pos (List.length_pos_of_ne_nil hne')]
      rfl

theorem settleBitmap_spec (hl : Held fl 1 l) (hp : Plain a) (ho : Owned a ((h, .node nd) ::ₘ F))
    (hnd : l ≠ [] → nd = bitmapNode fl l) :
    ∃ e' a' C', settleBitmap fl a (bitmapEdge fl h) h l.length = .ok (e', a') ∧
      Rep fl 1 e' (shrunkBitmap fl l) C' ∧ Owned a' (C' + F) ∧ Plain a' := by
  rw [settleBitmap, shrunkBitmap]
  by_cases hnil : l.length = 0
  · obtain ⟨a', hfree, ho', hs⟩ := freeNode_spec ho (hp.room 0 1)
    rw [if_pos hnil, if_pos (by omega), shrunkLeaf, if_pos hnil, hfree]
    exact ⟨_, a', 0, rfl, rep_null.mpr ⟨rfl, rfl⟩, ho'.shift, hs.plain hp⟩
  obtain rfl := hnd fun hl' => hnil (by rw [hl']; rfl)
  rw [if_neg hnil]
  by_cases hleave : l.length ≤ bitmapLeave fl
  · rw [if_pos hleave, if_pos hleave, shrunkLeaf, if_neg hnil, readBitmap_spec hl ho, ok_bind]
    by_cases hcap : l.length ≤ immedCap fl 1
    · obtain ⟨a', hfree, ho', hs⟩ := freeNode_spec ho (hp.room 0 1)
      rw [if_pos hcap, if_pos hcap, hfree]
      exact ⟨_, a', 0, rfl, rep_immed.mpr ⟨rfl, rfl⟩, ho'.shift, hs.plain hp⟩
    · obtain ⟨h', a₁, hmake, ho₁, hs₁⟩ := makeLeaf_spec ho (hp.room 1 0) hl.fit
      rw [Multiset.cons_swap] at ho₁
      obtain ⟨a', hfree, ho', hs⟩ := freeNode_spec ho₁ ((hs₁.plain hp).room 0 1)
      rw [if_neg hcap, if_neg hcap, hmake, ok_bind]
      dsimp only
      rw [hfree]
      exact ⟨_, a', _, rfl, rep_leaf.mpr ⟨h', rfl, rfl⟩, by rwa [cells_single], hs.plain (hs₁.plain hp)⟩
  · rw [if_neg hleave, if_neg hleave]
    exact ⟨_, a, _, rfl, rep_bitmap.mpr ⟨h, rfl, rfl⟩, by rwa [cells_single], hp⟩

theorem sweepBitmap_spec (hok : Ok fl (kb + 1) (bitmap l))
    (ho : Owned a ((h, .node (bitmapNode fl l)) ::ₘ F)) (hp : Plain a)
    (hle : lo ≤ hi) (hhi : hi < 256 ^ (kb + 1)) :
    ∃ r, sweepBitmap fl a (bitmapEdge fl h) h pre lo hi = .ok r ∧
      Sweeps fl (kb + 1) pre F (bitmapEdge fl h) (bitmap l) (between lo hi l) r := by
  have htree := @removeAll_bitmap fl kb l (between lo hi l) hok
  obtain ⟨hkb, hl, hmin⟩ := ok_bitmap.mp hok
  obtain rfl : kb = 0 := by omega
  have hne : l ≠ [] := List.ne_nil_of_length_pos (by omega)
  obtain ⟨a₁, nd, hdrop, ho₁, hp₁, hnd⟩ := dropDigits_spec hl hne hle (by simpa using hhi) hp ho
  rw [delAll_between hl.sorted] at htree
  rw [sweepBitmap, hdrop, ok_bind]
  dsimp only
  by_cases hnil : between lo hi l = []
  · have hlen := length_outside lo hi l
    rw [hnil, List.length_nil, Nat.zero_add] at hlen
    have hself := (outside_sublist lo hi l).eq_of_length hlen
    rw [hself] at hnd
    rw [hnd hne] at ho₁
    rw [if_pos hnil, hnil]
    exact ⟨_, rfl, sweeps_none (by rwa [cells_single]) (rep_bitmap.mpr ⟨h, rfl, rfl⟩) hp₁⟩
  · obtain ⟨e', a', C', hr, hrep, ho', hp'⟩ := settleBitmap_spec (hl.outside lo hi) hp₁ ho₁ hnd
    rw [if_neg hnil, hr, ok_bind]
    refine ⟨_, rfl, rfl, rfl, ⟨C', ?_, ho'⟩, hp', fun h => absurd h hnil⟩
    rw [htree]
    exact hrep

/-- What the removal of a range is below one digit. -/
def SweepsBelow (fl : Flavour) (kb pre clo chi : ℕ) (below : Arena → Edge32 → Except Fault Swept) : Prop :=
  ∀ {F C : Cells} {a : Arena} {e : Edge32} {c : Tree}, Rep fl kb e c C → Owned a (C + F) → Ok fl kb c → Plain a →
    ∃ r, below a e = .ok r ∧ Sweeps fl kb pre F e c (between clo chi (entries kb c)) r

theorem sweepDigit_cut {clo chi : ℕ} {below : Arena → Edge32 → Except Fault Swept}
    (hbelow : SweepsBelow fl kb (pre ||| d * 2 ^ (8 * kb)) clo chi below) (ho : Owned a (C + F))
    (hrep : Rep fl (kb + 1) e (branch form (k₁ ++ (d, c) :: k₂)) C)
    (hb : Fork fl kb form (k₁ ++ (d, c) :: k₂)) (hp : Plain a) :
    ∃ r, sweepDigit below a e d = .ok r ∧ Sweeps fl (kb + 1) pre F e (branch form (k₁ ++ (d, c) :: k₂))
      ((between clo chi (entries kb c)).map (Direction.moved (256 ^ kb) d)) r := by
  obtain ⟨h, es, Ck, rfl, hk, rfl⟩ := rep_branch.mp hrep
  have hedges := hk.edges hb
  have hcap := hb.cap
  rw [← hk.length] at hcap
  obtain ⟨es₁, ec, es₂, C₁, Cc, C₂, rfl, hk₁, hrc, hk₂, rfl⟩ := hk.cut
  have hchild : Ok fl kb c := (hb.kids (d, c) (by simp)).2.2
  have hsub : (between clo chi (entries kb c)).Sublist (entries kb c) := List.filter_sublist
  have hlt : ∀ x ∈ between clo chi (entries kb c), x.1 < 256 ^ kb :=
    fun x hx => hb.narrow (d, c) (by simp) x (hsub.subset hx)
  have hunder := @under_moved kb d _ pre hlt
  rw [sweepDigit]
  dsimp only
  rw [branchChild_cut (cells_branch _ ▸ ho) hedges hcap, ok_bind]
  dsimp only
  rw [cells_child] at ho
  obtain ⟨r, hr, hgone, hcount, ⟨C', hrep', ho'⟩, hp', hkept⟩ := hbelow hrc ho hchild hp
  rw [hr, ok_bind, hcount]
  rw [cells_rotate] at ho'
  by_cases hnil : between clo chi (entries kb c) = []
  · rw [hnil] at hrep' hgone ⊢
    rw [hkept hnil] at hrep'
    rw [List.length_nil, if_pos rfl]
    refine ⟨_, rfl, hgone, rfl, ⟨_, rep_branch.mpr ⟨h, _, _, rfl, hk₁.join hrep' hk₂, rfl⟩, ?_⟩, hp',
      fun _ => rfl⟩
    rw [cells_branch]
    exact ho'
  have hpos := List.length_pos_of_ne_nil hnil
  obtain ⟨hok, -⟩ := removeAll_spec hchild hb.one_le hlt
  have htake := removeAll_length hchild hb.one_le hlt hsub
  have hlen : ((fanout (256 ^ kb) (entries kb)
      (k₁ ++ (d, removeAll fl kb c (between clo chi (entries kb c))) :: k₂)).length : ℤ) =
      (fanout (256 ^ kb) (entries kb) (k₁ ++ (d, c) :: k₂)).length +
        -((between clo chi (entries kb c)).length : ℤ) := by
    rw [length_fanout_cut, length_fanout_cut]
    push_cast
    omega
  have htree := removeAll_digit hb hsub hnil
  generalize hc' : removeAll fl kb c (between clo chi (entries kb c)) = c' at *
  have sweeps : ∀ {e' a'}, (∃ C'', Rep fl (kb + 1) e' (settled form k₁ k₂ d c') C'' ∧ Owned a' (C'' + F)) →
      Plain a' →
      Sweeps fl (kb + 1) pre F (.branch form h) (branch form (k₁ ++ (d, c) :: k₂))
        ((between clo chi (entries kb c)).map (Direction.moved (256 ^ kb) d))
        ⟨r.gone, (between clo chi (entries kb c)).length, e', a'⟩ := by
    intro e' a' hst hp''
    rw [← htree] at hst
    exact ⟨hgone.trans hunder.symm, (List.length_map _).symm, hst, hp'',
      fun h => absurd (List.map_eq_nil_iff.mp h) hnil⟩
  rw [if_neg (by omega)]
  by_cases hnull : c' = null
  · rw [hnull] at hlen hrep'
    obtain ⟨hedge, rfl⟩ := rep_null.mp hrep'
    obtain ⟨a₁, ha₁, ho₁, hs₁⟩ := branchCommit_none ho' d (-((between clo chi (entries kb c)).length : ℤ))
    rw [fanout_drop entries_null] at hlen
    rw [branchCount, wrapCount_eq hlen, zero_add] at ho₁
    have hp₁ := hs₁.plain hp'
    rw [if_pos hedge, ha₁, ok_bind]
    rcases branchRemoveDigit_spec false ho₁ (hp₁.room 1 2) hedges hcap with
      ⟨hnil', a₂, ha₂, ho₂, hs₂⟩ | ⟨hne', h', a₂, ha₂, ho₂, hs₂⟩
    · obtain ⟨hkids, hC⟩ := RepKids.nil (hnil' ▸ hk₁.append hk₂)
      rw [hC, zero_add] at ho₂
      rw [ha₂, ok_bind]
      refine ⟨_, rfl, sweeps ⟨0, ?_, ho₂.shift⟩ (hs₂.plain hp₁)⟩
      rw [settled, if_pos (isNull_iff.mpr hnull), if_pos hkids]
      exact rep_null.mpr ⟨rfl, rfl⟩
    · have hjoin := hk₁.append hk₂
      have hkids : k₁ ++ k₂ ≠ [] := fun hkids =>
        hne' (List.length_eq_zero_iff.mp (by rw [hjoin.length, hkids]; rfl))
      rw [hjoin.length] at ha₂ ho₂
      rw [ha₂, ok_bind]
      refine ⟨_, rfl, sweeps ⟨(h', .node (branchNode (form.shrunk (k₁ ++ k₂).length) (kb + 1)
        (branchCount kb (k₁ ++ k₂))
        (es₁ ++ es₂))) ::ₘ (C₁ + C₂), ?_, ?_⟩ (hs₂.plain hp₁)⟩
      · rw [settled, if_pos (isNull_iff.mpr hnull), if_neg hkids]
        exact rep_branch.mpr ⟨h', _, _, rfl, hjoin, rfl⟩
      · rw [cells_branch]
        exact ho₂
  · have hlive := hrep'.live hok hnull
    have hsettled : settled form k₁ k₂ d c' = branch form (k₁ ++ (d, c') :: k₂) := if_neg (by simpa using hnull)
    rw [if_neg hlive]
    by_cases hsame : r.edge = ec
    · obtain ⟨a₁, ha₁, ho₁, hs₁⟩ := branchCommit_none ho' d (-((between clo chi (entries kb c)).length : ℤ))
      rw [branchCount, wrapCount_eq hlen] at ho₁
      rw [hsame] at hrep'
      rw [if_neg (by simpa using hsame), ha₁, ok_bind]
      refine ⟨_, rfl, sweeps ⟨_, hsettled ▸ rep_branch.mpr ⟨h, _, _, rfl, hk₁.join hrep' hk₂, rfl⟩, ?_⟩
        (hs₁.plain hp')⟩
      rw [cells_branch]
      exact ho₁
    · obtain ⟨a₁, ha₁, ho₁, hs₁⟩ := branchCommit_cut ho' hedges hcap hlive
        (-((between clo chi (entries kb c)).length : ℤ))
      rw [branchCount, wrapCount_eq hlen] at ho₁
      rw [if_pos hsame, ha₁, ok_bind]
      refine ⟨_, rfl, sweeps ⟨_, hsettled ▸ rep_branch.mpr ⟨h, _, _, rfl, hk₁.join hrep' hk₂, rfl⟩, ?_⟩
        (hs₁.plain hp')⟩
      rw [cells_branch]
      exact ho₁

theorem sweepDigit_absent {below : Arena → Edge32 → Except Fault Swept} (hd : d < 256) (ho : Owned a (C + F))
    (hrep : Rep fl (kb + 1) e (branch form kids) C) (hb : Fork fl kb form kids) (hnone : kids.lookup d = none) :
    sweepDigit below a e d = .ok ⟨[], 0, e, a⟩ := by
  rcases hb.sorted.cut_cases d with ⟨k₁, c, k₂, rfl, -⟩ | ⟨k₁, k₂, rfl, hcut⟩
  · rw [lookup_cut hb.sorted] at hnone
    cases hnone
  · obtain ⟨h, es, Ck, rfl, hk, rfl⟩ := rep_branch.mp hrep
    have hedges := hk.edges hb
    have hcap := hb.cap
    rw [← hk.length] at hcap
    obtain ⟨es₁, es₂, C₁, C₂, rfl, hk₁, hk₂, rfl⟩ := hk.split
    rw [cells_branch] at ho
    rw [sweepDigit]
    dsimp only
    rw [branchChild_absent ho hedges (hk₁.cutAt hk₂ hcut) hd hcap, ok_bind]
    rfl

/-- What is left of a branch that takes up `t` at digit `d`: nothing, or a branch with the other children. -/
theorem settled_cases (hb : Fork fl kb form (k₁ ++ (d, c) :: k₂)) (hok : Ok fl kb t) :
    settled form k₁ k₂ d t = null ∧ k₁ ++ k₂ = [] ∨
      ∃ form' kids', settled form k₁ k₂ d t = branch form' kids' ∧ Fork fl kb form' kids' ∧
        ∀ y, y ≠ d → kids'.lookup y = (k₁ ++ (d, c) :: k₂).lookup y := by
  by_cases hnull : t = null
  · rw [settled, if_pos (isNull_iff.mpr hnull)]
    by_cases hkids : k₁ ++ k₂ = []
    · exact .inl ⟨if_pos hkids, hkids⟩
    · refine .inr ⟨form.shrunk (k₁ ++ k₂).length, k₁ ++ k₂, if_neg hkids, hb.drop hkids, fun y hy => ?_⟩
      exact (lookup_append_cons_ne hy).symm
  · refine .inr ⟨form, k₁ ++ (d, t) :: k₂, if_neg (by simpa using hnull), hb.replace hnull hok, fun y hy => ?_⟩
    rw [lookup_append_cons_ne hy, lookup_append_cons_ne hy]

/-- The entries to remove below digit `d`, where `part` are those of a child. -/
def partAt (part : ℕ → Tree → List (ℕ × ℕ)) (B : ℕ) (kids : List (ℕ × Tree)) (d : ℕ) : List (ℕ × ℕ) :=
  ((kids.lookup d).elim [] (part d)).map (Direction.moved B d)

theorem partAt_congr {part : ℕ → Tree → List (ℕ × ℕ)} {B : ℕ} {kids' : List (ℕ × Tree)} {ds : List ℕ}
    (h : ∀ d ∈ ds, kids'.lookup d = kids.lookup d) :
      ds.flatMap (partAt part B kids') = ds.flatMap (partAt part B kids) :=
  List.flatMap_congr fun d hd => by rw [partAt, partAt, h d hd]

theorem partAt_nil {part : ℕ → Tree → List (ℕ × ℕ)} {B : ℕ} {ds : List ℕ} (h : ∀ d ∈ ds, kids.lookup d = none) :
    ds.flatMap (partAt part B kids) = [] :=
  List.flatMap_eq_nil_iff.mpr fun d hd => by rw [partAt, h d hd]; rfl

theorem Sweeps.append {r' : Swept} {ks' : List (ℕ × ℕ)} (h : Sweeps fl kb pre F e t ks r)
    (h' : Sweeps fl kb pre F r.edge (removeAll fl kb t ks) ks' r') :
    Sweeps fl kb pre F e t (ks ++ ks') ⟨r.gone ++ r'.gone, r.count + r'.count, r'.edge, r'.arena⟩ where
  gone := by rw [h.gone, h'.gone, under_append]
  count := by rw [h.count, h'.count, List.length_append]
  stored := by
    rw [removeAll_append]
    exact h'.stored
  plain := h'.plain
  kept hnil := by
    obtain ⟨h₁, h₂⟩ := List.append_eq_nil_iff.mp hnil
    exact (h'.kept h₂).trans (h.kept h₁)

theorem sweepDigits_spec {clo chi : ℕ → ℕ} {below : ℕ → Arena → Edge32 → Except Fault Swept} (ds : List ℕ)
    (hnd : ds.Nodup)
    (hbelow : ∀ d ∈ ds, SweepsBelow fl kb (pre ||| d * 2 ^ (8 * kb)) (clo d) (chi d) (below d))
    (hdig : ∀ d ∈ ds, d < 256) (ho : Owned a (C + F)) (hrep : Rep fl (kb + 1) e (branch form kids) C)
    (hb : Fork fl kb form kids) (hp : Plain a) :
    ∃ r, sweepDigits below ds a e = .ok r ∧ Sweeps fl (kb + 1) pre F e (branch form kids)
      (ds.flatMap (partAt (fun d c => between (clo d) (chi d) (entries kb c)) (256 ^ kb) kids)) r := by
  induction ds generalizing a e form kids C with
  | nil => exact ⟨_, rfl, sweeps_none ho hrep hp⟩
  | cons d ds ih =>
    obtain ⟨hnot, hnd⟩ := List.nodup_cons.mp hnd
    have hother : ∀ y ∈ ds, y ≠ d := fun y hy h => hnot (h ▸ hy)
    have hrest := fun {a e form kids C} => @ih a e form kids C hnd
      (fun y hy => hbelow y (List.mem_cons_of_mem d hy)) fun y hy => hdig y (List.mem_cons_of_mem d hy)
    have hlive : ∀ {form kids} {e : Edge32} {C}, Rep fl (kb + 1) e (branch form kids) C → e ≠ .null := by
      rintro form kids e C hrep rfl
      obtain ⟨h, es, Ck, he, -⟩ := rep_branch.mp hrep
      cases he
    rw [sweepDigits, List.flatMap_cons]
    cases hlk : kids.lookup d with
    | none =>
      obtain ⟨r, hr, hs⟩ := hrest ho hrep hb hp
      rw [sweepDigit_absent (hdig d List.mem_cons_self) ho hrep hb hlk, ok_bind]
      dsimp only
      rw [if_neg (hlive hrep), hr, ok_bind, partAt, hlk]
      exact ⟨_, rfl, by simpa using (sweeps_none ho hrep hp).append hs⟩
    | some c =>
      obtain ⟨k₁, k₂, rfl, -⟩ := exists_cut_of_mem hb.sorted ((lookup_eq_some_iff hb.sorted).mp hlk)
      obtain ⟨r, hr, hs⟩ := sweepDigit_cut (hbelow d List.mem_cons_self) ho hrep hb hp
      have hpart : partAt (fun d c => between (clo d) (chi d) (entries kb c)) (256 ^ kb) (k₁ ++ (d, c) :: k₂) d =
          (between (clo d) (chi d) (entries kb c)).map (Direction.moved (256 ^ kb) d) := by
        rw [partAt, hlk]
        rfl
      rw [hr, ok_bind, hpart]
      obtain ⟨C', hrep', ho'⟩ := hs.stored
      by_cases hnil : between (clo d) (chi d) (entries kb c) = []
      · rw [hnil, List.map_nil] at hs hrep'
        obtain ⟨r', hr', hs'⟩ := hrest ho' hrep' hb hs.plain
        rw [if_neg (hlive hrep'), hr', ok_bind, hnil, List.map_nil]
        exact ⟨_, rfl, hs.append hs'⟩
      have hchild : Ok fl kb c := (hb.kids (d, c) (by simp)).2.2
      have hsub : (between (clo d) (chi d) (entries kb c)).Sublist (entries kb c) := List.filter_sublist
      have htree := removeAll_digit hb hsub hnil
      obtain ⟨hok, -⟩ := removeAll_spec hchild hb.one_le fun x hx => hb.narrow (d, c) (by simp) x
        (hsub.subset hx)
      rw [htree] at hrep'
      rcases settled_cases hb hok with ⟨hnull, hkids⟩ | ⟨form', kids', hset, hb', hlookup⟩
      · rw [hnull] at hrep'
        have hgone : ds.flatMap (partAt (fun d c => between (clo d) (chi d) (entries kb c)) (256 ^ kb)
            (k₁ ++ (d, c) :: k₂)) = [] :=
          partAt_nil fun y hy => by rw [lookup_append_cons_ne (hother y hy), hkids]; rfl
        rw [if_pos (rep_null.mp hrep').1, hgone, List.append_nil]
        exact ⟨_, rfl, hs⟩
      · rw [hset] at hrep'
        obtain ⟨r', hr', hs'⟩ := hrest ho' hrep' hb' hs.plain
        rw [partAt_congr fun y hy => hlookup y (hother y hy), ← hset, ← htree] at hs'
        rw [if_neg (hlive hrep'), hr', ok_bind]
        exact ⟨_, rfl, hs.append hs'⟩

theorem flatMap_filter_of_nil {α β : Type} {p : α → Bool} {g : α → List β} {ys : List α}
    (h : ∀ y ∈ ys, p y = false → g y = []) :
    (ys.filter p).flatMap g = ys.flatMap g := by
  induction ys with
  | nil => rfl
  | cons y ys ih =>
    have hrest := ih fun z hz => h z (List.mem_cons_of_mem y hz)
    cases hy : p y with
    | true => rw [List.filter_cons_of_pos hy, List.flatMap_cons, List.flatMap_cons, hrest]
    | false =>
      rw [List.filter_cons_of_neg (by rw [hy]; exact Bool.false_ne_true), List.flatMap_cons,
        h y List.mem_cons_self hy, List.nil_append, hrest]

/-- A run of digits goes to the children there. -/
theorem flatMap_partAt {part : ℕ → Tree → List (ℕ × ℕ)} {B : ℕ} (hs : KeySorted kids) (s n : ℕ) :
    (List.range' s n).flatMap (partAt part B kids) =
      (kids.filter fun y => decide (s ≤ y.1 ∧ y.1 < s + n)).flatMap fun y => (part y.1 y.2).map
        (Direction.moved B y.1) := by
  induction n generalizing s with
  | zero =>
    have hnil : (kids.filter fun y => decide (s ≤ y.1 ∧ y.1 < s + 0)) = [] :=
      List.filter_eq_nil_iff.mpr fun y _ => by
      simp only [decide_eq_true_eq]
      omega
    rw [hnil]
    rfl
  | succ n ih =>
    have hsplit : (kids.filter fun y => decide (y.1 = s)) ++
        (kids.filter fun y => decide (s + 1 ≤ y.1 ∧ y.1 < s + 1 + n)) =
        kids.filter fun y => decide (s ≤ y.1 ∧ y.1 < s + (n + 1)) := by
      rw [filter_append_filter]
      · refine List.filter_congr fun y _ => ?_
        rw [← Bool.decide_or]
        exact decide_eq_decide.mpr (by omega)
      · refine List.Pairwise.imp (fun {x y} hlt h => ?_) hs
        have := of_decide_eq_true h
        exact decide_eq_false (by omega)
      · intro y _ h
        have := of_decide_eq_true h
        exact decide_eq_false (by omega)
    have hone : partAt part B kids s = (kids.filter fun y => decide (y.1 = s)).flatMap
        fun y => (part y.1 y.2).map (Direction.moved B y.1) := by
      rcases hs.cut_cases s with ⟨k₁, c, k₂, rfl, hcut⟩ | ⟨k₁, k₂, rfl, hcut⟩
      · have h₁ : (k₁.filter fun y => decide (y.1 = s)) = [] := List.filter_eq_nil_iff.mpr fun y hy => by
          simpa using (hcut.below y hy).ne
        have h₂ : (k₂.filter fun y => decide (y.1 = s)) = [] := List.filter_eq_nil_iff.mpr fun y hy => by
          simpa using (hcut.above y hy).ne'
        rw [partAt, lookup_cut hs, List.filter_append, List.filter_cons_of_pos (by simp), h₁, h₂]
        simp
      · have hnil : ((k₁ ++ k₂).filter fun y => decide (y.1 = s)) = [] :=
          List.filter_eq_nil_iff.mpr fun y hy => by
          rintro h
          obtain rfl := of_decide_eq_true h
          exact hcut.not_mem y.2 hy
        rw [partAt, lookup_eq_none hs hcut.not_mem, hnil]
        rfl
    rw [List.range'_succ, List.flatMap_cons, ih, hone, ← List.flatMap_append, hsplit]

theorem childRange_le (hB : kb ≤ 3) (hlo : lo < 256 ^ (kb + 1)) (hhi : hi < 256 ^ (kb + 1)) (hle : lo ≤ hi) :
    (childRange (kb + 1) lo hi d).1 ≤ (childRange (kb + 1) lo hi d).2 := by
  have hl := eq_digit_child hlo
  have hh := eq_digit_child hhi
  have hlr := childRem_lt lo kb
  rw [childRange, Nat.add_sub_cancel, remMask_eq (by omega)]
  dsimp only
  split_ifs with h₁ h₂ h₂
  · rw [h₁] at h₂
    rw [h₂] at hl
    omega
  · omega
  · omega
  · omega

theorem removeRange_sweeps (ho : Owned a (C + F)) (hrep : Rep fl kb e t C) (hok : Ok fl kb t)
    (hp : Plain a) (h1 : 1 ≤ kb)
    (h4 : kb ≤ 4) (hle : lo ≤ hi) (hhi : hi < 256 ^ kb) (hf : kb ≤ fuel) :
    ∃ r, removeRange fl fuel a e kb pre lo hi = .ok r ∧
      Sweeps fl kb pre F e t (between lo hi (entries kb t)) r := by
  induction kb generalizing fuel a C F e t pre lo hi with
  | zero => omega
  | succ kb ih =>
    obtain ⟨fuel, rfl⟩ : ∃ m, fuel = m + 1 := ⟨fuel - 1, by omega⟩
    rw [removeRange, if_neg (not_lt.mpr hle)]
    cases t with
    | null =>
      obtain ⟨rfl, rfl⟩ := rep_null.mp hrep
      rw [kind_null, entries_null]
      exact ⟨_, rfl, sweeps_none ho hrep hp⟩
    | immed l =>
      obtain ⟨rfl, rfl⟩ := rep_immed.mp hrep
      obtain ⟨hl, hone, hcap⟩ := ok_immed.mp hok
      rw [kind_immed hl hone hcap, entries_immed]
      exact ⟨_, rfl, sweepImmed_spec hok (zero_add F ▸ ho) hp⟩
    | leaf l =>
      obtain ⟨h, rfl, rfl⟩ := rep_leaf.mp hrep
      rw [cells_single] at ho
      rw [kind_leaf, entries_leaf]
      exact sweepLeaf_spec h4 ho hok hp hle hhi
    | bitmap l =>
      obtain ⟨h, rfl, rfl⟩ := rep_bitmap.mp hrep
      rw [cells_single] at ho
      rw [kind_bitmap, entries_bitmap]
      exact sweepBitmap_spec hok ho hp hle hhi
    | branch form kids =>
      have hb := (ok_branch.mp hok).1
      have hlo : lo < 256 ^ (kb + 1) := lt_of_le_of_lt hle hhi
      obtain ⟨h, es, Ck, rfl, -⟩ := rep_branch.mp hrep
      rw [kind_branch]
      dsimp only
      rw [Nat.add_sub_cancel]
      have hbelow : ∀ d, SweepsBelow fl kb (pre ||| d * 2 ^ (8 * kb)) (childRange (kb + 1) lo hi d).1
          (childRange (kb + 1) lo hi d).2 fun a c => removeRange fl fuel a c kb (pre ||| d * 2 ^ (8 * kb))
            (childRange (kb + 1) lo hi d).1 (childRange (kb + 1) lo hi d).2 := by
        intro d F C a e c hrep ho hok hp
        exact ih ho hrep hok hp hb.one_le (by omega) (childRange_le (by omega) hlo hhi hle)
          (childRange_lt (by omega)).2 (by omega)
      have hdigit := digit_lt' hi (kb + 1)
      have hfit : ∀ d ∈ List.range' (digitAt lo (kb + 1)) (digitAt hi (kb + 1) + 1 - digitAt lo (kb + 1)),
          d < 256 := by
        intro d hd
        have hmem := List.mem_range'_1.mp hd
        omega
      obtain ⟨r, hr, hs⟩ := sweepDigits_spec (List.range' (digitAt lo (kb + 1))
        (digitAt hi (kb + 1) + 1 - digitAt lo (kb + 1))) List.nodup_range' (fun d _ => hbelow d) hfit ho
        hrep hb hp
      refine ⟨r, hr, ?_⟩
      obtain ⟨g, hbetween, hin, hout⟩ := between_fanout hb (by omega) hlo hhi
      have hparts : (List.range' (digitAt lo (kb + 1)) (digitAt hi (kb + 1) + 1 - digitAt lo (kb + 1))).flatMap
          (partAt (fun d c => between (childRange (kb + 1) lo hi d).1 (childRange (kb + 1) lo hi d).2
            (entries kb c)) (256 ^ kb) kids) =
          between lo hi (entries (kb + 1) (branch form kids)) := by
        rw [flatMap_partAt hb.sorted, entries_branch, hbetween, ← flatMap_filter_of_nil (g := g)]
        · refine List.flatMap_congr fun y hy => ?_
          obtain ⟨hmem, hdec⟩ := List.mem_filter.mp hy
          have hd := of_decide_eq_true hdec
          exact (hin y hmem hd.1 (by omega)).symm
        · intro y hy hdec
          have hd := of_decide_eq_false hdec
          exact hout y hy (by omega)
      rw [← hparts]
      exact hs

namespace ExpanseMap32

variable {m : ExpanseMap32}

theorem removeRange_spec (h : Sound m t C) (hp : Plain m.alloc) (hhi : hi ≤ KEY_MAX) :
    ∃ m' C', m.removeRange lo hi =
        .ok ((between lo hi (entries KEY_BYTES t), (between lo hi (entries KEY_BYTES t)).length), m') ∧
      Sound m' (removeAll .map KEY_BYTES t (between lo hi (entries KEY_BYTES t))) C' ∧ Plain m'.alloc := by
  rw [removeRange]
  by_cases hlt : hi < lo
  · have hnil : between lo hi (entries KEY_BYTES t) = [] := List.filter_eq_nil_iff.mpr fun x _ => by
      simp only [decide_eq_true_eq]
      omega
    rw [if_pos hlt, hnil]
    exact ⟨m, C, rfl, h, hp⟩
  rw [if_neg hlt]
  obtain ⟨r, hr, hgone, hcount, ⟨C', hrep, ho⟩, hp', -⟩ :=
    @removeRange_sweeps .map KEY_BYTES FUEL lo hi 0 t m.root C 0 m.alloc
    h.alone h.rep h.ok hp (by decide) (by decide) (not_lt.mp hlt) (key_lt (Nat.lt_succ_of_le hhi)) (by decide)
  have hsub : (between lo hi (entries KEY_BYTES t)).Sublist (entries KEY_BYTES t) := List.filter_sublist
  have hlt : ∀ x ∈ between lo hi (entries KEY_BYTES t), x.1 < 256 ^ KEY_BYTES :=
    fun x hx => (h.ok.held.1.fit x (hsub.subset hx)).1
  obtain ⟨hok, -⟩ := removeAll_spec h.ok (by decide) hlt
  have hlen := removeAll_length h.ok (by decide) hlt hsub
  have hm := h.len
  rw [hr, ok_bind, hgone, hcount, if_neg (by omega), under_zero]
  rw [add_zero] at ho
  exact ⟨_, C', rfl, ⟨ho, hrep, hok, by dsimp only; omega,
    fun _ hvalid => absurd hvalid Bool.false_ne_true⟩, hp'⟩

end ExpanseMap32

namespace ExpanseSet32

variable {s : ExpanseSet32}

theorem removeRange_spec (h : Sound s t C) (hp : Plain s.alloc) (hhi : hi ≤ KEY_MAX) :
    ∃ s' C', s.removeRange lo hi =
        .ok (((between lo hi (entries KEY_BYTES t)).map Prod.fst,
          (between lo hi (entries KEY_BYTES t)).length), s') ∧
      Sound s' (removeAll .set KEY_BYTES t (between lo hi (entries KEY_BYTES t))) C' ∧ Plain s'.alloc := by
  rw [removeRange]
  by_cases hlt : hi < lo
  · have hnil : between lo hi (entries KEY_BYTES t) = [] := List.filter_eq_nil_iff.mpr fun x _ => by
      simp only [decide_eq_true_eq]
      omega
    rw [if_pos hlt, hnil]
    exact ⟨s, C, rfl, h, hp⟩
  rw [if_neg hlt]
  obtain ⟨r, hr, hgone, hcount, ⟨C', hrep, ho⟩, hp', -⟩ :=
    @removeRange_sweeps .set KEY_BYTES FUEL lo hi 0 t s.root C 0 s.alloc
    h.alone h.rep h.ok hp (by decide) (by decide) (not_lt.mp hlt) (key_lt (Nat.lt_succ_of_le hhi)) (by decide)
  have hsub : (between lo hi (entries KEY_BYTES t)).Sublist (entries KEY_BYTES t) := List.filter_sublist
  have hlt : ∀ x ∈ between lo hi (entries KEY_BYTES t), x.1 < 256 ^ KEY_BYTES :=
    fun x hx => (h.ok.held.1.fit x (hsub.subset hx)).1
  obtain ⟨hok, -⟩ := removeAll_spec h.ok (by decide) hlt
  have hlen := removeAll_length h.ok (by decide) hlt hsub
  have hs := h.len
  rw [hr, ok_bind, hgone, hcount, if_neg (by omega), under_zero]
  rw [add_zero] at ho
  exact ⟨_, C', rfl, ⟨ho, hrep, hok, by dsimp only; omega⟩, hp'⟩

end ExpanseSet32

end Expanse.Trie32
