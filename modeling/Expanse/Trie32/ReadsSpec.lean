import Expanse.Trie32.Reads
import Expanse.Trie32.Refine

/-!
# Ordered reads follow the entries

On a stored tree a read answers from the list of the entries: its ends, the entry next to a key, the
number of entries in a range.
-/

namespace Expanse.Trie32

open Bitmap Packed Radix SortedAssoc Trie32.Tree

variable {fl : Flavour} {dir : Direction} {kb k rem d fuel h n : ℕ} {l : List (ℕ × ℕ)} {form : Form}
  {kids : List (ℕ × Tree)} {t : Tree} {e : Edge32} {es : List (ℕ × Edge32)} {a : Arena} {buf : List ℕ} {vw : ℕ}

theorem remMask_eq (h : kb ≤ 4) : remMask kb = 256 ^ kb - 1 := by
  have hpow : (2 : ℕ) ^ (8 * kb) = 256 ^ kb := by rw [Nat.pow_mul]
  unfold remMask
  by_cases h4 : 4 ≤ kb
  · rw [if_pos h4, ← hpow, show kb = 4 by omega]
  · rw [if_neg h4, hpow]

theorem combine_eq {c : ℕ} (hc : c < 256 ^ kb) : combine d c (kb + 1) = d * 256 ^ kb + c := by
  have hpow : (2 : ℕ) ^ (8 * kb) = 256 ^ kb := by rw [Nat.pow_mul]
  rw [combine, Nat.add_sub_cancel, Nat.mul_comm d, ← Nat.two_pow_add_eq_or_of_lt (by rwa [hpow]), hpow,
    Nat.mul_comm d]

theorem lift_eq {x : ℕ × ℕ} (hx : x.1 < 256 ^ kb) : lift d (kb + 1) x = Direction.moved (256 ^ kb) d x := by
  rw [lift, Direction.moved, combine_eq hx]

theorem map_lift {o : Option (ℕ × ℕ)} (h : ∀ x ∈ o, x.1 < 256 ^ kb) :
    o.map (lift d (kb + 1)) = o.map (Direction.moved (256 ^ kb) d) := by
  cases o with
  | none => rfl
  | some x => exact congrArg some (lift_eq (h x rfl))

theorem dropHigh_eq {word s : ℕ} (hs : s ≤ 63) : dropHigh word s = word &&& maskTo (63 - s) := by
  apply Nat.eq_of_testBit_eq
  intro i
  rw [dropHigh, Nat.testBit_div_two_pow, Nat.testBit_mod_two_pow, Nat.testBit_mul_two_pow, Nat.testBit_and,
    testBit_maskTo (by omega), show i + s - s = i by omega, decide_eq_true (show s ≤ i + s by omega),
    Bool.true_and, Bool.and_comm]
  congr 1
  exact decide_eq_decide.mpr (by omega)

theorem bitmapFirstGe_eq {start : ℕ} (bits : ℕ) (h : start < 256) :
    bitmapFirstGe bits start = ((digits bits).filter (start ≤ ·)).head? := by
  rw [bitmapFirstGe, if_neg (by omega), scanUp_from h]

theorem bitmapLastLe_eq {last : ℕ} (bits : ℕ) (h : last < 256) :
    bitmapLastLe bits last = ((digits bits).filter (· ≤ last)).getLast? := by
  rw [bitmapLastLe, if_neg (by omega)]
  dsimp only
  rw [Int.toNat_natCast, Nat.min_eq_left (by omega), dropHigh_eq (by omega),
    show 63 - (63 - last % 64) = last % 64 by omega, scanDown_from h]

theorem bitmapEnd_eq (dir : Direction) (bits : ℕ) : bitmapEnd dir bits = (dir.order (digits bits)).head? := by
  cases dir with
  | forward =>
    rw [bitmapEnd, bitmapFirstGe_eq _ (by decide)]
    rw [List.filter_eq_self.mpr fun x _ => by simp]
    rfl
  | backward =>
    have hall : ∀ x ∈ digits bits, decide (x ≤ 255) = true := fun x hx => by
      have := (mem_digits.mp hx).1
      exact decide_eq_true (by omega)
    have hlast := @bitmapLastLe_eq 255 bits (by decide)
    rw [bitmapEnd]
    rw [show (255 : ℤ) = ((255 : ℕ) : ℤ) from rfl, hlast, List.filter_eq_self.mpr hall,
      List.getLast?_eq_head?_reverse]
    rfl

theorem bitmapBeyond_eq (dir : Direction) (bits : ℕ) (hk : k < 256) :
    bitmapBeyond dir k bits = (dir.order (digits bits)).find? (dir.past k) := by
  cases dir with
  | forward =>
    rw [bitmapBeyond]
    by_cases h : 255 ≤ k
    · rw [if_pos h]
      refine (List.find?_eq_none.mpr fun x hx => ?_).symm
      have := (mem_digits.mp hx).1
      simp only [Direction.past, decide_eq_true_eq]
      omega
    · rw [if_neg h, bitmapFirstGe_eq _ (by omega), List.head?_filter]
      rfl
  | backward =>
    rw [bitmapBeyond]
    by_cases h : k = 0
    · rw [if_pos h, h]
      refine (List.find?_eq_none.mpr fun x _ => ?_).symm
      simp [Direction.past]
    · rw [if_neg h, show (k : ℤ) - 1 = ((k - 1 : ℕ) : ℤ) by omega, bitmapLastLe_eq _ (by omega), getLast?_filter]
      refine List.find?_congr fun x _ => ?_
      exact decide_eq_decide.mpr (by omega)

theorem digits_bitmap (hl : Held fl 1 l) : digits (bitsOf (l.map Prod.fst)) = l.map Prod.fst :=
  digits_bitsOf (keySorted_iff.mp hl.sorted) fun x hx => by
    obtain ⟨e, he, rfl⟩ := List.mem_map.mp hx
    simpa using (hl.fit e he).1

theorem mapItem (hs : KeySorted l) {x : ℕ × ℕ} (hx : x ∈ l) (hd : x.1 < 256) :
    ∃ s, (mapBitmapOf l).subs.getD (x.1 / 32) none = some s ∧
      s[digitRank false (mapBitmapOf l).bits x.1]? = some x.2 := by
  have hget := mapBitmapGet_eq hs hd
  rw [lookup_of_mem hs hx, mapBitmapGet, testDigit_eq, show (mapBitmapOf l).bits.testBit x.1 = true by
    rw [mapBitmapOf, testBit_bitsOf, decide_eq_true (List.mem_map_of_mem (f := Prod.fst) hx)], if_pos rfl]
      at hget
  cases hsub : (mapBitmapOf l).subs.getD (x.1 / 32) none with
  | none =>
    rw [hsub] at hget
    cases hget
  | some s =>
    rw [hsub] at hget
    dsimp only at hget
    refine ⟨s, rfl, ?_⟩
    cases hv : s[digitRank false (mapBitmapOf l).bits x.1]? with
    | none =>
      rw [hv] at hget
      cases hget
    | some v =>
      rw [hv] at hget
      exact Except.ok.inj hget

theorem bitmapEntry_spec (scan : ℕ → Option ℕ) {o : Option (ℕ × ℕ)} (hn : a.node h = some (bitmapNode fl l))
    (hl : Held fl 1 l) (hscan : scan (bitsOf (l.map Prod.fst)) = o.map Prod.fst) (ho : ∀ x ∈ o, x ∈ l) :
    bitmapEntry fl a h scan = .ok o := by
  cases fl with
  | set =>
    have hb : a.bitmap h = .ok (setBitmapOf l) := by rw [Arena.bitmap, hn]; rfl
    rw [bitmapEntry]
    rw [hb, ok_bind, setBitmapOf, hscan, pure_eq_ok, Option.map_map]
    congr 1
    cases o with
    | none => rfl
    | some x => exact congrArg some (Prod.ext rfl (hl.zero x (ho x rfl)).symm)
  | map =>
    have hb : a.mapBitmap h = .ok (mapBitmapOf l) := by rw [Arena.mapBitmap, hn]; rfl
    rw [bitmapEntry]
    rw [hb, ok_bind, show (mapBitmapOf l).bits = bitsOf (l.map Prod.fst) from rfl, hscan]
    cases o with
    | none => rfl
    | some x =>
      obtain ⟨s, hs, hv⟩ := mapItem hl.sorted (ho x rfl) (by simpa using (hl.fit x (ho x rfl)).1)
      dsimp only [Option.map_some]
      rw [mapBitmapEntry, hs]
      dsimp only
      rw [hv]

theorem find?_keys (p : ℕ → Bool) (l : List (ℕ × ℕ)) :
    (dir.order (l.map Prod.fst)).find? p = ((dir.order l).find? fun e => p e.1).map Prod.fst := by
  rw [Direction.order_map, List.find?_map]
  rfl

theorem extreme_eq {keys : List ℕ} (hs : keys.Pairwise (· < ·)) : extreme dir keys = (dir.order keys).head? := by
  cases dir with
  | forward => exact List.min?_eq_head? (hs.imp fun h => Nat.min_eq_left h.le)
  | backward =>
    have hrev : keys.reverse.Pairwise fun x y => max x y = x :=
      (List.pairwise_reverse.mpr hs).imp fun h => Nat.max_eq_left h.le
    have hmax : keys.max? = keys.reverse.max? := by
      apply Option.ext
      intro x
      rw [List.max?_eq_some_iff, List.max?_eq_some_iff]
      simp only [List.mem_reverse]
    exact hmax.trans (List.max?_eq_head? hrev)

theorem Held.single_map (hl : l.length ≤ immedCap .map kb) : dir.order l = l := by
  have h1 : l.length ≤ 1 := le_trans hl (by unfold immedCap; dsimp only; split_ifs <;> omega)
  cases dir with
  | forward => rfl
  | backward =>
    cases l with
    | nil => rfl
    | cons x l =>
      have hnil : l = [] := List.eq_nil_of_length_eq_zero (by simpa using h1)
      rw [hnil]
      rfl

theorem map_zero {o : Option (ℕ × ℕ)} (hl : Held .set kb l) (ho : ∀ x ∈ o, x ∈ l) :
    (o.map Prod.fst).map (fun k => (k, 0)) = o := by
  cases o with
  | none => rfl
  | some x => exact congrArg some (Prod.ext rfl (hl.zero x (ho x rfl)).symm)

theorem immedEnd_eq (hl : Held fl kb l) (hcap : l.length ≤ immedCap fl kb) :
    immedEnd dir fl l = (dir.order l).head? := by
  cases fl with
  | set =>
    rw [immedEnd]
    rw [extreme_eq (keySorted_iff.mp hl.sorted), Direction.order_map, List.head?_map]
    exact map_zero hl fun x hx => dir.order_head_mem hx
  | map =>
    rw [Held.single_map hcap]
    rfl

theorem immedBeyond_eq (hl : Held fl kb l) (hcap : l.length ≤ immedCap fl kb) :
    immedBeyond dir fl k l = dir.beyond k l := by
  cases fl with
  | set =>
    have hsub : ((l.map Prod.fst).filter (dir.past k)).Pairwise (· < ·) :=
      (keySorted_iff.mp hl.sorted).sublist List.filter_sublist
    rw [immedBeyond]
    rw [extreme_eq hsub, Direction.order_filter, List.head?_filter, find?_keys]
    exact map_zero hl fun x hx => dir.beyond_mem hx
  | map =>
    have h1 : l.length ≤ 1 := le_trans hcap (by unfold immedCap; dsimp only; split_ifs <;> omega)
    rw [Direction.beyond, Held.single_map hcap]
    cases l with
    | nil => rfl
    | cons x l =>
      have hnil : l = [] := List.eq_nil_of_length_eq_zero (by simpa using h1)
      rw [hnil, immedBeyond, List.head?_cons, List.find?_cons, Option.filter]
      cases dir.past k x.1 <;> rfl

theorem leafEntry_eq (hb : LeafHolds vw kb l buf) {i : ℕ} {x : ℕ × ℕ} (hi : l[i]? = some x) :
    leafEntry vw kb l.length buf i = x := by
  obtain ⟨r, v⟩ := x
  rw [leafEntry, hb.readKey hi, hb.readVal hi]

theorem leafEnd_eq (l : List (ℕ × ℕ)) : l[leafEnd dir l.length]? = (dir.order l).head? := by
  cases dir with
  | forward => exact (List.head?_eq_getElem? (l := l)).symm
  | backward =>
    rw [leafEnd, ← List.getLast?_eq_getElem?, List.getLast?_eq_head?_reverse]
    rfl

theorem leafBeyond_eq (hb : LeafHolds vw kb l buf) (hl : KeySorted l) (hkb : kb ≤ 4)
    (hfit : ∀ e ∈ l, e.1 < 256 ^ kb) :
    (leafBeyond dir (keysOff vw l.length) kb buf l.length k).map (leafEntry vw kb l.length buf) =
      dir.beyond k l := by
  cases dir with
  | forward =>
    rw [leafBeyond, leafIndexAfter, remMask_eq hkb]
    by_cases hlast : 256 ^ kb - 1 ≤ k
    · rw [if_pos hlast]
      refine (Direction.forward.beyond_none fun e he => ?_).symm
      have := hfit e he
      exact decide_eq_false (by omega)
    · rw [if_neg hlast]
      dsimp only
      rw [leafLowerBound_eq hb hl, ← Direction.getElem?_lowerBound_succ hl]
      split_ifs with hlt
      · have hget := List.getElem?_eq_getElem hlt
        rw [Option.map_some, leafEntry_eq hb hget, hget]
      · exact (List.getElem?_eq_none (not_lt.mp hlt)).symm
  | backward =>
    have hle : lowerBound (l.map Prod.fst) k ≤ l.length := by
      rw [← List.length_map Prod.fst]
      exact lowerBound_le _ _
    rw [leafBeyond]
    rw [leafLowerBound_eq hb hl, ← Direction.getElem?_lowerBound_pred hl]
    split_ifs with h0
    · rfl
    · have hget := List.getElem?_eq_getElem (show lowerBound (l.map Prod.fst) k - 1 < l.length by omega)
      rw [Option.map_some, leafEntry_eq hb hget, hget]

section Branches

variable {level count cap i : ℕ} {x : ℕ × Edge32}

theorem linearItem_eq (hcap : es.length ≤ cap) (hi : es[i]? = some x) :
    linearItem (linearOf cap level count es) i = .ok x := by
  have hlt := (List.getElem?_eq_some_iff.mp hi).1
  rw [linearItem, linearOf, resize_eq (by rwa [List.length_map]), resize_eq (by rwa [List.length_map]),
    List.getElem?_append_left (by rwa [List.length_map]), List.getElem?_append_left (by rwa [List.length_map]),
    List.getElem?_map, List.getElem?_map, hi]
  rfl

theorem bitmapItem_eq (hk : Kids es) (hx : x ∈ es) : bitmapItem (bitmapBranchOf level count es) x.1 = .ok x := by
  obtain ⟨d, c⟩ := x
  obtain ⟨l₁, l₂, rfl, -⟩ := exists_cut_of_mem hk.sorted hx
  have hrank : digitRank false (bitmapBranchOf level count (l₁ ++ (d, c) :: l₂)).bits d =
      (row l₁ (d / 32)).length := by
    rw [digitRank_eq]
    exact rank_of_cut hk
  rw [bitmapItem, slot_eq hk.of_cut.2.2, hrank, subItem_packSub (getElem?_row_cut l₁ l₂ d c)]
  rfl

theorem digits_branch (hk : Kids es) : digits (bitmapBranchOf level count es).bits = es.map Prod.fst :=
  digits_bitsOf (keySorted_iff.mp hk.sorted) fun k hm => by
    obtain ⟨e, he, rfl⟩ := List.mem_map.mp hm
    exact hk.bound e he

/-- The live slots of a table, in digit order. -/
theorem flat_slots (hk : Kids es) : (List.range 256).filterMap (flatSlot (flatBranchOf level count es)) =
    es := by
  have h256 : es.length ≤ Form.u.cap := hk.sorted.length_le fun x hx => by
    obtain ⟨e, he, rfl⟩ := List.mem_map.mp hx
    exact hk.bound e he
  have hpairs : nodePairs (branchNode .u level count es) =
      .ok ((List.range 256).filterMap (flatSlot (flatBranchOf level count es))) := rfl
  rw [nodePairs_eq hk h256] at hpairs
  exact (Except.ok.inj hpairs).symm

theorem scanEnd_eq (dir : Direction) (bits : ℕ) : scanEnd dir bits = (dir.order (digits bits)).head? := by
  cases dir with
  | forward => exact scanUp_start
  | backward => exact scanDown_start.trans List.getLast?_eq_head?_reverse

theorem nodeEnd_eq (dir : Direction) (hk : Kids es) (hcap : es.length ≤ form.cap) :
    nodeEnd dir (branchNode form level count es) = .ok (dir.order es).head? := by
  have hlinear : ∀ cap, es.length ≤ cap → (if 0 < (linearOf cap level count es).numEdges then
      (linearItem (linearOf cap level count es) (leafEnd dir (linearOf cap level count es).numEdges)).map some
      else .ok none) = .ok (dir.order es).head? := by
    intro cap hcap
    show (if 0 < es.length then _ else _) = _
    cases hh : (dir.order es).head? with
    | none =>
      have hnil := dir.order_eq_nil.mp (List.head?_eq_none_iff.mp hh)
      rw [hnil]
      rfl
    | some x =>
      have hm := dir.order_head_mem hh
      have hget : es[leafEnd dir es.length]? = some x := by
        rw [← hh]
        cases dir with
        | forward => exact (List.head?_eq_getElem? (l := es)).symm
        | backward =>
          rw [leafEnd, ← List.getLast?_eq_getElem?, List.getLast?_eq_head?_reverse]
          rfl
      rw [if_pos (List.length_pos_of_mem hm), show (linearOf cap level count es).numEdges = es.length from rfl,
        linearItem_eq hcap hget]
      rfl
  cases form with
  | l2 => exact hlinear _ hcap
  | l6 => exact hlinear _ hcap
  | b =>
    have hscan : scanEnd dir (bitmapBranchOf level count es).bits = (dir.order es).head?.map Prod.fst := by
      rw [scanEnd_eq, digits_branch hk, Direction.order_map, List.head?_map]
    rw [branchNode, nodeEnd, hscan]
    cases hh : (dir.order es).head? with
    | none => rfl
    | some x =>
      dsimp only [Option.map_some]
      rw [bitmapItem_eq hk (dir.order_head_mem hh)]
      rfl
  | u =>
    rw [branchNode, nodeEnd, flatItem, ← List.head?_filterMap]
    congr 2
    cases dir with
    | forward => exact flat_slots hk
    | backward =>
      exact List.filterMap_reverse.trans (congrArg List.reverse (flat_slots hk))

theorem mapM_items {β γ : Type} {g : β → Except Fault γ} {f : γ → β} {l : List γ}
    (h : ∀ x ∈ l, g (f x) = .ok x) :
    (l.map f).mapM g = .ok l := by
  induction l with
  | nil => rfl
  | cons x l ih =>
    rw [List.map_cons, List.mapM_cons, h x List.mem_cons_self, ok_bind,
      ih fun y hy => h y (List.mem_cons_of_mem x hy), ok_bind, pure_eq_ok]

theorem nodeChildrenIn_eq (dir : Direction) (hk : Kids es) (hcap : es.length ≤ form.cap) :
    nodeChildrenIn dir (branchNode form level count es) = .ok (dir.order es) := by
  cases dir with
  | forward => exact nodePairs_eq hk hcap
  | backward =>
    cases form with
    | l2 => exact congrArg (fun es => Except.ok es.reverse) (linearPairs_eq hcap)
    | l6 => exact congrArg (fun es => Except.ok es.reverse) (linearPairs_eq hcap)
    | b =>
      rw [branchNode, nodeChildrenIn, digits_branch hk, ← List.map_reverse]
      exact mapM_items fun x hx => bitmapItem_eq hk (List.mem_reverse.mp hx)
    | u =>
      exact congrArg Except.ok (List.filterMap_reverse.trans (congrArg List.reverse (flat_slots hk)))

end Branches

/-- A search among children whose answers are known. -/
theorem firstHit_eq {β : Type} {R : ℕ × Edge32 → β → Prop} {ys : List β}
    {visit : ℕ × Edge32 → Except Fault (Option (ℕ × ℕ))}
    {g : β → Option (ℕ × ℕ)} (h : List.Forall₂ R es ys) (hvisit : ∀ x y, R x y → y ∈ ys → visit x = .ok (g y)) :
    firstHit visit es = .ok (ys.findSome? g) := by
  induction h with
  | nil => rfl
  | @cons x y es ys hxy _ ih =>
    rw [firstHit, hvisit x y hxy List.mem_cons_self, ok_bind, List.findSome?_cons]
    cases g y with
    | none => exact ih fun x y h hy => hvisit x y h (List.mem_cons_of_mem _ hy)
    | some z => rfl

theorem forall₂_order {β : Type} {R : ℕ × Edge32 → β → Prop} {ys : List β} (dir : Direction)
    (h : List.Forall₂ R es ys) :
    List.Forall₂ R (dir.order es) (dir.order ys) := by
  cases dir with
  | forward => exact h
  | backward => exact List.forall₂_reverse_iff.mpr h

theorem forall₂_head {β : Type} {R : ℕ × Edge32 → β → Prop} {ys : List β} (h : List.Forall₂ R es ys) :
    es = [] ∧ ys = [] ∨ ∃ x y, es.head? = some x ∧ ys.head? = some y ∧ R x y := by
  cases h with
  | nil => exact .inl ⟨rfl, rfl⟩
  | cons h _ => exact .inr ⟨_, _, rfl, rfl, h⟩

theorem endEntry_eq (dir : Direction) (h : Stored a fl kb e t) (hf : kb < fuel) :
    endEntry dir fl a fuel e kb = .ok (dir.order (entries kb t)).head? := by
  induction fuel generalizing kb e t with
  | zero => omega
  | succ fuel ih =>
    cases t with
    | null =>
      rw [h.null, endEntry, kind_null, entries_null, Direction.order_nil]
      rfl
    | immed l =>
      obtain ⟨hkind, hl, -, hcap⟩ := h.immed
      rw [endEntry, hkind, entries_immed]
      dsimp only
      rw [immedEnd_eq hl hcap]
    | leaf l =>
      obtain ⟨hd, buf, rfl, hn, hb, hl, hne⟩ := h.leaf
      have hget : l[leafEnd dir l.length]? = (dir.order l).head? := leafEnd_eq l
      rw [endEntry, kind_leaf, entries_leaf]
      dsimp only
      rw [if_neg (by simpa using hne), leaf_eq hn hb.fits, ok_bind, pure_eq_ok]
      cases hh : (dir.order l).head? with
      | none => exact absurd (dir.order_eq_nil.mp (List.head?_eq_none_iff.mp hh)) hne
      | some x => rw [leafEntry_eq hb (hget.trans hh)]
    | bitmap l =>
      obtain ⟨hd, rfl, hn, -, hl⟩ := h.bitmap
      rw [endEntry, kind_bitmap, entries_bitmap]
      refine bitmapEntry_spec (bitmapEnd dir) hn hl ?_ fun x hx => dir.order_head_mem hx
      rw [bitmapEnd_eq, digits_bitmap hl, Direction.order_map, List.head?_map]
    | branch form kids =>
      obtain ⟨m, hd, es, rfl, rfl, hn, hedges, hcap, hb, hne, hkids⟩ := h.branch
      have hlive : ∀ c ∈ kids, entries m c.2 ≠ [] := fun c hc => (hb.kids c hc).2.2.held.2 (hb.kids c hc).2.1
      rw [endEntry, kind_branch, entries_branch, Direction.head?_fanout dir hlive]
      dsimp only
      rw [hn, ok_bind, nodeEnd_eq dir hedges hcap, ok_bind]
      rcases forall₂_head (forall₂_order dir hkids) with ⟨hes, -⟩ | ⟨x, y, hx, hy, hxy⟩
      · have hnil := hkids.length_eq
        rw [dir.order_eq_nil.mp hes] at hnil
        exact absurd (List.eq_nil_of_length_eq_zero hnil.symm) hne
      · obtain ⟨d, c⟩ := x
        have hmem := dir.order_head_mem hy
        rw [hx, hy, Option.bind_some]
        dsimp only
        rw [Nat.add_sub_cancel, ih hxy.2 (by omega), ok_bind, pure_eq_ok, show d = y.1 from hxy.1, map_lift]
        intro z hz
        exact hb.narrow y hmem z (dir.order_head_mem hz)

theorem beyondEntry_eq (dir : Direction) (h : Stored a fl kb e t) (h1 : 1 ≤ kb) (h4 : kb ≤ 4) (hk : k < 256 ^ kb)
    (hf : kb < fuel) : beyondEntry dir fl a fuel e kb k = .ok (dir.beyond k (entries kb t)) := by
  induction fuel generalizing kb e t k with
  | zero => omega
  | succ fuel ih =>
    cases t with
    | null =>
      rw [h.null, beyondEntry, kind_null, entries_null, Direction.beyond, Direction.order_nil]
      rfl
    | immed l =>
      obtain ⟨hkind, hl, -, hcap⟩ := h.immed
      rw [beyondEntry, hkind, entries_immed]
      dsimp only
      rw [immedBeyond_eq hl hcap]
    | leaf l =>
      obtain ⟨hd, buf, rfl, hn, hb, hl, -⟩ := h.leaf
      rw [beyondEntry, kind_leaf, entries_leaf]
      dsimp only
      rw [leaf_eq hn hb.fits, ok_bind, pure_eq_ok, leafBeyond_eq hb hl.sorted h4 fun e he => (hl.fit e he).1]
    | bitmap l =>
      obtain ⟨hd, rfl, hn, rfl, hl⟩ := h.bitmap
      rw [beyondEntry, kind_bitmap, entries_bitmap]
      refine bitmapEntry_spec (bitmapBeyond dir k) hn hl ?_ fun x hx => dir.beyond_mem hx
      rw [bitmapBeyond_eq dir _ (by simpa using hk), digits_bitmap hl, find?_keys]
      rfl
    | branch form kids =>
      obtain ⟨m, hd, es, rfl, rfl, hn, hedges, hcap, hb, hne, hkids⟩ := h.branch
      have hcr := childRem_lt k m
      rw [beyondEntry, kind_branch, entries_branch]
      dsimp only
      rw [hn, ok_bind, nodeChildrenIn_eq dir hedges hcap, ok_bind]
      conv_rhs => rw [eq_digit_child hk, Direction.beyond_fanout dir hb.narrow hcr]
      refine firstHit_eq (forall₂_order dir hkids) fun x y hxy hy => ?_
      have hmem := dir.mem_order.mp hy
      obtain ⟨hdig, hst⟩ := hxy
      rw [hdig, Nat.add_sub_cancel]
      split_ifs with hpast heq
      · rfl
      · rw [ih hst hb.one_le (by omega) hcr (by omega), ok_bind, pure_eq_ok, map_lift]
        exact fun z hz => hb.narrow y hmem z (dir.beyond_mem hz)
      · rw [endEntry_eq dir hst (by omega), ok_bind, pure_eq_ok, map_lift]
        exact fun z hz => hb.narrow y hmem z (dir.order_head_mem hz)

section Ranges

variable {lo hi : ℕ}

/-- A slot has no more entries than keys. -/
theorem Held.length_le (hl : Held fl kb l) : l.length ≤ 256 ^ kb :=
  hl.sorted.length_le fun x hx => by
    obtain ⟨e, he, rfl⟩ := List.mem_map.mp hx
    exact (hl.fit e he).1

/-- Below the root a branch counts its keys without wrapping around. -/
theorem subtreeCount_eq (h : Stored a fl kb e t) (h3 : kb ≤ 3) :
    subtreeCount fl a e = .ok (entries kb t).length := by
  cases t with
  | null =>
    rw [h.null, subtreeCount, kind_null, entries_null]
    rfl
  | immed l =>
    rw [subtreeCount, h.immed.1, entries_immed]
  | leaf l =>
    obtain ⟨hd, buf, rfl, -⟩ := h.leaf
    rw [subtreeCount, kind_leaf, entries_leaf]
  | bitmap l =>
    obtain ⟨hd, rfl, hn, -⟩ := h.bitmap
    have hmin := (ok_bitmap.mp h.ok).2.2
    rw [subtreeCount, kind_bitmap, entries_bitmap]
    cases fl with
    | set =>
      have hb : a.bitmap hd = .ok (setBitmapOf l) := by rw [Arena.bitmap, hn]; rfl
      dsimp only
      rw [hb]
      rfl
    | map =>
      have hb : a.mapBitmap hd = .ok (mapBitmapOf l) := by rw [Arena.mapBitmap, hn]; rfl
      dsimp only
      rw [hb, ok_bind, pure_eq_ok, mapBitmapOf_pop0, Nat.sub_add_cancel (Nat.one_le_of_lt hmin)]
  | branch form kids =>
    obtain ⟨m, hd, es, rfl, rfl, hn, -⟩ := h.branch
    have hlen := h.ok.held.1.length_le
    have hpow : 256 ^ (m + 1) ≤ 256 ^ 3 := Nat.pow_le_pow_right (by decide) h3
    have hmod : 256 ^ 3 < COUNT_MOD := by decide
    rw [subtreeCount, kind_branch]
    dsimp only
    rw [hn, ok_bind, pure_eq_ok, nodeCount_branchNode, branchCount,
      show fanout (256 ^ m) (entries m) kids = entries (m + 1) (branch form kids) from rfl,
      Nat.mod_eq_of_lt (by omega)]

theorem childRange_iff {y : ℕ} (hlo : lo < 256 ^ (kb + 1)) (hhi : hi < 256 ^ (kb + 1)) (h4 : kb ≤ 3)
    (hy : y < 256 ^ kb) (h1 : digitAt lo (kb + 1) ≤ d) (h2 : d ≤ digitAt hi (kb + 1)) :
    (lo ≤ d * 256 ^ kb + y ∧ d * 256 ^ kb + y ≤ hi) ↔
      (childRange (kb + 1) lo hi d).1 ≤ y ∧ y ≤ (childRange (kb + 1) lo hi d).2 := by
  have hl := eq_digit_child hlo
  have hh := eq_digit_child hhi
  have hlr := childRem_lt lo kb
  have hhr := childRem_lt hi kb
  have hmul : ∀ {a b : ℕ}, a < b → a * 256 ^ kb + 256 ^ kb ≤ b * 256 ^ kb := by
    intro a b hab
    calc a * 256 ^ kb + 256 ^ kb = (a + 1) * 256 ^ kb := (Nat.succ_mul a _).symm
      _ ≤ b * 256 ^ kb := Nat.mul_le_mul_right _ hab
  have hlow : lo ≤ d * 256 ^ kb + y ↔ (childRange (kb + 1) lo hi d).1 ≤ y := by
    rw [childRange]
    dsimp only
    split_ifs with heq
    · rw [heq]
      omega
    · have := hmul (lt_of_le_of_ne h1 (Ne.symm heq))
      exact ⟨fun _ => Nat.zero_le y, fun _ => by omega⟩
  have hhigh : d * 256 ^ kb + y ≤ hi ↔ y ≤ (childRange (kb + 1) lo hi d).2 := by
    rw [childRange]
    dsimp only
    split_ifs with heq
    · rw [heq]
      omega
    · have := hmul (lt_of_le_of_ne h2 heq)
      rw [Nat.add_sub_cancel, remMask_eq (by omega)]
      exact ⟨fun _ => by omega, fun _ => by omega⟩
  rw [hlow, hhigh]

theorem childRange_lt (hB : kb ≤ 3) : (childRange (kb + 1) lo hi d).1 < 256 ^ kb ∧
    (childRange (kb + 1) lo hi d).2 < 256 ^ kb := by
  have hlr := childRem_lt lo kb
  have hhr := childRem_lt hi kb
  have hpos : 0 < 256 ^ kb := pow_pos' kb
  rw [childRange, Nat.add_sub_cancel, remMask_eq (by omega)]
  dsimp only
  constructor <;> split_ifs <;> omega

theorem sumChildren_eq {dlo dhi : ℕ} {R : ℕ × Edge32 → ℕ × Tree → Prop} {visit : ℕ × Edge32 → Except Fault ℕ}
    {g : ℕ × Tree → ℕ} (h : List.Forall₂ R es kids) (hs : KeySorted kids) (hdig : ∀ x y, R x y → x.1 = y.1)
    (hvisit : ∀ x y, R x y → y ∈ kids → dlo ≤ y.1 → y.1 ≤ dhi → visit x = .ok (g y))
    (hout : ∀ y ∈ kids, y.1 < dlo ∨ dhi < y.1 → g y = 0) :
    sumChildren visit dlo dhi es = .ok (kids.map g).sum := by
  induction h with
  | nil => rfl
  | @cons x y es ys hxy _ ih =>
    obtain ⟨hhead, htail⟩ := List.pairwise_cons.mp hs
    have hrest := ih htail (fun x z h hz => hvisit x z h (List.mem_cons_of_mem y hz))
      fun z hz => hout z (List.mem_cons_of_mem y hz)
    rw [sumChildren, hdig x y hxy, List.map_cons, List.sum_cons]
    split_ifs with hlow hhigh
    · rw [hrest, hout y List.mem_cons_self (.inl hlow), Nat.zero_add]
    · have hzero : ∀ z ∈ y :: ys, g z = 0 := by
        intro z hz
        refine hout z hz (.inr ?_)
        rcases List.mem_cons.mp hz with rfl | hz
        · exact hhigh
        · exact lt_trans hhigh (hhead z hz)
      rw [hzero y List.mem_cons_self, List.map_congr_left fun z hz => hzero z (List.mem_cons_of_mem y hz)]
      simp
    · rw [hvisit x y hxy List.mem_cons_self (not_lt.mp hlow) (not_lt.mp hhigh), ok_bind, hrest, ok_bind,
        pure_eq_ok]

theorem countRangeIn_eq (h : Stored a fl kb e t) (h1 : 1 ≤ kb) (h4 : kb ≤ 4) (hlo : lo < 256 ^ kb)
    (hhi : hi < 256 ^ kb) (hf : kb < fuel) : countRangeIn fl a fuel e kb lo hi =
      .ok ((entries kb t).countP fun x => decide (lo ≤ x.1 ∧ x.1 ≤ hi)) := by
  induction fuel generalizing kb e t lo hi with
  | zero => omega
  | succ fuel ih =>
    rw [countRangeIn]
    by_cases hempty : hi < lo
    · rw [if_pos hempty, List.countP_eq_zero.mpr]
      intro x _
      simp only [decide_eq_true_eq]
      omega
    rw [if_neg hempty]
    cases t with
    | null =>
      rw [h.null, kind_null, entries_null]
      rfl
    | immed l =>
      rw [h.immed.1, entries_immed]
      dsimp only
      rw [List.countP_map]
      rfl
    | leaf l =>
      obtain ⟨hd, buf, rfl, hn, hb, hl, -⟩ := h.leaf
      rw [kind_leaf, entries_leaf]
      dsimp only
      rw [leaf_eq hn hb.fits, ok_bind, pure_eq_ok, show (List.range l.length).map
        (readRem (keysOff (valueWidth fl) l.length) kb buf) = l.map Prod.fst from hb.keys, List.countP_map]
      rfl
    | bitmap l =>
      obtain ⟨hd, rfl, hn, rfl, hl⟩ := h.bitmap
      have hcount : bitmapCountRange (bitsOf (l.map Prod.fst)) lo hi =
          l.countP fun x => decide (lo ≤ x.1 ∧ x.1 ≤ hi) := by
        rw [bitmapCountRange, Nat.min_eq_left (by omega), Nat.min_eq_left (by omega), if_neg hempty,
          countRange_eq, digits_bitmap hl, List.countP_map]
        rfl
      rw [kind_bitmap, entries_bitmap]
      cases fl with
      | set =>
        have hb : a.bitmap hd = .ok (setBitmapOf l) := by rw [Arena.bitmap, hn]; rfl
        dsimp only
        rw [hb, ok_bind, pure_eq_ok, ← hcount]
        rfl
      | map =>
        have hb : a.mapBitmap hd = .ok (mapBitmapOf l) := by rw [Arena.mapBitmap, hn]; rfl
        dsimp only
        rw [hb, ok_bind, pure_eq_ok, ← hcount]
        rfl
    | branch form kids =>
      obtain ⟨m, hd, es, rfl, rfl, hn, hedges, hcap, hb, -, hkids⟩ := h.branch
      have hl := eq_digit_child hlo
      have hh := eq_digit_child hhi
      have hlr := childRem_lt lo m
      have hhr := childRem_lt hi m
      have hmul : ∀ {a b : ℕ}, a < b → a * 256 ^ m + 256 ^ m ≤ b * 256 ^ m := by
        intro a b hab
        calc a * 256 ^ m + 256 ^ m = (a + 1) * 256 ^ m := (Nat.succ_mul a _).symm
          _ ≤ b * 256 ^ m := Nat.mul_le_mul_right _ hab
      rw [kind_branch, entries_branch, Direction.countP_fanout fun k => decide (lo ≤ k ∧ k ≤ hi)]
      dsimp only
      rw [hn, ok_bind, nodePairs_eq hedges hcap, ok_bind]
      refine sumChildren_eq hkids hb.sorted (fun x y hxy => hxy.1) ?_ ?_
      · intro x y hxy hy hdlo hdhi
        obtain ⟨hdig, hst⟩ := hxy
        have hiff := fun e (he : e ∈ entries m y.2) =>
          childRange_iff (d := y.1) hlo hhi (by omega) (hb.narrow y hy e he) hdlo hdhi
        rw [hdig, Nat.add_sub_cancel]
        split_ifs with hend
        · obtain ⟨hc1, hc2⟩ := @childRange_lt m y.1 lo hi (by omega)
          rw [ih hst hb.one_le (by omega) hc1 hc2 (by omega)]
          congr 1
          refine List.countP_congr fun e he => ?_
          rw [decide_eq_true_eq, decide_eq_true_eq, hiff e he]
        · rw [subtreeCount_eq hst (by omega)]
          congr 1
          refine (List.countP_eq_length.mpr fun e he => ?_).symm
          have he' := hb.narrow y hy e he
          have hne1 : digitAt lo (m + 1) < y.1 := by omega
          have hne2 : y.1 < digitAt hi (m + 1) := by omega
          have := hmul hne1
          have := hmul hne2
          exact decide_eq_true (by omega)
      · intro y hy hout
        refine List.countP_eq_zero.mpr fun e he => ?_
        have he' := hb.narrow y hy e he
        rw [decide_eq_true_eq]
        rcases hout with hout | hout
        · have := hmul hout
          omega
        · have := hmul hout
          omega

end Ranges

end Expanse.Trie32
