import Expanse.Trie32.Range

/-!
# Visiting a range of a map

`map_for_each_range` hands the entries of a range to a visitor, one subtree after another, until
the visitor says to stop. Inside a bitmap leaf the rank of an entry runs on from the one before.
-/

namespace Expanse.Trie32

open Bitmap Packed SortedAssoc Trie32.Tree Runs

variable {σ : Type}

def visitDigits (b : MapBitmap) (visit : σ → ℕ × ℕ → Bool × σ) : ℕ → ℕ → List ℕ → σ → Except Fault (Bool × σ)
  | _, _, [], s => .ok (true, s)
  | sub, rank, d :: ds, s =>
    let rank := if d / 32 = sub then rank + 1 else digitRank false b.bits d
    if rank ≠ digitRank false b.bits d then .error .assertion
    else
      match b.subs.getD (d / 32) none with
      | none => .ok (true, s)
      | some values =>
        match values[rank]? with
        | none => .error .outOfBounds
        | some v =>
          match visit s (d, v) with
          | (true, s) => visitDigits b visit (d / 32) rank ds s
          | (false, s) => .ok (false, s)

/-- Visit children from digit `dlo` to digit `dhi`. -/
def visitChildren (walk : ℕ × Edge32 → σ → Except Fault (Bool × σ)) (dlo dhi : ℕ) :
    List (ℕ × Edge32) → σ → Except Fault (Bool × σ)
  | [], s => .ok (true, s)
  | c :: cs, s =>
    if c.1 < dlo then visitChildren walk dlo dhi cs s
    else if dhi < c.1 then .ok (true, s)
    else do
      match ← walk c s with
      | (true, s) => visitChildren walk dlo dhi cs s
      | (false, s) => pure (false, s)

/-- `map_for_each_range`. -/
def mapForEachRange (a : Arena) : ℕ → Edge32 → ℕ → ℕ → ℕ → (σ → ℕ × ℕ → Bool × σ) → σ → Except Fault (Bool × σ)
  | 0, _, _, _, _, _, _ => .error .outOfFuel
  | fuel + 1, e, kb, lo, hi, visit, s =>
    if hi < lo then .ok (true, s)
    else
      match kind .map e with
      | .null => .ok (true, s)
      | .immed l =>
        match l with
        | (r, v) :: _ => .ok (if lo ≤ r ∧ r ≤ hi then visit s (r, v) else (true, s))
        | [] => .ok (true, s)
      | .leaf h pop => do
        let buf ← a.leaf h (keysOff (valueWidth .map) pop + pop * kb)
        let i0 := leafLowerBound (keysOff (valueWidth .map) pop) kb buf pop lo
        let i1 := if remMask kb ≤ hi then pop else leafLowerBound
          (keysOff (valueWidth .map) pop) kb buf pop (hi + 1)
        pure (visitAll visit s ((List.range' i0 (i1 - i0)).map (leafEntry (valueWidth .map) kb pop buf)))
      | .bitmap h =>
        if 255 < lo then .ok (true, s)
        else do
          let b ← a.mapBitmap h
          visitDigits b visit SUB_NONE 0 (rangeBits b.bits lo (min hi 255)) s
      | .branch form h => do
        let n ← a.branch form h
        let es ← nodePairs n
        visitChildren (fun c s =>
          mapForEachRange a fuel c.2 (kb - 1) (childRange kb lo hi c.1).1 (childRange kb lo hi c.1).2
            (fun s x => visit s (lift c.1 kb x)) s) (digitAt lo kb) (digitAt hi kb) es s
      | .foreign => .ok (true, s)

/-- `try_for_each_range`. -/
def ExpanseMap32.tryForEachRange (m : ExpanseMap32) (lo hi : ℕ) (visit : σ → ℕ × ℕ → Bool × σ) (s : σ) :
    Except Fault (Bool × σ) :=
  if hi < lo then .ok (true, s) else mapForEachRange m.alloc FUEL m.root KEY_BYTES lo hi visit s

variable {a : Arena} {e : Edge32} {t : Tree} {kb fuel lo hi sub rank : ℕ} {l₁ l₂ l₃ : List (ℕ × ℕ)}

theorem visitDigits_eq (visit : σ → ℕ × ℕ → Bool × σ) (s : σ) (hl : Held .map 1 (l₁ ++ l₂ ++ l₃))
    (hrank : sub = SUB_NONE ∨ ∃ l₀ x, l₁ = l₀ ++ [x] ∧ sub = x.1 / 32 ∧
      rank = subexpanseRank (bitsOf ((l₁ ++ l₂ ++ l₃).map Prod.fst)) x.1) :
    visitDigits (mapBitmapOf (l₁ ++ l₂ ++ l₃)) visit sub rank (l₂.map Prod.fst) s =
      .ok (visitAll visit s l₂) := by
  induction l₂ generalizing l₁ sub rank s with
  | nil => rfl
  | cons y l₂ ih =>
    have h256 : y.1 < 256 := by simpa using (hl.fit y (by simp)).1
    have hrank' : digitRank false (mapBitmapOf (l₁ ++ y :: l₂ ++ l₃)).bits y.1 =
        subexpanseRank (bitsOf ((l₁ ++ y :: l₂ ++ l₃).map Prod.fst)) y.1 := digitRank_eq false _ _
    have hkeep : (if y.1 / 32 = sub then rank + 1 else digitRank false
        (mapBitmapOf (l₁ ++ y :: l₂ ++ l₃)).bits y.1) =
        digitRank false (mapBitmapOf (l₁ ++ y :: l₂ ++ l₃)).bits y.1 := by
      rcases hrank with rfl | ⟨l₀, x, rfl, rfl, rfl⟩
      · rw [if_neg (by unfold SUB_NONE; omega)]
      · split_ifs with hsub
        · rw [hrank', List.append_assoc (l₀ ++ [x]), List.cons_append]
          have hs := hl.sorted
          rw [List.append_assoc (l₀ ++ [x]), List.cons_append] at hs
          exact (rank_succ hs hsub).symm
        · rfl
    obtain ⟨values, hvalues, hv⟩ := mapItem hl.sorted (show y ∈ l₁ ++ y :: l₂ ++ l₃ by simp) h256
    rw [List.map_cons, visitDigits, hkeep, if_neg (fun hne => hne rfl), hvalues]
    dsimp only
    rw [hv, visitAll_cons]
    dsimp only
    have hassoc : l₁ ++ y :: l₂ ++ l₃ = l₁ ++ [y] ++ l₂ ++ l₃ := by simp
    rcases hvisit : visit s (y.1, y.2) with ⟨_ | _, s'⟩
    · rfl
    · dsimp only
      rw [if_pos rfl, hassoc]
      refine ih s' (hassoc ▸ hl) (.inr ⟨l₁, y, rfl, rfl, ?_⟩)
      rw [← hassoc]
      exact hrank'

theorem visitChildren_eq {dlo dhi : ℕ} {es : List (ℕ × Edge32)} {kids : List (ℕ × Tree)}
    {R : ℕ × Edge32 → ℕ × Tree → Prop} {walk : ℕ × Edge32 → σ → Except Fault (Bool × σ)}
    {g : ℕ × Tree → List (ℕ × ℕ)} (visit : σ → ℕ × ℕ → Bool × σ) (s : σ) (h : List.Forall₂ R es kids)
    (hs : KeySorted kids) (hdig : ∀ x y, R x y → x.1 = y.1)
    (hwalk : ∀ x y s, R x y → y ∈ kids → dlo ≤ y.1 → y.1 ≤ dhi → walk x s = .ok (visitAll visit s (g y)))
    (hout : ∀ y ∈ kids, y.1 < dlo ∨ dhi < y.1 → g y = []) :
    visitChildren walk dlo dhi es s = .ok (visitAll visit s (kids.flatMap g)) := by
  induction h generalizing s with
  | nil => rfl
  | @cons x y es ys hxy _ ih =>
    obtain ⟨hhead, htail⟩ := List.pairwise_cons.mp hs
    have hrest := fun s => ih s htail (fun x z s h hz => hwalk x z s h (List.mem_cons_of_mem y hz))
      fun z hz => hout z (List.mem_cons_of_mem y hz)
    rw [visitChildren, hdig x y hxy, List.flatMap_cons]
    split_ifs with hlow hhigh
    · rw [hrest, hout y List.mem_cons_self (.inl hlow), List.nil_append]
    · have hnil : ∀ z ∈ y :: ys, g z = [] := by
        intro z hz
        refine hout z hz (.inr ?_)
        rcases List.mem_cons.mp hz with rfl | hz
        · exact hhigh
        · exact lt_trans hhigh (hhead z hz)
      rw [hnil y List.mem_cons_self, List.flatMap_eq_nil_iff.mpr fun z hz => hnil z (List.mem_cons_of_mem y hz)]
      rfl
    · rw [hwalk x y s hxy List.mem_cons_self (not_lt.mp hlow) (not_lt.mp hhigh), ok_bind, visitAll_append]
      rcases visitAll visit s (g y) with ⟨_ | _, s'⟩
      · rfl
      · exact hrest s'

theorem between_fanout {fl : Flavour} {m : ℕ} {form : Form} {kids : List (ℕ × Tree)}
    (hb : Fork fl m form kids) (h3 : m ≤ 3)
    (hlo : lo < 256 ^ (m + 1)) (hhi : hi < 256 ^ (m + 1)) :
    ∃ g : ℕ × Tree → List (ℕ × ℕ), between lo hi (fanout (256 ^ m) (entries m) kids) = kids.flatMap g ∧
      (∀ y ∈ kids, digitAt lo (m + 1) ≤ y.1 → y.1 ≤ digitAt hi (m + 1) →
        g y = (between (childRange (m + 1) lo hi y.1).1 (childRange (m + 1) lo hi y.1).2 (entries m y.2)).map
          (Direction.moved (256 ^ m) y.1)) ∧
      ∀ y ∈ kids, y.1 < digitAt lo (m + 1) ∨ digitAt hi (m + 1) < y.1 → g y = [] := by
  refine ⟨fun y => between lo hi ((entries m y.2).map (Direction.moved (256 ^ m) y.1)), ?_, ?_, ?_⟩
  · rw [between, fanout, List.filter_flatMap]
    rfl
  · intro y hy h1 h2
    dsimp only
    rw [between, List.filter_map, between]
    refine congrArg _ (List.filter_congr fun x hx => ?_)
    rw [Function.comp_apply, Direction.moved]
    exact decide_eq_decide.mpr (childRange_iff hlo hhi h3 (hb.narrow y hy x hx) h1 h2)
  · intro y hy hout
    have hl := eq_digit_child hlo
    have hh := eq_digit_child hhi
    have hlr := childRem_lt lo m
    have hhr := childRem_lt hi m
    have hmul : ∀ {a b : ℕ}, a < b → a * 256 ^ m + 256 ^ m ≤ b * 256 ^ m := by
      intro a b hab
      calc a * 256 ^ m + 256 ^ m = (a + 1) * 256 ^ m := (Nat.succ_mul a _).symm
        _ ≤ b * 256 ^ m := Nat.mul_le_mul_right _ hab
    refine List.filter_eq_nil_iff.mpr fun x hx => ?_
    obtain ⟨z, hz, rfl⟩ := List.mem_map.mp hx
    have hz' := hb.narrow y hy z hz
    rw [Direction.moved, decide_eq_true_eq]
    dsimp only
    rcases hout with hout | hout
    · have := hmul hout
      omega
    · have := hmul hout
      omega

theorem leaf_slice {vw i n : ℕ} {l : List (ℕ × ℕ)} {buf : List ℕ} (hb : LeafHolds vw kb l buf)
    (h : i + n ≤ l.length) :
    (List.range' i n).map (leafEntry vw kb l.length buf) = (l.drop i).take n := by
  refine List.ext_getElem (by simp; omega) fun j hj₁ hj₂ => ?_
  rw [List.getElem_map, List.getElem_range', Nat.one_mul, List.getElem_take, List.getElem_drop]
  exact leafEntry_eq hb (List.getElem?_eq_getElem _)

/-- The ends that binary searches find for a range. -/
theorem lowerBound_between {l : List (ℕ × ℕ)} (hs : KeySorted l) (hle : lo ≤ hi) :
    ∃ l₁ l₃, l = l₁ ++ between lo hi l ++ l₃ ∧ (∀ x ∈ l₁, x.1 < lo) ∧ (∀ x ∈ l₃, hi < x.1) ∧
      lowerBound (l.map Prod.fst) lo = l₁.length ∧
      lowerBound (l.map Prod.fst) (hi + 1) = l₁.length + (between lo hi l).length := by
  obtain ⟨l₁, l₃, hsplit, hlow, hhigh⟩ := between_split hs lo hi
  have hin : ∀ x ∈ between lo hi l, lo ≤ x.1 ∧ x.1 ≤ hi :=
    fun x hx => of_decide_eq_true (List.mem_filter.mp hx).2
  refine ⟨l₁, l₃, hsplit, hlow, hhigh, ?_⟩
  generalize between lo hi l = mid at hsplit hin
  have hpos : ∀ k, lowerBound (l.map Prod.fst) k = l.countP fun x => x.1 < k := by
    intro k
    rw [lowerBound_eq_countP (keySorted_iff.mp hs), List.countP_map]
    rfl
  constructor
  · rw [hpos, hsplit, List.countP_append, List.countP_append,
      List.countP_eq_length.mpr fun x hx => decide_eq_true (hlow x hx),
      List.countP_eq_zero.mpr fun x hx => by
        have := hin x hx
        simp only [decide_eq_true_eq]
        omega,
      List.countP_eq_zero.mpr fun x hx => by
        have := hhigh x hx
        simp only [decide_eq_true_eq]
        omega]
    rfl
  · rw [hpos, hsplit, List.countP_append, List.countP_append, List.countP_eq_length.mpr fun x hx => by
        have := hlow x hx
        simp only [decide_eq_true_eq]
        omega,
      List.countP_eq_length.mpr fun x hx => by
        have := hin x hx
        simp only [decide_eq_true_eq]
        omega,
      List.countP_eq_zero.mpr fun x hx => by
        have := hhigh x hx
        simp only [decide_eq_true_eq]
        omega]
    rfl

/-- The entries of a leaf between the two ends that a binary search finds. -/
theorem leaf_between {vw : ℕ} {l : List (ℕ × ℕ)} {buf : List ℕ} (hb : LeafHolds vw kb l buf) (hs : KeySorted l)
    (hle : lo ≤ hi) :
    (List.range' (lowerBound (l.map Prod.fst) lo) (lowerBound (l.map Prod.fst) (hi + 1) -
      lowerBound (l.map Prod.fst) lo)).map (leafEntry vw kb l.length buf) = between lo hi l := by
  obtain ⟨l₁, l₃, hsplit, -, -, h0, h1⟩ := lowerBound_between hs hle
  have hlen := congrArg List.length hsplit
  rw [List.length_append, List.length_append] at hlen
  rw [h0, h1, Nat.add_sub_cancel_left, leaf_slice hb (by omega)]
  generalize between lo hi l = mid at hsplit
  rw [hsplit, List.append_assoc, List.drop_left, List.take_left]

/-- A visit goes through the entries of the range, in order, until the visitor stops it. -/
theorem mapForEachRange_eq (visit : σ → ℕ × ℕ → Bool × σ) (s : σ) (h : Stored a .map kb e t) (h1 : 1 ≤ kb)
    (h4 : kb ≤ 4) (hlo : lo < 256 ^ kb) (hhi : hi < 256 ^ kb) (hf : kb < fuel) :
    mapForEachRange a fuel e kb lo hi visit s = .ok (visitAll visit s (between lo hi (entries kb t))) := by
  induction fuel generalizing kb e t lo hi visit s with
  | zero => omega
  | succ fuel ih =>
    rw [mapForEachRange]
    by_cases hempty : hi < lo
    · rw [if_pos hempty, between_empty hempty]
      rfl
    rw [if_neg hempty]
    cases t with
    | null =>
      rw [h.null, kind_null, entries_null]
      rfl
    | immed l =>
      obtain ⟨hkind, hl, hone, hcap⟩ := h.immed
      have hlen : l.length ≤ 1 := le_trans hcap (by unfold immedCap; dsimp only; split_ifs <;> omega)
      obtain ⟨⟨r, v⟩, rfl⟩ := List.length_eq_one_iff.mp (by omega : l.length = 1)
      rw [hkind, entries_immed]
      dsimp only
      by_cases hin : lo ≤ r ∧ r ≤ hi
      · rw [if_pos hin, between, List.filter_cons_of_pos (by simpa using hin), List.filter_nil, visitAll_cons]
        rcases visit s (r, v) with ⟨_ | _, s'⟩ <;> rfl
      · rw [if_neg hin, between, List.filter_cons_of_neg (by simpa using hin), List.filter_nil]
        rfl
    | leaf l =>
      obtain ⟨hd, buf, rfl, hn, hb, hl, -⟩ := h.leaf
      have hlow : leafLowerBound (keysOff (valueWidth .map) l.length) kb buf l.length lo =
          lowerBound (l.map Prod.fst) lo :=
        leafLowerBound_eq hb hl.sorted
      have hhigh : (if remMask kb ≤ hi then l.length
          else leafLowerBound (keysOff (valueWidth .map) l.length) kb buf l.length (hi + 1)) =
          lowerBound (l.map Prod.fst) (hi + 1) := by
        split_ifs with hmax
        · rw [remMask_eq h4] at hmax
          rw [lowerBound_of_all_lt fun x hx => ?_, List.length_map]
          obtain ⟨y, hy, rfl⟩ := List.mem_map.mp hx
          have := (hl.fit y hy).1
          omega
        · exact leafLowerBound_eq hb hl.sorted
      rw [kind_leaf, entries_leaf]
      dsimp only
      rw [leaf_eq hn hb.fits, ok_bind, pure_eq_ok, hlow, hhigh, leaf_between hb hl.sorted (not_lt.mp hempty)]
    | bitmap l =>
      obtain ⟨hd, rfl, hn, rfl, hl⟩ := h.bitmap
      have hb : a.mapBitmap hd = .ok (mapBitmapOf l) := by rw [Arena.mapBitmap, hn]; rfl
      obtain ⟨l₁, l₃, hsplit, -, -⟩ := between_split hl.sorted lo hi
      have hdigits : rangeBits (mapBitmapOf l).bits lo (min hi 255) = (between lo hi l).map Prod.fst := by
        rw [show (mapBitmapOf l).bits = bitsOf (l.map Prod.fst) from rfl, Nat.min_eq_left (by omega),
          rangeBits_eq (by omega), digits_bitmap hl, List.filter_map]
        rfl
      rw [kind_bitmap, entries_bitmap]
      dsimp only
      rw [if_neg (by omega), hb, ok_bind, hdigits]
      have hvisit := @visitDigits_eq _ _ 0 _ _ _ visit s (hsplit ▸ hl) (.inl rfl)
      rwa [← hsplit] at hvisit
    | branch form kids =>
      obtain ⟨m, hd, es, rfl, rfl, hn, hedges, hcap, hb, -, hkids⟩ := h.branch
      obtain ⟨g, hbetween, hin, hout⟩ := between_fanout hb (by omega) hlo hhi
      rw [kind_branch, entries_branch, hbetween]
      dsimp only
      rw [hn, ok_bind, nodePairs_eq hedges hcap, ok_bind]
      refine visitChildren_eq visit s hkids hb.sorted (fun x y hxy => hxy.1)
        (fun x y s hxy hy hdlo hdhi => ?_) hout
      obtain ⟨hdig, hst⟩ := hxy
      obtain ⟨hc1, hc2⟩ := @childRange_lt m y.1 lo hi (by omega)
      have hlift : (between (childRange (m + 1) lo hi y.1).1 (childRange (m + 1) lo hi y.1).2
          (entries m y.2)).map
          (Direction.moved (256 ^ m) y.1) = (between (childRange (m + 1) lo hi y.1).1
            (childRange (m + 1) lo hi y.1).2
            (entries m y.2)).map (lift y.1 (m + 1)) :=
        List.map_congr_left fun z hz => (lift_eq (hb.narrow y hy z (List.mem_filter.mp hz).1)).symm
      rw [hdig, Nat.add_sub_cancel, ih _ s hst hb.one_le (by omega) hc1 hc2 (by omega), hin y hy hdlo hdhi,
        hlift, visitAll_map]

end Expanse.Trie32
