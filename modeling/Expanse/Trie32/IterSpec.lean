import Expanse.Library.Runs
import Expanse.Trie32.Iter
import Expanse.Trie32.ReadsSpec

/-!
# The iterator hands out the entries

Cursor and stack together hold a list, what the iterator has left. A step hands out its head. The
list of a new iterator is that of the entries from its start on.
-/

namespace Expanse.Trie32

open Bitmap Packed Radix SortedAssoc Trie32.Tree

variable {fl : Flavour} {kb k rem d fuel h n start pre : ℕ} {l L S : List (ℕ × ℕ)} {form : Form}
  {kids : List (ℕ × Tree)} {t : Tree} {e : Edge32} {es : List (ℕ × Edge32)} {a : Arena} {buf : List ℕ} {vw : ℕ}

theorem linearFrom_eq {cap level count : ℕ} (hcap : es.length ≤ cap) (start : ℕ) :
    nodeAtOrAfter.linearFrom (linearOf cap level count es) start = .ok (es.find? fun c => start ≤ c.1) := by
  have hes : es = (List.range es.length).map fun i => es.getD i (0, .null) := by
    apply List.ext_getElem?
    intro i
    rw [List.getElem?_map]
    by_cases hi : i < es.length
    · rw [List.getElem?_range hi, Option.map_some, List.getD_eq_getElem?_getD, List.getElem?_eq_getElem hi]
      rfl
    · rw [List.getElem?_eq_none (by omega), List.getElem?_eq_none (by rw [List.length_range]; omega)]
      rfl
  have hdigit : ∀ i ∈ List.range es.length, decide (start ≤ (linearOf cap level count es).digits.getD i 0) =
      decide (start ≤ (es.getD i (0, .null)).1) := by
    intro i hi
    have hlt := List.mem_range.mp hi
    rw [linearOf, resize_eq (by rwa [List.length_map]), List.getD_eq_getElem?_getD, List.getD_eq_getElem?_getD,
      List.getElem?_append_left (by rwa [List.length_map]), List.getElem?_map, List.getElem?_eq_getElem hlt]
    rfl
  have hfind : (es.find? fun c => decide (start ≤ c.1)) = ((List.range es.length).find? fun i =>
      decide (start ≤ (es.getD i (0, .null)).1)).map fun i => es.getD i (0, .null) := by
    conv_lhs => rw [hes]
    rw [List.find?_map]
    rfl
  rw [hfind, nodeAtOrAfter.linearFrom, show (linearOf cap level count es).numEdges = es.length from rfl,
    List.find?_congr hdigit]
  cases hf : (List.range es.length).find? fun i => decide (start ≤ (es.getD i (0, .null)).1) with
  | none => rfl
  | some i =>
    have hi := List.mem_range.mp (List.mem_of_find?_eq_some hf)
    have hget : es[i]? = some (es.getD i (0, .null)) := by
      rw [List.getD_eq_getElem?_getD, List.getElem?_eq_getElem hi]
      rfl
    dsimp only
    rw [linearItem_eq hcap hget]
    rfl

theorem nodeAtOrAfter_eq {level count : ℕ} (hk : Kids es) (hcap : es.length ≤ form.cap) (hstart : start < 256) :
    nodeAtOrAfter (branchNode form level count es) start = .ok (es.filter fun c => start ≤ c.1).head? := by
  rw [List.head?_filter]
  cases form with
  | l2 => exact linearFrom_eq hcap start
  | l6 => exact linearFrom_eq hcap start
  | b =>
    have hscan : bitmapFirstGe (bitmapBranchOf level count es).bits start =
        (es.find? fun c => start ≤ c.1).map Prod.fst := by
      rw [bitmapFirstGe_eq _ hstart, digits_branch hk, List.head?_filter, List.find?_map]
      rfl
    rw [branchNode, nodeAtOrAfter, hscan]
    cases hf : es.find? fun c => decide (start ≤ c.1) with
    | none => rfl
    | some x =>
      have hitem : bitmapItem (bitmapBranchOf level count es) x.1 = .ok x :=
        bitmapItem_eq hk (List.mem_of_find?_eq_some hf)
      rw [bitmapItem, subItem.eq_def] at hitem
      dsimp only [Option.map_some] at hitem ⊢
      cases hs : (bitmapBranchOf level count es).subs.getD (x.1 / 32) none with
      | none =>
        rw [hs] at hitem
        cases hitem
      | some s =>
        rw [hs] at hitem
        dsimp only at hitem ⊢
        rw [edgeAt]
        cases hc : s[digitRank false (bitmapBranchOf level count es).bits x.1]? with
        | none =>
          rw [hc] at hitem
          cases hitem
        | some c =>
          rw [hc] at hitem
          exact congrArg (Except.map some) hitem
  | u =>
    have hsplit : List.range 256 = List.range' 0 start ++ List.range' start (256 - start) := by
      rw [List.range_eq_range', show List.range' 0 256 = List.range' 0 (start + (256 - start)) by congr 1; omega,
        ← List.range'_append_1, Nat.zero_add]
    have hes : (List.range 256).filterMap (flatSlot (flatBranchOf level count es)) = es := flat_slots hk
    have hslot : ∀ {d : ℕ} {x : ℕ × Edge32}, flatSlot (flatBranchOf level count es) d = some x → x.1 = d := by
      intro d x hx
      unfold flatSlot at hx
      split at hx
      · split at hx
        · cases hx
        · rw [← Option.some.inj hx]
      · cases hx
    have hlow : ((List.range' 0 start).filterMap (flatSlot (flatBranchOf level count es))).filter
        (fun c => start ≤ c.1) = [] := by
      refine List.filter_eq_nil_iff.mpr fun x hx => ?_
      obtain ⟨y, hy, hxy⟩ := List.mem_filterMap.mp hx
      have := (List.mem_range'_1.mp hy).2
      rw [hslot hxy]
      simp only [decide_eq_true_eq]
      omega
    have hhigh : ((List.range' start (256 - start)).filterMap (flatSlot (flatBranchOf level count es))).filter
        (fun c => start ≤ c.1) = (List.range' start (256 - start)).filterMap
          (flatSlot (flatBranchOf level count es)) := by
      refine List.filter_eq_self.mpr fun x hx => ?_
      obtain ⟨y, hy, hxy⟩ := List.mem_filterMap.mp hx
      rw [hslot hxy]
      exact decide_eq_true (List.mem_range'_1.mp hy).1
    rw [hsplit, List.filterMap_append] at hes
    rw [branchNode, nodeAtOrAfter, flatItem, ← List.head?_filterMap, ← List.head?_filter]
    conv_rhs => rw [← hes, List.filter_append, hlow, hhigh, List.nil_append]

theorem childAtOrAfter_eq (h : Stored a fl kb e (branch form kids)) (hstart : start < 256) :
    ∃ m, kb = m + 1 ∧ (kids.filter (fun c => start ≤ c.1) = [] ∧ childAtOrAfter a e start = .ok none ∨
      ∃ d c ec ys, kids.filter (fun c => start ≤ c.1) = (d, c) :: ys ∧
        childAtOrAfter a e start = .ok (some (d, ec)) ∧ Stored a fl m ec c) := by
  obtain ⟨m, hd, es, rfl, rfl, hn, hedges, hcap, -, -, hkids⟩ := h.branch
  have hread : childAtOrAfter a (.branch form hd) start = .ok (es.filter fun c => start ≤ c.1).head? := by
    rw [childAtOrAfter, hn, ok_bind, nodeAtOrAfter_eq hedges hcap hstart]
  have hfilter : List.Forall₂ (StoredKid a fl m) (es.filter fun c => start ≤ c.1)
      (kids.filter fun c => start ≤ c.1) := by
    clear hn hedges hcap hread h
    induction hkids with
    | nil => exact .nil
    | @cons x y es ys hxy _ ih =>
      rw [List.filter_cons, List.filter_cons, hxy.1]
      split_ifs
      · exact .cons hxy ih
      · exact ih
  refine ⟨m, rfl, ?_⟩
  rw [hread]
  generalize es.filter (fun c => decide (start ≤ c.1)) = es', kids.filter (fun c => decide (start ≤ c.1)) =
    ks at hfilter
  cases hfilter with
  | nil => exact .inl ⟨rfl, rfl⟩
  | @cons x y es' ys hxy _ =>
    obtain ⟨dx, cx⟩ := x
    obtain ⟨dy, cy⟩ := y
    obtain ⟨hd, hst⟩ := hxy
    cases hd
    exact .inr ⟨dx, cy, cx, ys, rfl, rfl, hst⟩

/-- The cursor has the entries `L` left. In a map bitmap leaf the rank it keeps is that of the
entry handed out last. -/
def CurLeft (a : Arena) (fl : Flavour) (cur : LeafCur32) (L : List (ℕ × ℕ)) : Prop :=
  match cur with
  | .done => L = []
  | .immed keys idx val pre => L = under pre ((keys.drop idx).map fun k => (k, val))
  | .linear h pop idx kb pre => ∃ l buf, a.node h = some (.leaf buf) ∧ LeafHolds (valueWidth fl) kb l buf ∧
      l.length = pop ∧ L = under pre (l.drop idx)
  | .bitmap words w pre => words.length = 4 ∧ L = under pre ((wordsFrom words w).map fun d => (d, 0))
  | .mapBitmap h words w pre sub rank => words.length = 4 ∧
      ∃ l₁ l₂, a.node h = some (.mapBitmap (mapBitmapOf (l₁ ++ l₂))) ∧
      Held .map 1 (l₁ ++ l₂) ∧ wordsFrom words w = l₂.map Prod.fst ∧ L = under pre l₂ ∧
      (sub = SUB_NONE ∨ ∃ l₀ x, l₁ = l₀ ++ [x] ∧ sub = x.1 / 32 ∧
        rank = subexpanseRank (bitsOf ((l₁ ++ l₂).map Prod.fst)) x.1)

theorem takeBit_eq (fuel : ℕ) {words : List ℕ} {w : ℕ} (hlen : words.length = 4) (hf : 5 ≤ w + fuel) :
    ∃ words' w', LeafCur32.takeBit fuel words w = ((wordsFrom words w).head?, words', w') ∧ words'.length = 4 ∧
      wordsFrom words' w' = (wordsFrom words w).tail := by
  induction fuel generalizing w with
  | zero =>
    have hnil : wordsFrom words w = [] := by rw [wordsFrom, show 4 - w = 0 by omega]; rfl
    rw [hnil]
    exact ⟨words, w, rfl, hlen, hnil⟩
  | succ fuel ih =>
    rw [LeafCur32.takeBit]
    by_cases hw : 4 ≤ w
    · have hnil : wordsFrom words w = [] := by rw [wordsFrom, show 4 - w = 0 by omega]; rfl
      rw [if_pos hw, hnil]
      exact ⟨words, w, rfl, hlen, hnil⟩
    · have hsucc := @wordsFrom_succ w words (by omega)
      rw [if_neg hw, firstBit_eq]
      cases hb : bitsOfWord (words.getD w 0) with
      | nil =>
        rw [hb, List.map_nil, List.nil_append] at hsucc
        rw [hsucc]
        exact ih (by omega)
      | cons b bs =>
        have hself : (words.set w (dropFirst (words.getD w 0))).getD w 0 = dropFirst (words.getD w 0) := by
          rw [List.getD_eq_getElem?_getD, List.getElem?_set_self (by omega)]
          rfl
        rw [hb] at hsucc
        rw [hsucc]
        refine ⟨_, _, rfl, by rw [List.length_set]; exact hlen, ?_⟩
        rw [wordsFrom_succ (by omega), hself, bitsOfWord_dropFirst hb, wordsFrom_set (Nat.lt_succ_self w)]
        rfl

theorem rank_succ {l₀ l₂ : List (ℕ × ℕ)} {x y : ℕ × ℕ} (hs : KeySorted (l₀ ++ [x] ++ y :: l₂))
    (hsub : y.1 / 32 = x.1 / 32) :
    subexpanseRank (bitsOf ((l₀ ++ [x] ++ y :: l₂).map Prod.fst)) y.1 =
      subexpanseRank (bitsOf ((l₀ ++ [x] ++ y :: l₂).map Prod.fst)) x.1 + 1 := by
  have hcuty := (show KeySorted (l₀ ++ [x] ++ (y.1, y.2) :: l₂) from hs).of_cut.2.2
  have hy : subexpanseRank (bitsOf ((l₀ ++ [x] ++ y :: l₂).map Prod.fst)) y.1 =
      (row (l₀ ++ [x]) (y.1 / 32)).length :=
    rank_eq hs hcuty.below fun e he => by
      rcases List.mem_cons.mp he with rfl | he
      · exact le_rfl
      · exact (hcuty.above e he).le
  have hassoc : l₀ ++ [x] ++ y :: l₂ = l₀ ++ (x.1, x.2) :: y :: l₂ := by simp
  have hcutx := (show KeySorted (l₀ ++ (x.1, x.2) :: y :: l₂) from hassoc ▸ hs).of_cut.2.2
  have hx : subexpanseRank (bitsOf ((l₀ ++ [x] ++ y :: l₂).map Prod.fst)) x.1 = (row l₀ (x.1 / 32)).length := by
    rw [hassoc]
    exact rank_eq (hassoc ▸ hs) hcutx.below fun e he => by
      rcases List.mem_cons.mp he with rfl | he
      · exact le_rfl
      · exact (hcutx.above e he).le
  rw [hy, hx, hsub, row_append, row_cons_self (d := x.1), List.length_append]
  rfl

theorem cur_next {cur : LeafCur32} (h : CurLeft a fl cur L) :
    ∃ cur', cur.next fl a = .ok (L.head?, cur') ∧ CurLeft a fl cur' L.tail := by
  cases cur with
  | done =>
    rw [show L = [] from h]
    exact ⟨.done, rfl, rfl⟩
  | immed keys idx val pre =>
    rw [show L = under pre ((keys.drop idx).map fun k => (k, val)) from h, LeafCur32.next]
    by_cases hi : idx < keys.length
    · rw [List.drop_eq_getElem_cons hi, List.getElem?_eq_getElem hi]
      exact ⟨_, rfl, rfl⟩
    · rw [List.drop_eq_nil_of_le (by omega), List.getElem?_eq_none (by omega)]
      refine ⟨_, rfl, ?_⟩
      rw [CurLeft, List.drop_eq_nil_of_le (by omega)]
      rfl
  | linear h pop idx kb pre =>
    obtain ⟨l, buf, hn, hb, rfl, rfl⟩ := h
    rw [LeafCur32.next]
    by_cases hi : l.length ≤ idx
    · rw [if_pos hi, List.drop_eq_nil_of_le hi]
      exact ⟨_, rfl, l, buf, hn, hb, rfl, by rw [List.drop_eq_nil_of_le hi]; rfl⟩
    · have hget := List.getElem?_eq_getElem (not_le.mp hi)
      rw [if_neg hi, List.drop_eq_getElem_cons (not_le.mp hi)]
      dsimp only
      rw [leaf_eq hn hb.fits, ok_bind, pure_eq_ok, hb.readKey hget, hb.readVal hget]
      exact ⟨_, rfl, l, buf, hn, hb, rfl, rfl⟩
  | bitmap words w pre =>
    obtain ⟨hlen, rfl⟩ := h
    obtain ⟨words', w', ht, hlen', htail⟩ := takeBit_eq 5 (w := w) hlen (by omega)
    rw [LeafCur32.next, ht]
    cases hw : wordsFrom words w with
    | nil => exact ⟨_, rfl, hlen', by rw [htail, hw]; rfl⟩
    | cons x xs => exact ⟨_, rfl, hlen', by rw [htail, hw]; rfl⟩
  | mapBitmap h words w pre sub rank =>
    obtain ⟨hlen, l₁, l₂, hn, hl, hw, rfl, hrank⟩ := h
    obtain ⟨words', w', ht, hlen', htail⟩ := takeBit_eq 5 (w := w) hlen (by omega)
    rw [hw] at htail
    rw [LeafCur32.next, ht, hw]
    cases l₂ with
    | nil => exact ⟨_, rfl, hlen', l₁, [], hn, hl, htail, rfl, hrank⟩
    | cons y l₂ =>
      have hb : a.mapBitmap h = .ok (mapBitmapOf (l₁ ++ y :: l₂)) := by rw [Arena.mapBitmap, hn]
      have h256 : y.1 < 256 := by simpa using (hl.fit y (by simp)).1
      have hkeep : (if y.1 / 32 = sub then rank + 1 else digitRank false
          (mapBitmapOf (l₁ ++ y :: l₂)).bits y.1) =
          subexpanseRank (bitsOf ((l₁ ++ y :: l₂).map Prod.fst)) y.1 := by
        rcases hrank with rfl | ⟨l₀, x, rfl, rfl, rfl⟩
        · rw [if_neg (by unfold SUB_NONE; omega), digitRank_eq]
          rfl
        · split_ifs with hsub
          · exact (rank_succ hl.sorted hsub).symm
          · rw [digitRank_eq]
            rfl
      obtain ⟨s, hs, hv⟩ := mapItem hl.sorted (show y ∈ l₁ ++ y :: l₂ by simp) h256
      have hrank' : digitRank false (mapBitmapOf (l₁ ++ y :: l₂)).bits y.1 =
          subexpanseRank (bitsOf ((l₁ ++ y :: l₂).map Prod.fst)) y.1 := digitRank_eq false _ _
      rw [List.map_cons, List.head?_cons]
      dsimp only
      rw [hb, ok_bind, hkeep, hrank', if_neg (fun hne => hne rfl), hs]
      dsimp only
      rw [← hrank', hv]
      refine ⟨_, rfl, hlen', l₁ ++ [y], l₂, ?_, ?_, htail, rfl, .inr ⟨l₁, y, rfl, rfl, ?_⟩⟩
      · rw [hn, List.append_assoc]
        rfl
      · rw [List.append_assoc]
        exact hl
      · rw [hrank', List.append_assoc]
        rfl

/-- Whether a cursor is found: there is one if something is left, and then it has that left. -/
def Finds (a : Arena) (fl : Flavour) (o : Option LeafCur32) (L : List (ℕ × ℕ)) : Prop :=
  match o with
  | none => L = []
  | some cur => L ≠ [] ∧ CurLeft a fl cur L

theorem under_eq_nil : under pre l = [] ↔ l = [] := List.map_eq_nil_iff

theorem all_zero_iff {words : List ℕ} (hlen : words.length = 4) (hlt : ∀ w, words.getD w 0 < 2 ^ 64) :
    words.all (· == 0) = true ↔ wordsFrom words 0 = [] := by
  rw [List.all_eq_true, wordsFrom, List.flatMap_eq_nil_iff]
  constructor
  · intro h w hw
    have hw' := List.mem_range'_1.mp hw
    have hm : words.getD w 0 ∈ words := by
      rw [List.getD_eq_getElem?_getD, List.getElem?_eq_getElem (by omega)]
      exact List.getElem_mem _
    rw [eq_of_beq (h _ hm), bitsOfWord_zero, List.map_nil]
  · intro h x hx
    obtain ⟨w, hw, rfl⟩ := List.mem_iff_getElem.mp hx
    have hget : words.getD w 0 = words[w] := by
      rw [List.getD_eq_getElem?_getD, List.getElem?_eq_getElem hw]
      rfl
    have hnil := List.map_eq_nil_iff.mp (h w (List.mem_range'_1.mpr ⟨by omega, by omega⟩))
    rw [beq_iff_eq, ← hget]
    exact eq_zero_of_bits (hlt w) hnil

theorem cur_new (h : Stored a fl kb e t) (hterm : ∀ form kids, t ≠ branch form kids) (pre start : ℕ) :
    ∃ o, LeafCur32.new fl a e kb pre start = .ok o ∧
      Finds a fl o (under pre ((entries kb t).filter fun x => start ≤ x.1)) := by
  cases t with
  | null =>
    rw [h.null, LeafCur32.new, kind_null, entries_null]
    exact ⟨none, rfl, rfl⟩
  | immed l =>
    obtain ⟨hkind, hl, hone, hcap⟩ := h.immed
    rw [LeafCur32.new, hkind, entries_immed]
    cases fl with
    | set =>
      have hs := keySorted_iff.mp hl.sorted
      have hsort : (l.map Prod.fst).insertionSort (· ≤ ·) = l.map Prod.fst :=
        (hs.imp fun h => Nat.le_of_lt h).insertionSort_eq
      have hpos : ((l.map Prod.fst).takeWhile fun k => decide (k < start)).length =
          lowerBound (l.map Prod.fst) start := by
        generalize l.map Prod.fst = keys
        induction keys with
        | nil => rfl
        | cons x xs ih =>
          rw [List.takeWhile_cons, lowerBound]
          by_cases hx : start ≤ x
          · rw [if_pos hx, if_neg (by simpa using hx)]
            rfl
          · rw [if_neg hx, if_pos (by simpa using hx), List.length_cons, ih]
      have hdrop : ((l.map Prod.fst).drop (lowerBound (l.map Prod.fst) start)).map (fun k => (k, 0)) =
          l.filter fun x => start ≤ x.1 := by
        rw [drop_lowerBound hs, List.filter_map]
        exact Held.map_keys ⟨fun x hx => hl.fit x (List.mem_filter.mp hx).1, hl.sorted.filter _⟩
      dsimp only
      rw [hsort, hpos, List.length_map, ← hdrop]
      split_ifs with hlt
      · refine ⟨_, rfl, ?_, rfl⟩
        rw [Ne, under_eq_nil, List.map_eq_nil_iff, List.drop_eq_nil_iff, List.length_map]
        omega
      · refine ⟨_, rfl, ?_⟩
        rw [List.drop_eq_nil_of_le (by rw [List.length_map]; omega)]
        rfl
    | map =>
      have h1 : l.length ≤ 1 := le_trans hcap (by unfold immedCap; dsimp only; split_ifs <;> omega)
      obtain ⟨⟨r, v⟩, rfl⟩ := List.length_eq_one_iff.mp (by omega : l.length = 1)
      dsimp only
      by_cases hr : start ≤ r
      · rw [if_pos hr, List.filter_cons_of_pos (by simpa using hr)]
        exact ⟨_, rfl, List.cons_ne_nil _ _, rfl⟩
      · rw [if_neg hr, List.filter_cons_of_neg (by simpa using hr)]
        exact ⟨_, rfl, rfl⟩
  | leaf l =>
    obtain ⟨hd, buf, rfl, hn, hb, hl, -⟩ := h.leaf
    have hdrop : l.drop (lowerBound (l.map Prod.fst) start) = l.filter fun x => start ≤ x.1 :=
      Direction.forward.rest_lowerBound hl.sorted start
    rw [LeafCur32.new, kind_leaf, entries_leaf, ← hdrop]
    dsimp only
    rw [leaf_eq hn hb.fits, ok_bind, leafLowerBound_eq hb hl.sorted, pure_eq_ok]
    split_ifs with hlt
    · refine ⟨_, rfl, ?_, l, buf, hn, hb, rfl, rfl⟩
      rw [Ne, under_eq_nil, List.drop_eq_nil_iff]
      omega
    · refine ⟨_, rfl, ?_⟩
      rw [List.drop_eq_nil_of_le (by omega)]
      rfl
  | bitmap l =>
    obtain ⟨hd, rfl, hn, rfl, hl⟩ := h.bitmap
    have hwords : wordsFrom (startWords (bitsOf (l.map Prod.fst)) start) 0 =
        (l.filter fun x => start ≤ x.1).map Prod.fst := by
      rw [wordsFrom_start, digits_bitmap hl, List.filter_map]
      rfl
    have hlen : (startWords (bitsOf (l.map Prod.fst)) start).length = 4 := by
      rw [startWords, List.length_map, List.length_range]
    have hzero := all_zero_iff hlen fun w => startWords_lt (w := w) (bitsOf (l.map Prod.fst)) start
    rw [LeafCur32.new, kind_bitmap, entries_bitmap]
    dsimp only
    by_cases hfar : 255 < start
    · rw [if_pos hfar, List.filter_eq_nil_iff.mpr fun x hx => ?_]
      · exact ⟨none, rfl, rfl⟩
      · have := (hl.fit x hx).1
        simp only [decide_eq_true_eq]
        omega
    · rw [if_neg hfar]
      cases fl with
      | set =>
        have hb : a.bitmap hd = .ok (setBitmapOf l) := by rw [Arena.bitmap, hn]; rfl
        dsimp only
        rw [hb, ok_bind, pure_eq_ok, show (setBitmapOf l).bits = bitsOf (l.map Prod.fst) from rfl]
        split_ifs with hnone
        · rw [hzero, hwords, List.map_eq_nil_iff] at hnone
          rw [hnone]
          exact ⟨none, rfl, rfl⟩
        · rw [hzero, hwords, List.map_eq_nil_iff] at hnone
          refine ⟨_, rfl, fun hnil => hnone (under_eq_nil.mp hnil), hlen, ?_⟩
          rw [hwords, Held.map_keys ⟨fun x hx => hl.fit x (List.mem_filter.mp hx).1, hl.sorted.filter _⟩]
      | map =>
        have hb : a.mapBitmap hd = .ok (mapBitmapOf l) := by rw [Arena.mapBitmap, hn]; rfl
        dsimp only
        rw [hb, ok_bind, pure_eq_ok, show (mapBitmapOf l).bits = bitsOf (l.map Prod.fst) from rfl]
        split_ifs with hnone
        · rw [hzero, hwords, List.map_eq_nil_iff] at hnone
          rw [hnone]
          exact ⟨none, rfl, rfl⟩
        · rw [hzero, hwords, List.map_eq_nil_iff] at hnone
          have hsplit : l.takeWhile (fun x => x.1 < start) ++ (l.filter fun x => start ≤ x.1) = l := by
            rw [← hl.sorted.dropWhile_eq_filter, List.takeWhile_append_dropWhile]
          refine ⟨_, rfl, fun hnil => hnone (under_eq_nil.mp hnil), hlen, l.takeWhile (fun x => x.1 < start),
            l.filter fun x => start ≤ x.1, ?_, ?_, hwords, rfl, .inl rfl⟩
          · rw [hsplit, hn]
            rfl
          · rw [hsplit]
            exact hl
  | branch form kids => exact absurd rfl (hterm form kids)

/-- The children of a branch that are still to come. -/
def FrameLeft (a : Arena) (fl : Flavour) (f : Frame32) (L : List (ℕ × ℕ)) : Prop :=
  ∃ form kids m, f.kb = m + 1 ∧ Stored a fl (m + 1) f.edge (branch form kids) ∧
    L = under f.pre (fanout (256 ^ m) (entries m) (kids.filter fun c => f.nextDigit ≤ c.1))

/-- What the branches on the path have left, the deepest first. -/
def StackLeft (a : Arena) (fl : Flavour) : List Frame32 → List (ℕ × ℕ) → Prop
  | [], L => L = []
  | f :: fs, L => fs.length + f.kb ≤ KEY_BYTES ∧ ∃ L₁ L₂, FrameLeft a fl f L₁ ∧ StackLeft a fl fs L₂ ∧
      L = L₁ ++ L₂

def IterLeft (a : Arena) (fl : Flavour) (it : RawIter32) (L : List (ℕ × ℕ)) : Prop :=
  ∃ Lc Ls, CurLeft a fl it.leaf Lc ∧ StackLeft a fl it.stack Ls ∧ L = Lc ++ Ls

/-- The cursor stands on an entry, unless all is spent. -/
def Poised (a : Arena) (fl : Flavour) (it : RawIter32) (L : List (ℕ × ℕ)) : Prop :=
  ∃ Lc Ls, CurLeft a fl it.leaf Lc ∧ StackLeft a fl it.stack Ls ∧ L = Lc ++ Ls ∧ (Lc = [] → it.stack = [])

theorem StackLeft.length_le {st : List Frame32} (h : StackLeft a fl st L) : st.length ≤ KEY_BYTES := by
  cases st with
  | nil => exact Nat.zero_le _
  | cons f fs =>
    obtain ⟨hd, L₁, L₂, ⟨form, kids, m, hkb, -⟩, -⟩ := h
    rw [List.length_cons]
    omega

theorem under_append (pre : ℕ) (l₁ l₂ : List (ℕ × ℕ)) : under pre (l₁ ++ l₂) = under pre l₁ ++ under pre l₂ :=
  List.map_append

theorem under_zero (l : List (ℕ × ℕ)) : under 0 l = l := by
  rw [under]
  simp

/-- A digit decoded goes to the prefix. -/
theorem under_moved (pre : ℕ) (hl : ∀ x ∈ l, x.1 < 256 ^ kb) :
    under pre (l.map (Direction.moved (256 ^ kb) d)) = under (pre ||| d * 2 ^ (8 * kb)) l := by
  have hpow : (2 : ℕ) ^ (8 * kb) = 256 ^ kb := by rw [Nat.pow_mul]
  rw [under, under, List.map_map]
  refine List.map_congr_left fun x hx => Prod.ext ?_ rfl
  show pre ||| (d * 256 ^ kb + x.1) = pre ||| d * 2 ^ (8 * kb) ||| x.1
  rw [Nat.or_assoc, Nat.mul_comm d (2 ^ (8 * kb)),
    ← Nat.two_pow_add_eq_or_of_lt (by rw [hpow]; exact hl x hx), hpow,
    Nat.mul_comm d]

/-- Where a descent ends: at a cursor on an entry, or with what is left on the stack. -/
def Landed (a : Arena) (fl : Flavour) (found : Bool) (it : RawIter32) (L : List (ℕ × ℕ)) : Prop :=
  match found with
  | false => StackLeft a fl it.stack L
  | true => ∃ Lc Ls, Lc ≠ [] ∧ CurLeft a fl it.leaf Lc ∧ StackLeft a fl it.stack Ls ∧ L = Lc ++ Ls

theorem digitAt_zero (kb : ℕ) : digitAt 0 kb = 0 := by
  rw [digitAt, digit, Nat.zero_div, Nat.zero_mod]

theorem childRem_zero (kb : ℕ) : childRem 0 kb = 0 := by
  rw [childRem, low, Nat.zero_mod]

theorem descend_terminal {it : RawIter32} (h : Stored a fl kb e t) (hterm : ∀ form kids, t ≠ branch form kids) :
    RawIter32.descend fl a (fuel + 1) it e kb pre start = (do
      match ← LeafCur32.new fl a e kb pre start with
      | some cur => pure (true, { it with leaf := cur })
      | none => pure (false, it)) := by
  cases t with
  | null =>
    rw [h.null, RawIter32.descend, LeafCur32.new, kind_null]
    rfl
  | immed l =>
    rewrite [RawIter32.descend, h.immed.1]
    rfl
  | leaf l =>
    obtain ⟨hd, buf, rfl, -⟩ := h.leaf
    rewrite [RawIter32.descend, kind_leaf]
    rfl
  | bitmap l =>
    obtain ⟨hd, rfl, -⟩ := h.bitmap
    rewrite [RawIter32.descend, kind_bitmap]
    rfl
  | branch form kids => exact absurd rfl (hterm form kids)

/-- A descent takes the stack that it finds to the list of the subtree before it. -/
theorem descend_eq (fuel pre : ℕ) (it : RawIter32) (h : Stored a fl kb e t)
    (hdepth : it.stack.length + kb ≤ KEY_BYTES)
    (hstart : start < 256 ^ kb) (hs : StackLeft a fl it.stack S) (hf : kb < fuel) :
    ∃ found it', RawIter32.descend fl a fuel it e kb pre start = .ok (found, it') ∧
      Landed a fl found it' (under pre ((entries kb t).filter fun x => start ≤ x.1) ++ S) ∧
      (start = 0 → t ≠ null → found = true) := by
  induction fuel generalizing kb e t pre start it S with
  | zero => omega
  | succ fuel ih =>
    by_cases hterm : ∀ form kids, t ≠ branch form kids
    · obtain ⟨o, hnew, hfinds⟩ := cur_new h hterm pre start
      rw [descend_terminal h hterm, hnew, ok_bind]
      cases o with
      | none =>
        refine ⟨false, it, rfl, ?_, fun hzero hne => ?_⟩
        · rw [show under pre ((entries kb t).filter fun x => start ≤ x.1) = [] from hfinds]
          exact hs
        · have hnil := under_eq_nil.mp hfinds
          rw [List.filter_eq_self.mpr fun x _ => by simp [hzero]] at hnil
          exact absurd hnil (h.ok.held.2 hne)
      | some cur => exact ⟨true, { it with leaf := cur }, rfl, ⟨_, S, hfinds.1, hfinds.2, hs, rfl⟩,
          fun _ _ => rfl⟩
    · obtain ⟨form, kids, rfl⟩ : ∃ form kids, t = branch form kids := by
        by_contra hne
        exact hterm fun form kids heq => hne ⟨form, kids, heq⟩
      obtain ⟨m, hd, es, rfl, rfl, -, -, -, hb, hne, -⟩ := h.branch
      obtain ⟨m', hm, hchild⟩ := childAtOrAfter_eq h (digit_lt' start (m + 1))
      obtain rfl : m = m' := by omega
      rw [RawIter32.descend, kind_branch, entries_branch]
      dsimp only
      rcases hchild with ⟨hnil, hread⟩ | ⟨d, c, ec, ys, hys, hread, hst⟩
      · have hempty := filter_fanout_nil (r := childRem start (m + 1)) hb.narrow hnil
        rw [← eq_digit_child hstart] at hempty
        rw [hread, ok_bind, hempty]
        refine ⟨false, it, rfl, hs, fun hzero _ => ?_⟩
        rw [hzero, digitAt_zero, List.filter_eq_self.mpr fun x _ => by simp] at hnil
        exact absurd hnil hne
      · obtain ⟨hdig, hmem, hrest⟩ := hb.sorted.filter_cons hys
        have hfan := filter_fanout hb.sorted hb.narrow (childRem_lt start m) hys
        rw [← eq_digit_child hstart] at hfan
        have hnarrow := hb.narrow (d, c) hmem
        have hframe : StackLeft a fl (⟨.branch form hd, m + 1, pre, d + 1⟩ :: it.stack)
            (under pre (fanout (256 ^ m) (entries m) ys) ++ S) :=
          ⟨hdepth, _, S, ⟨form, kids, m, rfl, h, by rw [hrest]⟩, hs, rfl⟩
        have hstart' : (if digitAt start (m + 1) < d then 0 else childRem start (m + 1)) < 256 ^ m := by
          split_ifs
          · exact pow_pos' m
          · exact childRem_lt start m
        rw [hread, ok_bind]
        dsimp only
        rw [if_neg (by unfold KEY_BYTES at hdepth; omega), Nat.add_sub_cancel]
        obtain ⟨found, it', hrun, hland, hfound⟩ := @ih m
          (if digitAt start (m + 1) < d then 0 else childRem start (m + 1)) _ c ec (pre ||| d * 2 ^ (8 * m))
          { it with stack := ⟨.branch form hd, m + 1, pre, d + 1⟩ :: it.stack } hst
          (by rw [List.length_cons]; omega) hstart' hframe (by omega)
        refine ⟨found, it', hrun, ?_, fun hzero _ => hfound ?_ (hb.kids (d, c) hmem).2.1⟩
        · rw [hfan, under_append, under_moved pre fun x hx => hnarrow x (List.mem_filter.mp hx).1,
            List.append_assoc]
          exact hland
        · rw [hzero, childRem_zero]
          split_ifs <;> rfl

theorem unwind_eq (fuel : ℕ) (it : RawIter32) (hs : StackLeft a fl it.stack S) (hf : it.stack.length < fuel) :
    ∃ it', RawIter32.unwind fl a fuel it = .ok it' ∧ Poised a fl it' S := by
  induction fuel generalizing it S with
  | zero => omega
  | succ fuel ih =>
    obtain ⟨st, cur⟩ := it
    cases st with
    | nil =>
      rw [show S = [] from hs]
      exact ⟨⟨[], .done⟩, rfl, [], [], rfl, rfl, rfl, fun _ => rfl⟩
    | cons f rest =>
      obtain ⟨hdepth, L₁, L₂, ⟨form, kids, m, hkb, hst, rfl⟩, hrest, rfl⟩ := hs
      rw [RawIter32.unwind]
      dsimp only
      have hpop : kids.filter (fun c => f.nextDigit ≤ c.1) = [] → ∃ it',
          RawIter32.unwind fl a fuel ⟨rest, cur⟩ = .ok it' ∧ Poised a fl it'
            (under f.pre (fanout (256 ^ m) (entries m) (kids.filter fun c => f.nextDigit ≤ c.1)) ++ L₂) := by
        intro hnil
        rw [hnil, fanout_nil]
        exact ih ⟨rest, cur⟩ hrest (by simp only [List.length_cons] at hf; simpa using hf)
      obtain ⟨m', -, -, hm, -, -, -, -, hb, -, -⟩ := hst.branch
      obtain rfl : m = m' := by omega
      by_cases hspent : f.nextDigit ≤ 255
      · obtain ⟨m', hm', hchild⟩ := childAtOrAfter_eq hst (show f.nextDigit < 256 by omega)
        obtain rfl : m = m' := by omega
        rw [if_pos hspent]
        rcases hchild with ⟨hnil, hread⟩ | ⟨d, c, ec, ys, hys, hread, hstc⟩
        · rw [hread, ok_bind]
          exact hpop hnil
        · obtain ⟨-, hmem, hys'⟩ := hb.sorted.filter_cons hys
          have hframe : StackLeft a fl ({ f with nextDigit := d + 1 } :: rest)
              (under f.pre (fanout (256 ^ m) (entries m) ys) ++ L₂) :=
            ⟨hdepth, _, L₂, ⟨form, kids, m, hkb, hst, by rw [hys']⟩, hrest, rfl⟩
          obtain ⟨found, it', hrun, hland, hfound⟩ := descend_eq FUEL (f.pre ||| d * 2 ^ (8 * m))
            ⟨{ f with nextDigit := d + 1 } :: rest, cur⟩ hstc
            (by simp only [List.length_cons]; omega) (pow_pos' m) hframe
            (by unfold FUEL KEY_BYTES at *; omega)
          obtain rfl := hfound rfl (hb.kids (d, c) hmem).2.1
          obtain ⟨Lc, Ls, hne, hcur, hstack, heq⟩ := hland
          have hall : (entries m c).filter (fun x => 0 ≤ x.1) = entries m c :=
            List.filter_eq_self.mpr fun x _ => by simp
          rw [hkb] at hrun
          rw [hread, ok_bind]
          dsimp only
          rw [hkb, Nat.add_sub_cancel, hrun, ok_bind]
          refine ⟨it', rfl, Lc, Ls, hcur, hstack, ?_, fun h => absurd h hne⟩
          rw [← heq, hys, fanout_cons, under_append, hall,
            ← under_moved f.pre (hb.narrow (d, c) hmem), List.append_assoc]
          rfl
      · have hnil : kids.filter (fun c => f.nextDigit ≤ c.1) = [] := List.filter_eq_nil_iff.mpr fun c hc => by
          have := (hb.kids c hc).1
          simp only [decide_eq_true_eq]
          omega
        rw [if_neg hspent]
        exact hpop hnil

theorem iter_new (h : Stored a fl KEY_BYTES e t) (hstart : start < 256 ^ KEY_BYTES) :
    ∃ it, RawIter32.new fl a e KEY_BYTES start = .ok it ∧
      IterLeft a fl it ((entries KEY_BYTES t).filter fun x => start ≤ x.1) := by
  obtain ⟨found, it, hrun, hland, -⟩ := descend_eq FUEL 0 ⟨[], .done⟩ (S := []) h
    le_rfl hstart rfl (by decide)
  rw [under_zero, List.append_nil] at hland
  rw [RawIter32.new, hrun, ok_bind]
  cases found with
  | true =>
    obtain ⟨Lc, Ls, -, hcur, hstack, heq⟩ := hland
    exact ⟨it, rfl, Lc, Ls, hcur, hstack, heq⟩
  | false =>
    obtain ⟨it', hun, Lc, Ls, hcur, hstack, heq, -⟩ := unwind_eq FUEL it hland
      (lt_of_le_of_lt hland.length_le (by decide))
    exact ⟨it', hun, Lc, Ls, hcur, hstack, heq⟩

theorem next_poised (fuel : ℕ) {it : RawIter32} (h : Poised a fl it L) :
    ∃ it', RawIter32.next fl a (fuel + 1) it = .ok (L.head?, it') ∧ IterLeft a fl it' L.tail := by
  obtain ⟨Lc, Ls, hcur, hstack, rfl, hspent⟩ := h
  obtain ⟨cur', hnext, hcur'⟩ := cur_next hcur
  rw [RawIter32.next, hnext, ok_bind]
  cases Lc with
  | nil =>
    have hnil := hspent rfl
    rw [hnil] at hstack
    rw [show Ls = [] from hstack]
    dsimp only [List.head?_nil]
    rw [if_pos hnil]
    exact ⟨_, rfl, [], [], hcur', by rw [hnil]; rfl, rfl⟩
  | cons x xs => exact ⟨_, rfl, xs, Ls, hcur', hstack, rfl⟩

theorem iter_next {it : RawIter32} (h : IterLeft a fl it L) :
    ∃ it', RawIter32.next fl a FUEL it = .ok (L.head?, it') ∧ IterLeft a fl it' L.tail := by
  obtain ⟨Lc, Ls, hcur, hstack, rfl⟩ := h
  by_cases hnil : Lc = [] → it.stack = []
  · exact next_poised 7 ⟨Lc, Ls, hcur, hstack, rfl, hnil⟩
  · obtain ⟨rfl, hne⟩ := Classical.not_imp.mp hnil
    obtain ⟨cur', hnext, -⟩ := cur_next hcur
    obtain ⟨it', hun, hpoised⟩ := unwind_eq FUEL { it with leaf := cur' } hstack
      (lt_of_le_of_lt hstack.length_le (by decide))
    obtain ⟨it'', hrun, hleft⟩ := next_poised 6 hpoised
    rw [show FUEL = 6 + 1 + 1 from rfl, RawIter32.next, hnext, ok_bind]
    dsimp only [List.head?_nil]
    rw [if_neg hne, hun, ok_bind]
    exact ⟨it'', hrun, hleft⟩

end Expanse.Trie32
