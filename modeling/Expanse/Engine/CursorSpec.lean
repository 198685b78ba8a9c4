import Expanse.Engine.Cursor

/-!
# Cursors refine positions in a sorted list

After a call the walker has just taken its front out of the leaf it stands in. So a
target beyond the front lies in that leaf, or beyond all it has left; the same then
holds of every frame, from the innermost outwards.
-/

namespace Expanse

open Radix SortedAssoc Edge

namespace LeafCursor

variable {V : Type} [Inhabited V] {x : ℕ × V} {c c' : LeafCursor V} {target : ℕ}

/-- The cursor has just handed out `x`. -/
def After (x : ℕ × V) (c : LeafCursor V) : Prop :=
  match c with
  | linear cols kb _ _ pre =>
    x.1 / 256 ^ kb = pre / 256 ^ kb ∧ x :: c.left .forward <:+ shift pre cols.entries
  | bitmapSet _ _ pre => x.1 / 256 = pre / 256
  | bitmapMap node _ _ _ pre =>
    x.1 / 256 = pre / 256 ∧ x :: c.left .forward <:+ shift pre node.entries
  | fullExpanse n _ => n ≤ x.1 + 1
  | _ => True

omit [Inhabited V] in
theorem div_of_mem {B p : ℕ} {l : List (ℕ × V)} (hB : 0 < B) (hp : B ∣ p) (hl : ∀ e ∈ l, e.1 < B)
    (hx : x ∈ shift p l) : x.1 / B = p / B := by
  obtain ⟨y, hy, rfl⟩ := List.mem_map.mp hx
  obtain ⟨q, rfl⟩ := hp
  change (B * q + y.1) / B = B * q / B
  rw [Nat.mul_add_div hB, Nat.div_eq_of_lt (hl y hy), Nat.mul_div_cancel_left _ hB]
  rfl

omit [Inhabited V] in
theorem shift_suffix {n : ℕ} {l l' : List (ℕ × V)} (h : l <:+ l') : shift n l <:+ shift n l' := by
  obtain ⟨t, rfl⟩ := h
  exact ⟨shift n t, (List.map_append ..).symm⟩

omit [Inhabited V] in
theorem bitmapMapNext_node {node : Ranked V} {pre n sub word rank : ℕ}
    (h : bitmapMapNext node pre n sub word rank = .ok (some (x, c))) :
    ∃ s w r, c = bitmapMap node s w r pre := by
  induction n generalizing sub word rank with
  | zero => cases h
  | succ n ih =>
    rw [bitmapMapNext] at h
    split at h
    · split at h
      · cases h
        exact ⟨_, _, _, rfl⟩
      · cases h
    · exact ih h

omit [Inhabited V] in
theorem rows_suffix {node : Ranked V} {sub rank : ℕ} (hs : sub < 8) :
    (node.row sub).drop rank ++ (List.range' (sub + 1) (7 - sub)).flatMap node.row <:+
      node.entries := by
  have h : node.entries = _ := entries_split (d := 32 * sub) (by omega)
  rw [show 32 * sub / 32 = sub by omega] at h
  rw [h]
  exact (Iter.append_suffix_append (List.drop_suffix _ _) _).trans (List.suffix_append _ _)

/-- Taking an entry out of a leaf leaves the cursor just after it. -/
theorem after_step (hok : c.Ok .forward) (hl : c.left .forward = x :: c'.left .forward)
    (hs : c.step .forward = .ok (some (x, c'))) : After x c' := by
  change c.next = _ at hs
  cases c with
  | empty => cases hs
  | rootLeaf cols idx =>
    rw [next] at hs
    split_ifs at hs
    · cases hr : read cols idx with
      | error f => rw [hr] at hs; cases hs
      | ok y => rw [hr] at hs; cases hs; trivial
    · cases hs
  | linear cols kb pop idx pre =>
    rw [next] at hs
    split_ifs at hs
    · cases hr : read cols idx with
      | error f => rw [hr] at hs; cases hs
      | ok y =>
        rw [hr] at hs
        obtain ⟨hp, -, -, hdvd⟩ := hok
        have hsuf : x :: c'.left .forward <:+ shift pre cols.entries := by
          rw [← hl]
          exact shift_suffix (Direction.forward.rest_suffix idx cols.entries)
        have hdiv : x.1 / 256 ^ kb = pre / 256 ^ kb :=
          div_of_mem (pow_pos' kb) hdvd (fun e he => hp.bound e.1 (Columns.mem_keys (v := e.2) he))
            (hsuf.subset List.mem_cons_self)
        cases hs
        exact ⟨hdiv, hsuf⟩
    · cases hs
  | bitmapSet bits wordIdx pre =>
    rw [next] at hs
    split at hs
    · rename_i d hd
      cases hs
      have hd' : d < 256 := by
        rw [Bitmap.nextSet_eq] at hd
        exact (Bitmap.mem_digits.mp (List.mem_of_mem_filter (List.mem_of_mem_head? hd))).1
      obtain ⟨⟨q, rfl⟩, -⟩ := hok
      change (256 * q + d) / 256 = 256 * q / 256
      omega
    · cases hs
  | bitmapMap node sub word rank pre =>
    obtain ⟨hdvd, hno, hsub, -⟩ := hok
    have hsuf : x :: c'.left .forward <:+ shift pre node.entries := by
      rw [← hl]
      exact shift_suffix (rows_suffix hsub)
    have hdiv : x.1 / 256 = pre / 256 := div_of_mem (by decide) hdvd
      (fun e he => Ranked.get_bound hno ((Ranked.mem_entries hno).mp he))
      (hsuf.subset List.mem_cons_self)
    obtain ⟨s, w, r, rfl⟩ := bitmapMapNext_node hs
    exact ⟨hdiv, hsuf⟩
  | immedSingle key value done =>
    rw [next] at hs
    split_ifs at hs
    · cases hs
    · cases hs
      trivial
  | immedMulti keys values idx =>
    rw [next] at hs
    cases hk : (keys.zip values)[idx]? with
    | none => rw [hk] at hs; cases hs
    | some y => rw [hk] at hs; cases hs; trivial
  | fullExpanse n m =>
    rw [next] at hs
    split_ifs at hs
    · cases hs
      exact le_rfl
    · cases hs

/-- What a search in the leaf comes to: the cursor moved to what is left from the target on, or
nothing is. -/
def Found (target : ℕ) (c : LeafCursor V) (r : Bool × LeafCursor V) : Prop :=
  if r.1 then
    r.2.Ok .forward ∧ r.2.left .forward = (c.left .forward).filter (target ≤ ·.1) ∧
      r.2.left .forward ≠ [] ∧ r.2.inTree = c.inTree ∧ r.2.fullMax = c.fullMax
  else (c.left .forward).filter (target ≤ ·.1) = []

omit [Inhabited V] in
/-- Entries above the target's block all stay. -/
theorem filter_all {l : List (ℕ × V)} (h : ∀ e ∈ l, target ≤ e.1) : l.filter (target ≤ ·.1) = l := by
  rw [List.filter_eq_self]
  intro e he
  exact decide_eq_true (h e he)

omit [Inhabited V] in
theorem filter_none {l : List (ℕ × V)} (h : ∀ e ∈ l, e.1 < target) :
    l.filter (target ≤ ·.1) = [] := by
  rw [List.filter_eq_nil_iff]
  intro e he
  have := h e he
  simp only [decide_eq_true_eq]
  omega

omit [Inhabited V] in
theorem not_lt_div {B p : ℕ} (hx : x.1 / B = p / B) (ht : x.1 < target) : ¬ target / B < p / B := by
  have := Nat.div_le_div_right (c := B) ht.le
  omega

theorem found_linear {cols : Columns V} {kb pop idx pre : ℕ}
    (hok : (linear cols kb pop idx pre : LeafCursor V).Ok .forward)
    (ha : After x (linear cols kb pop idx pre)) (ht : x.1 < target) :
    Found target (linear cols kb pop idx pre) ((linear cols kb pop idx pre).seekForward target) := by
  obtain ⟨hp, rfl, hidx, hdvd⟩ := hok
  obtain ⟨hdiv, hsuf⟩ := ha
  have hb : ∀ e ∈ cols.entries, e.1 < 256 ^ kb := fun e he =>
    hp.bound e.1 (Columns.mem_keys (v := e.2) he)
  have hwhole := filter_suffix (keySorted_shift hp.keySorted) hsuf ht
  have hfilter := filter_shift_from (s := target) (pow_pos' kb) hdvd hb
  rw [seekForward, if_neg (not_lt_div hdiv ht)]
  rw [if_neg (not_lt_div hdiv ht)] at hfilter
  by_cases hlt : pre / 256 ^ kb < target / 256 ^ kb
  · rw [if_pos hlt]
    rw [if_pos hlt] at hfilter
    exact hwhole.symm.trans hfilter
  · rw [if_neg hlt]
    rw [if_neg hlt] at hfilter
    have hfrom := Direction.forward.rest_lowerBound hp.keySorted (target % 256 ^ kb)
    rw [Direction.rest, Direction.restKeys, Columns.map_fst_entries] at hfrom
    rw [← hfrom, hwhole] at hfilter
    dsimp only
    by_cases hsize : cols.size ≤ lowerBound cols.keys (low target kb)
    · rw [if_pos hsize, Found, if_neg (by simp), hfilter]
      rw [List.drop_eq_nil_of_le (by rw [Columns.length_entries]; exact hsize)]
      rfl
    · have hle : lowerBound cols.keys (low target kb) < cols.size := not_le.mp hsize
      have hne : (left .forward (linear cols kb cols.size idx pre)).filter (target ≤ ·.1) ≠ [] := by
        rw [hfilter, Ne, shift, List.map_eq_nil_iff, List.drop_eq_nil_iff, Columns.length_entries]
        exact not_le.mpr hle
      have hdrop := filter_drop hp.keySorted idx (target % 256 ^ kb)
      rw [Columns.map_fst_entries] at hdrop
      have hleft : (left .forward (linear cols kb cols.size idx pre)).filter (target ≤ ·.1) =
          shift pre (cols.entries.drop (max idx (lowerBound cols.keys (low target kb)))) := by
        rw [left, Direction.rest, filter_shift_from (pow_pos' kb) hdvd
          (fun e he => hb e (List.mem_of_mem_drop he)),
          if_neg hlt, if_neg (not_lt_div hdiv ht)]
        exact congrArg (shift pre) hdrop
      have hmax : (if idx < lowerBound cols.keys (low target kb) then
          lowerBound cols.keys (low target kb) else idx) =
          max idx (lowerBound cols.keys (low target kb)) := by
        split_ifs <;> omega
      rw [if_neg hsize, Found, if_pos rfl, hmax]
      refine ⟨⟨hp, rfl, by omega, hdvd⟩, hleft.symm, ?_, rfl, rfl⟩
      rw [hleft] at hne
      exact hne

theorem found_bitmapSet {bits wordIdx pre : ℕ}
    (hok : (bitmapSet bits wordIdx pre : LeafCursor V).Ok .forward)
    (ha : After x (bitmapSet bits wordIdx pre)) (ht : x.1 < target) :
    Found target (bitmapSet bits wordIdx pre : LeafCursor V)
      ((bitmapSet bits wordIdx pre).seekForward target) := by
  obtain ⟨hdvd, hword⟩ := hok
  have hdiv : x.1 / 256 = pre / 256 := ha
  have hb : ∀ e ∈ (Bitmap.digits bits).map fun d => (d, (default : V)), e.1 < 256 := by
    intro e he
    obtain ⟨d, hd, rfl⟩ := List.mem_map.mp he
    exact (Bitmap.mem_digits.mp hd).1
  have hshift : left .forward (bitmapSet bits wordIdx pre : LeafCursor V) =
      shift pre ((Bitmap.digits bits).map fun d => (d, default)) := by
    rw [left, shift, List.map_map]
    rfl
  have hfilter := filter_shift_from (s := target) (by decide) hdvd hb
  rw [← hshift, if_neg (not_lt_div hdiv ht)] at hfilter
  rw [seekForward, if_neg (not_lt_div hdiv ht)]
  by_cases hlt : pre / 256 < target / 256
  · rw [if_pos hlt]
    rw [if_pos hlt] at hfilter
    exact hfilter
  · rw [if_neg hlt]
    rw [if_neg hlt, List.filter_map] at hfilter
    have hkept := Bitmap.digits_keepFrom bits (target % 256)
    have hnext : Bitmap.nextSet (Bitmap.keepFrom bits (target % 256)) (64 * (target % 256 / 64)) =
        ((Bitmap.digits bits).filter (target % 256 ≤ ·)).head? := by
      rw [Bitmap.nextSet_eq, hkept, List.filter_filter]
      congr 1
      apply List.filter_congr
      intro d _
      by_cases h : target % 256 ≤ d
      · simp only [h, decide_true, Bool.and_true, decide_eq_true_eq]
        omega
      · simp [h]
    dsimp only
    rw [hnext]
    split_ifs with hnone
    · rw [Found, if_neg (by simp), hfilter]
      rw [Option.isNone_iff_eq_none, List.head?_eq_none_iff] at hnone
      change shift pre (List.map _ ((Bitmap.digits bits).filter (target % 256 ≤ ·))) = []
      rw [hnone]
      rfl
    · have hne : (Bitmap.digits bits).filter (target % 256 ≤ ·) ≠ [] := by
        intro hnil
        rw [hnil] at hnone
        exact hnone rfl
      have hleft : left .forward (bitmapSet (Bitmap.keepFrom bits (target % 256))
          (target % 256 / 64) pre : LeafCursor V) =
          (left .forward (bitmapSet bits wordIdx pre : LeafCursor V)).filter (target ≤ ·.1) := by
        rw [hfilter, left, hkept, shift, List.map_map]
        rfl
      rw [Found, if_pos rfl]
      refine ⟨⟨hdvd, ?_⟩, hleft, ?_, rfl, rfl⟩
      · intro d hd
        rw [hkept, List.mem_filter, decide_eq_true_eq] at hd
        have := hd.2
        omega
      · rw [left, hkept, Ne, List.map_eq_nil_iff]
        exact hne

omit [Inhabited V] in
theorem scan_bound {node : Ranked V} {sub word rank d : ℕ} (hno : node.Ok) (hsub : sub < 8)
    (hscan : ScanOk .forward node sub word rank)
    (hd : d / 32 < sub ∨ d / 32 = sub ∧ (Bitmap.lowestBit word).all (d % 32 < ·) = true) :
    ∀ e ∈ (node.row sub).drop rank ++ (List.range' (sub + 1) (7 - sub)).flatMap node.row,
      d ≤ e.1 := by
  intro e he
  rcases List.mem_append.mp he with he | he
  · have hdrop : e.1 ∈ (Bitmap.subDigits node.bits sub).drop rank := by
      rw [← Ranked.row_keys hno hsub, ← List.map_drop]
      exact List.mem_map_of_mem he
    rw [← hscan] at hdrop
    obtain ⟨b, hb, hbe⟩ := List.mem_map.mp hdrop
    have hbe : 32 * sub + b = e.1 := hbe
    rcases hd with hd | ⟨hd, hlow⟩
    · omega
    · rw [Bitmap.lowestBit_eq] at hlow
      cases hw : Bitmap.wordBits word with
      | nil =>
        rw [hw] at hb
        cases hb
      | cons b₀ bs =>
        have hsorted := Bitmap.wordBits_sorted word
        rw [hw] at hlow hb hsorted
        have hlt : d % 32 < b₀ := by simpa using hlow
        rcases List.mem_cons.mp hb with rfl | hb
        · omega
        · have := (List.pairwise_cons.mp hsorted).1 b hb
          omega
  · obtain ⟨s, hs, he⟩ := List.mem_flatMap.mp he
    obtain ⟨h1, h2⟩ := List.mem_range'_1.mp hs
    have hm : e.1 ∈ Bitmap.subDigits node.bits s := by
      rw [← Ranked.row_keys hno (show s < 8 by omega)]
      exact List.mem_map_of_mem he
    rw [Bitmap.subDigits_eq] at hm
    obtain ⟨b, -, hbe⟩ := List.mem_map.mp hm
    have hbe : 32 * s + b = e.1 := hbe
    rcases hd with hd | ⟨hd, -⟩ <;> omega

theorem found_bitmapMap {node : Ranked V} {sub word rank pre : ℕ}
    (hok : (bitmapMap node sub word rank pre : LeafCursor V).Ok .forward)
    (ha : After x (bitmapMap node sub word rank pre)) (ht : x.1 < target) :
    Found target (bitmapMap node sub word rank pre)
      ((bitmapMap node sub word rank pre).seekForward target) := by
  obtain ⟨hdvd, hno, hsub, hscan⟩ := hok
  obtain ⟨hdiv, hsuf⟩ := ha
  have hb : ∀ e ∈ node.entries, e.1 < 256 := fun e he =>
    Ranked.get_bound hno ((Ranked.mem_entries hno).mp he)
  have hwhole := filter_suffix (keySorted_shift (Ranked.entries_sorted hno)) hsuf ht
  have hfilter := filter_shift_from (s := target) (by decide) hdvd hb
  rw [if_neg (not_lt_div hdiv ht), hwhole] at hfilter
  rw [seekForward, if_neg (not_lt_div hdiv ht)]
  by_cases hlt : pre / 256 < target / 256
  · rw [if_pos hlt]
    rw [if_pos hlt] at hfilter
    exact hfilter
  · rw [if_neg hlt]
    rw [if_neg hlt] at hfilter
    have heq : pre / 256 = target / 256 := by
      have := not_lt_div hdiv ht
      omega
    obtain ⟨hnone, hsome⟩ := filter_nextSet (t := target % 256) hno
    cases hn : Bitmap.nextSet node.bits (target % 256) with
    | none =>
      rw [hnone hn] at hfilter
      exact hfilter
    | some fd =>
      obtain ⟨hfd, hbit, hsame⟩ := hsome fd hn
      rw [hsame] at hfilter
      have hmem : (pre + fd, (node.get fd).getD default) ∈
          shift pre (node.entries.filter (fd ≤ ·.1)) := by
        obtain ⟨v, hv⟩ := Option.isSome_iff_exists.mp ((Ranked.get_isSome hno).mpr hbit)
        refine List.mem_map.mpr ⟨(fd, v), List.mem_filter.mpr ⟨?_, by simp⟩, by rw [hv]; rfl⟩
        exact (Ranked.mem_entries hno).mpr hv
      have hne : (left .forward (bitmapMap node sub word rank pre)).filter (target ≤ ·.1) ≠ [] := by
        rw [hfilter]
        exact List.ne_nil_of_mem hmem
      dsimp only
      split_ifs with hguard
      · have hall : ∀ e ∈ left .forward (bitmapMap node sub word rank pre), target ≤ e.1 := by
          intro e he
          obtain ⟨y, hy, rfl⟩ := List.mem_map.mp he
          have h1 := scan_bound hno hsub hscan hguard y hy
          have h2 : target % 256 ≤ fd := by
            rw [Bitmap.nextSet_eq] at hn
            exact of_decide_eq_true (List.mem_filter.mp (List.mem_of_mem_head? hn)).2
          change target ≤ pre + y.1
          obtain ⟨q, rfl⟩ := hdvd
          omega
        rw [filter_all hall] at hne
        rw [Found, if_pos rfl, filter_all hall]
        exact ⟨⟨hdvd, hno, hsub, hscan⟩, rfl, hne, rfl, rfl⟩
      · have hleft : left .forward (bitmapMap node (fd / 32)
            (Bitmap.keepFrom (Bitmap.subWord node.bits (fd / 32)) (fd % 32))
            (Bitmap.subexpanseRank node.bits fd) pre) =
            (left .forward (bitmapMap node sub word rank pre)).filter (target ≤ ·.1) := by
          rw [hfilter, entries_from hno hfd]
          rfl
        rw [Found, if_pos rfl]
        refine ⟨⟨hdvd, hno, by omega, ?_⟩, hleft, by rw [hleft]; exact hne, rfl, rfl⟩
        rw [ScanOk, Bitmap.subDigits_keepFrom, show 32 * (fd / 32) + fd % 32 = fd by omega,
          Bitmap.subexpanseRank_eq, drop_lowerBound (Bitmap.subDigits_sorted _ _)]

omit [Inhabited V] in
theorem drop_findIdx {keys : List ℕ} (hs : keys.Pairwise (· < ·)) :
    keys.findIdx (target ≤ ·) = lowerBound keys target := by
  induction keys with
  | nil => rfl
  | cons k ks ih =>
    rw [List.findIdx_cons, lowerBound, ih (List.Pairwise.of_cons hs)]
    by_cases h : target ≤ k
    · simp [h]
    · simp [h]

theorem found_immedMulti {keys : List ℕ} {values : List V} {idx : ℕ}
    (hok : (immedMulti keys values idx : LeafCursor V).Ok .forward) :
    Found target (immedMulti keys values idx) ((immedMulti keys values idx).seekForward target) := by
  obtain ⟨hs, hlen, hidx⟩ := hok
  have hfst : (keys.zip values).map Prod.fst = keys := List.map_fst_zip hlen.le
  have hsorted : KeySorted (keys.zip values) := keySorted_iff.mpr (by rwa [hfst])
  have hrest := Direction.forward.rest_lowerBound (hsorted.sublist (List.drop_sublist idx _)) target
  rw [Direction.rest, Direction.restKeys, List.map_drop, hfst, List.drop_drop] at hrest
  rw [seekForward, drop_findIdx (hs.sublist (List.drop_sublist _ _))]
  split_ifs with hle
  · rw [Found, if_neg (by simp)]
    change ((keys.zip values).drop idx).filter _ = []
    rw [← hrest, List.drop_eq_nil_of_le]
    rw [List.length_zip, ← hlen, Nat.min_self]
    exact hle
  · rw [Found, if_pos rfl]
    refine ⟨⟨hs, hlen, by omega⟩, hrest, ?_, rfl, rfl⟩
    rw [left, Direction.rest, Ne, List.drop_eq_nil_iff, List.length_zip, ← hlen, Nat.min_self]
    exact hle

theorem seekForward_found (hok : c.Ok .forward) (ha : After x c) (ht : x.1 < target)
    (htree : c.inTree = true) : Found target c (c.seekForward target) := by
  cases c with
  | empty => cases htree
  | rootLeaf cols idx => cases htree
  | linear cols kb pop idx pre => exact found_linear hok ha ht
  | bitmapSet bits wordIdx pre => exact found_bitmapSet hok ha ht
  | bitmapMap node sub word rank pre => exact found_bitmapMap hok ha ht
  | immedSingle key value done =>
    rw [seekForward, Found]
    cases done with
    | true => rfl
    | false =>
      by_cases hk : target ≤ key
      · simp [hk, left, Ok]
      · simp [hk, left]
  | immedMulti keys values idx => exact found_immedMulti hok
  | fullExpanse n m =>
    have hn : n ≤ x.1 + 1 := ha
    have hmax : (if n < target then target else n) = target := by
      split_ifs <;> omega
    rw [seekForward, hmax]
    split_ifs with hm
    · rw [Found, if_neg (by simp)]
      refine filter_none fun e he => ?_
      obtain ⟨k, hk, rfl⟩ := List.mem_map.mp he
      have := (List.mem_range'_1.mp hk).2
      change k < target
      omega
    · rw [Found, if_pos rfl]
      refine ⟨trivial, ?_, ?_, rfl, rfl⟩
      · rw [left, left, List.filter_map, Direction.order, Direction.order]
        change _ = List.map _ ((List.range' n (m + 1 - n)).filter (target ≤ ·))
        rw [filter_range', show max target n = target by omega,
          show n + (m + 1 - n) - target = m + 1 - target by omega]
      · rw [left, Ne, List.map_eq_nil_iff, Direction.order, List.range'_eq_nil_iff]
        omega

end LeafCursor

namespace Iter

variable {V : Type} [Inhabited V] {fl : Flavour} {full : Bool} {all inner : List (ℕ × V)}
  {top : Edge V} {it : Iter V} {leaf : LeafCursor V} {stack : List (Frame V)} {x : ℕ × V}
  {target : ℕ}

/-- What a cursor over a tree keeps of its root. -/
def RootOf (fl : Flavour) (full : Bool) (all : List (ℕ × V)) (top : Edge V) : Prop :=
  Rooted fl full top ∧ all = entries 8 top

variable (leaf) in
theorem climb_spec (hV : fl = .set → ∀ v : V, v = default) (hroot : RootOf fl full all top)
    (hs : StackOk .forward fl full stack) (hn : Nested .forward all (x :: inner) stack)
    (hx : x.1 < target) (ht : target < 256 ^ 8) (hinner : inner.filter (target ≤ ·.1) = []) :
    ∃ it', climb fl top target leaf stack = .ok it' ∧ Walking .forward fl full all it' ∧
      it'.left .forward = (stackLeft .forward stack).filter (target ≤ ·.1) := by
  induction stack generalizing inner with
  | nil =>
    obtain ⟨hroot, rfl⟩ := hroot
    have hall : (entries 8 top).filter (target ≤ ·.1) = [] := by
      rw [filter_suffix hroot.readable.sorted hn hx, hinner]
    obtain ⟨it', hit, harr⟩ := seek_spec hV .empty target (hroot.entry .forward)
    obtain ⟨it'', hit', hw, hl⟩ := orAdvance_spec hV harr
    have hnull : Nullable.isNull top = false := by
      cases hc : Nullable.isNull top with
      | false => rfl
      | true => exact absurd ((Nullable.isNull_iff top).mp hc) hroot.ne_null
    refine ⟨it'', ?_, hw, ?_⟩
    · rw [climb, hnull, hit]
      exact hit'
    · rw [hl, shift_zero, hall]
      rfl
  | cons f rest ih =>
    obtain ⟨hf, hb, hs⟩ := hs
    obtain ⟨hsuf, hn⟩ := hn
    have hsuf : x :: (inner ++ f.left .forward) <:+ f.whole .forward := hsuf
    have hwhole : ∀ y ∈ f.whole .forward, y.1 / 256 ^ f.level = f.pre / 256 ^ f.level := by
      intro y hy
      obtain ⟨d, c, hc, hy⟩ := hf.mem_whole hy
      exact (hc.parts hf.place hy).1
    have hxdiv := hwhole x (hsuf.subset List.mem_cons_self)
    have hsorted : KeySorted (f.whole .forward) := by
      have hall : KeySorted all := hroot.2 ▸ hroot.1.readable.sorted
      exact hall.sublist ((List.sublist_append_left _ _).trans hn.left_suffix.sublist)
    have hfilter : (f.whole .forward).filter (target ≤ ·.1) = (f.left .forward).filter (target ≤ ·.1) := by
      rw [filter_suffix hsorted hsuf hx, List.filter_append, hinner]
      rfl
    -- nothing of this frame is left from the target on
    have hpop : (f.whole .forward).filter (target ≤ ·.1) = [] →
        ∃ it', climb fl top target leaf rest = .ok it' ∧ Walking .forward fl full all it' ∧
          it'.left .forward = (stackLeft .forward (f :: rest)).filter (target ≤ ·.1) := by
      intro hnil
      rw [hfilter] at hnil
      obtain ⟨it', hit, hw, hl⟩ := ih hs (hn.suffix hsuf) (by rw [List.filter_append, hinner, hnil]; rfl)
      refine ⟨it', hit, hw, ?_⟩
      rw [hl, stackLeft_cons, List.filter_append, hnil]
      rfl
    rw [climb]
    split_ifs with hcov
    · have he : target / 256 ^ f.level = f.pre / 256 ^ f.level := by
        rcases hcov with h8 | he
        · have h1 := hf.room
          have h2 := hf.place.le
          have h3 : f.level = 8 := by omega
          rw [h3] at h2 ⊢
          have h4 : f.pre = 0 := by omega
          rw [h4, Nat.div_eq_of_lt ht]
          rfl
        · exact he
      obtain ⟨hins, hslots⟩ := hf.filter_inside .forward he rfl
      have hins : (f.whole .forward).filter (target ≤ ·.1) = (f.entriesOf .forward
          (f.node.slots.filter (digit target f.level ≤ ·.1))).filter (target ≤ ·.1) := hins
      have hleft := Branch.slotsLeft_seek hf.readable.ok (digit target f.level)
      have hpos := Branch.seekPos_le (b := f.node) (digit_lt target f.level)
      cases hl : f.node.slots.filter (digit target f.level ≤ ·.1) with
      | nil =>
        have hslot : f.node.slotFrom (f.node.seekPos (digit target f.level)) = none :=
          Branch.slotAt_nil hf.readable.ok hpos (hleft.trans hl)
        rw [hslot]
        apply hpop
        rw [hins, hl]
        rfl
      | cons s slots =>
        obtain ⟨d, c⟩ := s
        obtain ⟨hsame, -⟩ := hslots d c slots hl
        have hf' : ({ f with pos := f.node.seekPos (digit target f.level) } : Frame V).Ok fl full
            rest.length := ⟨hf.readable, hf.level, hf.room, hf.place, hpos, hf.top⟩
        obtain ⟨pos, hslot, hleft', hsplit, hc, hentry⟩ := Entry.of_slot hf' hb hs hn
          (hleft.trans hl)
        change f.node.slotFrom _ = some (d, c, pos) at hslot
        rw [hslot]
        obtain ⟨it', hit, harr⟩ := seek_spec hV leaf target hentry
        obtain ⟨it'', hit', hw, hl'⟩ := orAdvance_spec hV harr
        refine ⟨it'', ?_, hw, ?_⟩
        · change Except.bind (descendSeek fl DESCENT_FUEL c (f.level - 1)
            (f.pre + d * 256 ^ (f.level - 1)) target ⟨leaf, { f with pos := pos } :: rest⟩) _ = _
          rw [hit]
          exact hit'
        · have hbeyond : (stackLeft .forward rest).filter (target ≤ ·.1) = stackLeft .forward rest :=
            LeafCursor.filter_all fun y hy => by
              have hy := hb y hy
              have : f.pre / 256 ^ f.level < y.1 / 256 ^ f.level := hy
              rw [← he] at this
              have hlt : Direction.forward.Before target y.1 := Frame.before_of_div this
              exact Nat.le_of_lt hlt
          have hins : (f.whole .forward).filter (target ≤ ·.1) =
              (f.childEntries .forward d c ++ f.entriesOf .forward slots).filter (target ≤ ·.1) := by
            rw [hins, hl]
            rfl
          rw [hl', stackLeft_cons, stackLeft_cons, List.filter_append, ← hfilter, hbeyond, hins,
            List.filter_append, List.append_assoc]
          congr 1
          rw [show ({ f with pos := pos } : Frame V).left .forward = f.entriesOf .forward slots from hleft']
          congr 1
          exact hsame.symm
    · apply hpop
      apply hf.filter_near .forward
      have := Nat.div_le_div_right (c := 256 ^ f.level) hx.le
      change f.pre / 256 ^ f.level < target / 256 ^ f.level
      omega

variable (top target) in
theorem seekForward_rootLeaf {cols : Columns V} {idx : ℕ} (hw : Walking .forward fl full all it)
    (hleaf : it.leaf = .rootLeaf cols idx) :
    ∃ it', it.seekForward fl top target = .ok it' ∧ Walking .forward fl full all it' ∧
      it'.left .forward = (it.left .forward).filter (target ≤ ·.1) ∧ it'.leaf.inTree = false := by
  have hstack : it.stack = [] := hw.standing.root (by rw [hleaf]; rfl) (by rw [hleaf]; rfl)
  have hok := hw.standing.leaf
  have htop := hw.standing.top rfl
  have hn := hw.standing.nested
  rw [hleaf] at hok htop
  rw [hstack, hleaf] at hn
  obtain ⟨hp, hidx⟩ := hok
  have hleft : it.left .forward = cols.entries.drop idx := by
    rw [left, hleaf, hstack]
    exact List.append_nil _
  have hfilter := filter_drop hp.keySorted idx target
  rw [Columns.map_fst_entries] at hfilter
  rw [hleft, hfilter, seekForward, hleaf]
  dsimp only
  by_cases hsize : cols.size ≤ lowerBound cols.keys target
  · rw [if_pos hsize, hstack]
    refine ⟨_, rfl, walking_end, ?_, rfl⟩
    rw [List.drop_eq_nil_of_le (by rw [Columns.length_entries]; omega)]
    rfl
  · rw [if_neg hsize]
    by_cases hlt : idx < lowerBound cols.keys target
    · rw [if_pos hlt, hstack, Nat.max_eq_right hlt.le]
      have hsuf : cols.entries.drop (lowerBound cols.keys target) <:+ cols.entries.drop idx := by
        obtain ⟨n, hn⟩ := Nat.exists_eq_add_of_lt hlt
        rw [hn, Nat.add_assoc, ← List.drop_drop]
        exact List.drop_suffix _ _
      refine ⟨_, rfl, ⟨⟨⟨hp, by omega⟩, ?_, trivial, ?_, fun _ _ => rfl⟩, fun hc => (by cases hc)⟩,
        List.append_nil _, rfl⟩
      · intro _
        refine ⟨fun m hm => (by cases hm), fun hm => (by cases hm), ?_⟩
        intro hf v hv
        have := htop.of_full hf v (hsuf.subset hv)
        cases this
      · exact hsuf.trans hn
    · rw [if_neg hlt, Nat.max_eq_left (by omega)]
      exact ⟨it, rfl, hw, hleft, by rw [hleaf]; rfl⟩

/-- A search in the current leaf that finds something. -/
theorem walking_found (hw : Walking .forward fl full all it) (hsorted : KeySorted all)
    (htree : it.leaf.inTree = true) (hok : leaf.Ok .forward)
    (hl : leaf.left .forward = (it.leaf.left .forward).filter (target ≤ ·.1))
    (hne : leaf.left .forward ≠ []) (ht : leaf.inTree = it.leaf.inTree)
    (hm : leaf.fullMax = it.leaf.fullMax) :
    Walking .forward fl full all ⟨leaf, it.stack⟩ ∧
      (⟨leaf, it.stack⟩ : Iter V).left .forward = (it.left .forward).filter (target ≤ ·.1) := by
  have hall := hw.sorted hsorted
  rw [left, List.pairwise_append] at hall
  have hsuf : leaf.left .forward <:+ it.leaf.left .forward := by
    rw [hl]
    exact Direction.forward.restKeys_suffix hall.1 target
  have htop := hw.standing.top rfl
  obtain ⟨z, zs, hz⟩ := List.exists_cons_of_ne_nil hne
  have hzm : z ∈ leaf.left .forward := hz ▸ List.mem_cons_self
  have hzt : target ≤ z.1 := by
    rw [hl, List.mem_filter, decide_eq_true_eq] at hzm
    exact hzm.2
  refine ⟨⟨⟨hok, fun _ => ⟨?_, ?_, ?_⟩, hw.standing.stack, hw.standing.nested.suffix hsuf, ?_⟩, ?_⟩, ?_⟩
  · intro m hc
    exact htop.bound m (hm ▸ hc)
  · intro hc
    exact htop.full_of (hm ▸ hc)
  · intro hf v hv
    rw [hm]
    exact htop.of_full hf v (hsuf.subset hv)
  · intro _ hc
    change leaf.inTree = false at hc
    rw [ht, htree] at hc
    cases hc
  · intro hc
    change leaf.isEmpty = true at hc
    rw [isEmpty_of_left hz] at hc
    cases hc
  · rw [left, left, List.filter_append, hl]
    congr 1
    refine (LeafCursor.filter_all fun y hy => ?_).symm
    have : z.1 < y.1 := hall.2.2 z (hsuf.subset hzm) y hy
    omega

theorem seekForward_spec (hV : fl = .set → ∀ v : V, v = default)
    (hw : Walking .forward fl full all it) (hsorted : KeySorted all)
    (htook : Took .forward all x it) (hroot : it.leaf.inTree = true → RootOf fl full all top)
    (hx : x.1 < target) (ht : target < 256 ^ 8) :
    ∃ it', it.seekForward fl top target = .ok it' ∧ Walking .forward fl full all it' ∧
      it'.left .forward = (it.left .forward).filter (target ≤ ·.1) ∧
      (it'.leaf.inTree = true → it.leaf.inTree = true) := by
  cases htree : it.leaf.inTree with
  | true =>
    obtain ⟨c, hc, hcl, hcs, hn⟩ := htook
    have hafter := LeafCursor.after_step hc hcl hcs
    have hfound := LeafCursor.seekForward_found hw.standing.leaf hafter hx htree
    have hseek : it.seekForward fl top target =
        if (it.leaf.seekForward target).1 then .ok ⟨(it.leaf.seekForward target).2, it.stack⟩
        else climb fl top target (it.leaf.seekForward target).2 it.stack := by
      rw [seekForward]
      cases hleaf : it.leaf with
      | empty => rw [hleaf] at htree; cases htree
      | rootLeaf cols idx => rw [hleaf] at htree; cases htree
      | _ =>
        dsimp only
        split <;> simp_all
    rw [hseek]
    rw [LeafCursor.Found] at hfound
    split_ifs at hfound ⊢ with hb
    · obtain ⟨hok, hl, hne, htr, hm⟩ := hfound
      obtain ⟨hw', hl'⟩ := walking_found hw hsorted htree hok hl hne htr hm
      exact ⟨_, rfl, hw', hl', fun _ => rfl⟩
    · obtain ⟨it', hit, hw', hl'⟩ := climb_spec (it.leaf.seekForward target).2 hV
        (hroot htree) hw.standing.stack hn hx ht hfound
      refine ⟨it', hit, hw', ?_, fun _ => rfl⟩
      rw [hl', left, List.filter_append, hfound]
      rfl
  | false =>
    cases hleaf : it.leaf with
    | rootLeaf cols idx =>
      obtain ⟨it', hit, hw', hl, htr⟩ := seekForward_rootLeaf top target hw hleaf
      exact ⟨it', hit, hw', hl, fun hc => (by rw [htr] at hc; cases hc)⟩
    | empty =>
      have hnil : it.left .forward = [] := by
        rw [left, hleaf, hw.drained (by rw [hleaf]; rfl)]
        rfl
      refine ⟨it, by rw [seekForward, hleaf], hw, by rw [hnil]; rfl, fun hc => ?_⟩
      rw [hleaf] at hc
      cases hc
    | _ =>
      rw [hleaf] at htree
      cases htree

end Iter

namespace RawCursor

variable {V : Type} [Inhabited V] {fl : Flavour} {all l : List (ℕ × V)} {c : RawCursor V}
  {raw : Iter V} {top : Edge V} {target : ℕ}

/-- The cursor stands at the head of `l`, which it has peeked. -/
structure At (fl : Flavour) (all l : List (ℕ × V)) (c : RawCursor V) : Prop where
  walking : Iter.Walking .forward fl false all c.raw
  front : c.front = l.head?
  left : c.raw.left .forward = l.tail
  took : ∀ x ∈ l.head?, Iter.Took .forward all x c.raw
  root : c.raw.leaf.inTree = true → Iter.RootOf fl false all c.top
  suffix : l <:+ all

theorem peek (hV : fl = .set → ∀ v : V, v = default) (hw : Iter.Walking .forward fl false all raw)
    (hroot : raw.leaf.inTree = true → Iter.RootOf fl false all top) (hl : raw.left .forward = l) :
    ∃ raw', raw.next fl = .ok (l.head?, raw') ∧ At fl all l ⟨raw', top, l.head?⟩ := by
  subst hl
  obtain ⟨raw', hn, hw', hl', htook, htree⟩ := Iter.nextBy_step hV hw (fun _ hc => (by cases hc)) 7
  exact ⟨raw', hn, hw', rfl, hl', htook, fun hc => hroot (htree hc), hw.standing.nested.left_suffix⟩

theorem new_spec (hV : fl = .set → ∀ v : V, v = default)
    (hw : Iter.Walking .forward fl false all raw)
    (hroot : raw.leaf.inTree = true → Iter.RootOf fl false all top) :
    ∃ c, new fl raw top = .ok c ∧ At fl all (raw.left .forward) c := by
  obtain ⟨raw', hn, hat⟩ := peek hV hw hroot rfl
  exact ⟨_, by rw [new, hn]; rfl, hat⟩

theorem next_spec (hV : fl = .set → ∀ v : V, v = default) (h : At fl all l c) :
    ∃ c', c.next fl = .ok (l.head?, c') ∧ At fl all l.tail c' := by
  obtain ⟨raw', hn, hat⟩ := peek hV h.walking h.root h.left
  exact ⟨_, by rw [next, hn, h.front]; rfl, hat⟩

theorem advanceTo_spec (hV : fl = .set → ∀ v : V, v = default) (h : At fl all l c)
    (hs : KeySorted all) (ht : target < 256 ^ 8) :
    ∃ c', c.advanceTo fl target = .ok ((l.filter (target ≤ ·.1)).head?, c') ∧
      At fl all (l.filter (target ≤ ·.1)) c' := by
  have hfront := h.front
  rw [advanceTo, hfront]
  cases hl : l with
  | nil =>
    rw [hl] at h
    exact ⟨c, rfl, h⟩
  | cons x xs =>
    have hsl : KeySorted (x :: xs) := hl ▸ hs.sublist h.suffix.sublist
    dsimp only [List.head?_cons]
    split_ifs with hx
    · have hall : (x :: xs).filter (target ≤ ·.1) = x :: xs := by
        refine LeafCursor.filter_all fun y hy => ?_
        rcases List.mem_cons.mp hy with rfl | hy
        · exact hx
        · have := (List.pairwise_cons.mp hsl).1 y hy
          omega
      rw [hall]
      rw [hl] at h
      exact ⟨c, rfl, h⟩
    · have hx : x.1 < target := not_le.mp hx
      rw [hl] at h
      obtain ⟨raw, hseek, hw, hleft, htree⟩ := Iter.seekForward_spec hV h.walking hs
        (h.took x rfl) h.root hx ht
      rw [h.left] at hleft
      obtain ⟨raw', hn, hat⟩ := peek hV hw (fun hc => h.root (htree hc)) hleft
      rw [hseek, List.filter_cons_of_neg (by simpa using hx)]
      exact ⟨_, by dsimp only; rw [hn]; rfl, hat⟩

end RawCursor

end Expanse
