import Expanse.Trie32.BitmapSpec
import Expanse.Trie32.Branch

/-!
# What the branch edits do

A branch node is determined by its form, level, count and list of children. Reading it
gives the list back, and every edit turns the node of a list into the node of the edited
list, whatever the form and the walk. The operations on the arena then only differ in the
form that they end with.
-/

namespace Expanse.Trie32

open Arrays Bitmap SortedAssoc

/-- Children as a branch keeps them: digits ascending, no null edge. -/
structure Kids (es : List (ℕ × Edge32)) : Prop where
  sorted : KeySorted es
  bound : ∀ e ∈ es, e.1 < 256
  live : ∀ e ∈ es, e.2 ≠ .null

variable {form : Form} {level count d keys : ℕ} {c c' : Edge32} {es l₁ l₂ : List (ℕ × Edge32)}
  {shared : Bool}

theorem Kids.of_cut (h : Kids (l₁ ++ (d, c) :: l₂)) : Kids (l₁ ++ l₂) ∧ CutAt d l₁ l₂ ∧ d < 256 := by
  obtain ⟨-, -, hcut⟩ := h.sorted.of_cut
  have hsub : (l₁ ++ l₂).Sublist (l₁ ++ (d, c) :: l₂) :=
    (List.Sublist.refl l₁).append (List.sublist_cons_self _ l₂)
  exact ⟨⟨h.sorted.sublist hsub, fun e he => h.bound e (hsub.subset he),
    fun e he => h.live e (hsub.subset he)⟩, hcut, h.bound (d, c) (by simp)⟩

theorem Kids.insert (h : Kids (l₁ ++ l₂)) (hcut : CutAt d l₁ l₂) (hd : d < 256) (hc : c ≠ .null) :
    Kids (l₁ ++ (d, c) :: l₂) where
  sorted := keySorted_cut h.sorted.of_append.1 h.sorted.of_append.2 hcut c
  bound e he := by
    rcases List.mem_append.mp he with he | he
    · exact h.bound e (List.mem_append_left _ he)
    · rcases List.mem_cons.mp he with rfl | he
      · exact hd
      · exact h.bound e (List.mem_append_right _ he)
  live e he := by
    rcases List.mem_append.mp he with he | he
    · exact h.live e (List.mem_append_left _ he)
    · rcases List.mem_cons.mp he with rfl | he
      · exact hc
      · exact h.live e (List.mem_append_right _ he)

theorem Kids.replace (h : Kids (l₁ ++ (d, c) :: l₂)) (hc : c' ≠ .null) : Kids (l₁ ++ (d, c') :: l₂) :=
  h.of_cut.1.insert h.of_cut.2.1 h.of_cut.2.2 hc

@[simp] theorem nodeLevel_branchNode : nodeLevel (branchNode form level count es) = level := by
  cases form <;> rfl

@[simp] theorem nodeCount_branchNode : nodeCount (branchNode form level count es) = count := by
  cases form <;> rfl

@[simp] theorem nodeChildren_branchNode : nodeChildren (branchNode form level count es) = es.length := by
  cases form <;> rfl

section Linear

variable {cap : ℕ} (hcap : es.length ≤ cap)

include hcap in
theorem live_digits : (linearOf cap level count es).digits.take (linearOf cap level count es).numEdges =
    es.map Prod.fst := by
  have hl : (es.map Prod.fst).length ≤ cap := by rwa [List.length_map]
  have ht : (resize cap 0 (es.map Prod.fst)).take (es.map Prod.fst).length = es.map Prod.fst := take_resize hl
  rwa [List.length_map] at ht

include hcap in
theorem live_edges : (linearOf cap level count es).edges.take (linearOf cap level count es).numEdges =
    es.map Prod.snd := by
  have hl : (es.map Prod.snd).length ≤ cap := by rwa [List.length_map]
  have ht : (resize cap .null (es.map Prod.snd)).take (es.map Prod.snd).length = es.map Prod.snd :=
    take_resize hl
  rwa [List.length_map] at ht

theorem findIdx?_cut {ks₁ ks₂ : List ℕ} (h : d ∉ ks₁) :
    (ks₁ ++ d :: ks₂).findIdx? (· == d) = some ks₁.length := by
  induction ks₁ with
  | nil => simp [List.findIdx?_cons]
  | cons k ks ih =>
    rw [List.mem_cons, not_or] at h
    rw [List.cons_append, List.findIdx?_cons, ih h.2]
    simp [Ne.symm h.1]

theorem findIdx?_absent {ks : List ℕ} (h : d ∉ ks) : ks.findIdx? (· == d) = none := by
  rw [List.findIdx?_eq_none_iff]
  intro x hx
  simpa using fun he : x = d => h (he ▸ hx)

theorem linearIndex_cut (hk : Kids (l₁ ++ (d, c) :: l₂)) (hcap : (l₁ ++ (d, c) :: l₂).length ≤ cap) :
    linearIndex (linearOf cap level count (l₁ ++ (d, c) :: l₂)) d = some l₁.length := by
  obtain ⟨-, hcut, -⟩ := hk.of_cut
  unfold linearIndex
  rw [live_digits hcap, List.map_append, List.map_cons, findIdx?_cut (not_mem_keys_of_cut hcut).1,
    List.length_map]

theorem linearIndex_absent (hd : d ∉ es.map Prod.fst) (hcap : es.length ≤ cap) :
    linearIndex (linearOf cap level count es) d = none := by
  unfold linearIndex
  rw [live_digits hcap, findIdx?_absent hd]

section Padded

variable {β : Type} (f : ℕ × Edge32 → β) (x : β)

theorem getElem?_padded (hcap : (l₁ ++ (d, c) :: l₂).length ≤ cap) :
    (resize cap x ((l₁ ++ (d, c) :: l₂).map f))[l₁.length]? = some (f (d, c)) := by
  rw [resize_eq (by rwa [List.length_map]), List.map_append, List.map_cons, List.append_assoc,
    List.getElem?_append_right (by rw [List.length_map]), List.length_map, Nat.sub_self]
  rfl

theorem set_padded (hcap : (l₁ ++ (d, c) :: l₂).length ≤ cap) (c' : Edge32) :
    (resize cap x ((l₁ ++ (d, c) :: l₂).map f)).set l₁.length (f (d, c')) =
      resize cap x ((l₁ ++ (d, c') :: l₂).map f) := by
  have hlen : (l₁ ++ (d, c') :: l₂).length = (l₁ ++ (d, c) :: l₂).length := by simp
  rw [resize_eq (by rwa [List.length_map]), resize_eq (by rw [List.length_map, hlen]; exact hcap),
    List.length_map, List.length_map, hlen, List.map_append, List.map_append, List.append_assoc,
    List.append_assoc, List.set_append_right _ _ (by rw [List.length_map]), List.length_map, Nat.sub_self]
  rfl

theorem add_padded (hroom : (l₁ ++ l₂).length < cap) (c : Edge32) :
    (shiftUp l₁.length (l₁ ++ l₂).length (resize cap x ((l₁ ++ l₂).map f))).set l₁.length (f (d, c)) =
      resize cap x ((l₁ ++ (d, c) :: l₂).map f) := by
  have hl : l₁.length ≤ (l₁ ++ l₂).length := by rw [List.length_append]; omega
  have hm : ((l₁ ++ l₂).map f).length = (l₁ ++ l₂).length := List.length_map _
  have hins : ((l₁ ++ l₂).map f).insertIdx l₁.length (f (d, c)) = (l₁ ++ (d, c) :: l₂).map f := by
    rw [← map_insertIdx, insertIdx_eq_append hl, List.take_left, List.drop_left]
  have hpad : (copyWithin (resize cap x ((l₁ ++ l₂).map f)) l₁.length ((l₁ ++ l₂).map f).length
      (l₁.length + 1)).set l₁.length (f (d, c)) =
      resize cap x (((l₁ ++ l₂).map f).insertIdx l₁.length (f (d, c))) :=
    insert_padded (by rw [hm]; exact hl) (by rw [hm]; exact hroom) _
  have hlen : (resize cap x ((l₁ ++ l₂).map f)).length = cap := length_resize (by rw [hm]; omega)
  rw [shiftUp_eq (by omega) hl, ← hins, ← hpad, hm]

theorem drop_padded (hcap : (l₁ ++ (d, c) :: l₂).length ≤ cap) :
    (shiftDown 1 ((l₁ ++ (d, c) :: l₂).length - 1 - l₁.length) l₁.length
      (resize cap x ((l₁ ++ (d, c) :: l₂).map f))).set ((l₁ ++ (d, c) :: l₂).length - 1) x =
        resize cap x ((l₁ ++ l₂).map f) := by
  have hlt : l₁.length < (l₁ ++ (d, c) :: l₂).length := by
    rw [List.length_append, List.length_cons]
    omega
  have herase : ((l₁ ++ (d, c) :: l₂).map f).eraseIdx l₁.length = (l₁ ++ l₂).map f := by
    rw [List.map_append, List.map_cons, List.eraseIdx_append_of_length_le (by rw [List.length_map]),
      List.length_map, Nat.sub_self, List.map_append]
    rfl
  have hm : ((l₁ ++ (d, c) :: l₂).map f).length = (l₁ ++ (d, c) :: l₂).length := List.length_map _
  have hlen : (resize cap x ((l₁ ++ (d, c) :: l₂).map f)).length = cap :=
    length_resize (by rw [hm]; exact hcap)
  have hpad : (copyWithin (resize cap x ((l₁ ++ (d, c) :: l₂).map f)) (l₁.length + 1)
      ((l₁ ++ (d, c) :: l₂).map f).length l₁.length).set (((l₁ ++ (d, c) :: l₂).map f).length - 1) x =
      resize cap x (((l₁ ++ (d, c) :: l₂).map f).eraseIdx l₁.length) :=
    remove_padded (by rw [hm]; exact hlt) (by rw [hm]; exact hcap)
  rw [shiftDown_eq (by omega) (by omega), ← herase, ← hpad, hm]
  congr 2
  omega

end Padded

theorem linearChild_cut (hk : Kids (l₁ ++ (d, c) :: l₂)) (hcap : (l₁ ++ (d, c) :: l₂).length ≤ cap) :
    linearChild (linearOf cap level count (l₁ ++ (d, c) :: l₂)) d = .ok (some c) := by
  have hget : (linearOf cap level count (l₁ ++ (d, c) :: l₂)).edges[l₁.length]? = some c :=
    getElem?_padded Prod.snd Edge32.null hcap
  rw [linearChild, linearIndex_cut hk hcap]
  dsimp only
  rw [edgeAt, hget]
  rfl

theorem linearChild_absent (hd : d ∉ es.map Prod.fst) (hcap : es.length ≤ cap) :
    linearChild (linearOf cap level count es) d = .ok none := by
  rw [linearChild, linearIndex_absent hd hcap]

theorem linearPairs_eq (hcap : es.length ≤ cap) : linearPairs (linearOf cap level count es) = es := by
  rw [linearPairs, live_digits hcap, live_edges hcap]
  exact zip_fst_snd es

theorem linearCommit_eq (hk : Kids (l₁ ++ (d, c) :: l₂)) (hcap : (l₁ ++ (d, c) :: l₂).length ≤ cap)
    (c' : Edge32) (delta : ℤ) :
    linearCommit (linearOf cap level count (l₁ ++ (d, c) :: l₂)) d (some c') delta =
      .ok (linearOf cap level (wrapCount count delta) (l₁ ++ (d, c') :: l₂)) := by
  have hset := set_padded Prod.snd Edge32.null hcap c'
  have hkeys : (l₁ ++ (d, c) :: l₂).map Prod.fst = (l₁ ++ (d, c') :: l₂).map Prod.fst := by simp
  have hlen : (l₁ ++ (d, c) :: l₂).length = (l₁ ++ (d, c') :: l₂).length := by simp
  have hidx : linearIndex { linearOf cap level count (l₁ ++ (d, c) :: l₂) with
      count := wrapCount count delta } d = some l₁.length := linearIndex_cut hk hcap
  unfold linearCommit
  dsimp only
  rw [show (linearOf cap level count (l₁ ++ (d, c) :: l₂)).count = count from rfl, hidx]
  dsimp only
  rw [linearOf, linearOf, ← hset, hkeys, hlen]

theorem takeWhile_cut (hcut : CutAt d l₁ l₂) :
    ((l₁ ++ l₂).map Prod.fst).takeWhile (· < d) = l₁.map Prod.fst := by
  rw [List.map_append, List.takeWhile_append_of_pos]
  · cases l₂ with
    | nil => simp
    | cons e l₂ =>
      have := hcut.above e List.mem_cons_self
      rw [List.map_cons, List.takeWhile_cons_of_neg (by simpa using this.le), List.append_nil]
  · intro k hk
    obtain ⟨e, he, rfl⟩ := List.mem_map.mp hk
    simpa using hcut.below e he

theorem addCount_eq (h : count + keys < COUNT_MOD) (wraps : Bool) :
    addCount wraps count keys = .ok (count + keys) := by
  unfold addCount
  cases wraps with
  | true =>
    unfold COUNT_MOD at h
    rw [if_pos rfl, wrapCount, COUNT_MOD]
    congr 1
    omega
  | false => rw [if_neg (by decide), if_pos h]

theorem linearAdd_eq (hcut : CutAt d l₁ l₂) (hroom : (l₁ ++ l₂).length < cap)
    (hcount : count + keys < COUNT_MOD) (shared : Bool) (c : Edge32) :
    linearAdd shared (linearOf cap level count (l₁ ++ l₂)) d c keys =
      .ok (linearOf cap level (count + keys) (l₁ ++ (d, c) :: l₂)) := by
  have hdig := @add_padded d l₁ l₂ cap _ Prod.fst 0 hroom c
  have hedg := @add_padded d l₁ l₂ cap _ Prod.snd .null hroom c
  have hlen : (l₁ ++ (d, c) :: l₂).length = (l₁ ++ l₂).length + 1 := by
    rw [List.length_append, List.length_append, List.length_cons]
    omega
  unfold linearAdd
  dsimp only
  rw [live_digits hroom.le, takeWhile_cut hcut, List.length_map]
  unfold linearOf
  dsimp only
  rw [addCount_eq hcount, ok_bind, pure_eq_ok, hlen, ← hdig, ← hedg]

theorem linearDrop_eq (hk : Kids (l₁ ++ (d, c) :: l₂)) (hcap : (l₁ ++ (d, c) :: l₂).length ≤ cap) :
    linearDrop (linearOf cap level count (l₁ ++ (d, c) :: l₂)) d =
      .ok (linearOf cap level count (l₁ ++ l₂)) := by
  have hlen : (l₁ ++ (d, c) :: l₂).length - 1 = (l₁ ++ l₂).length := by
    rw [List.length_append, List.length_append, List.length_cons]
    omega
  have hdig := drop_padded Prod.fst 0 hcap
  have hedg := drop_padded Prod.snd .null hcap
  unfold linearDrop
  dsimp only
  rw [linearIndex_cut hk hcap]
  unfold linearOf
  dsimp only
  rw [hdig, hedg, hlen]

end Linear

section Flat

theorem lookup_append_cons_ne {β : Type} {k₁ k₂ : List (ℕ × β)} {y : ℕ} {v : β} (h : y ≠ d) :
    (k₁ ++ (d, v) :: k₂).lookup y = (k₁ ++ k₂).lookup y := by
  induction k₁ with
  | nil =>
    rw [List.nil_append, List.nil_append, List.lookup_cons, beq_false_of_ne h]
  | cons e k₁ ih =>
    rw [List.cons_append, List.cons_append, List.lookup_cons, List.lookup_cons, ih]

def table (es : List (ℕ × Edge32)) : List Edge32 :=
  (List.range 256).map fun d => (es.lookup d).getD .null

theorem getElem?_table (hd : d < 256) : (table es)[d]? = some ((es.lookup d).getD .null) := by
  rw [table, List.getElem?_map, List.getElem?_range hd]
  rfl

theorem set_table {es' : List (ℕ × Edge32)} (hd : d < 256)
    (hne : ∀ y, y ≠ d → es'.lookup y = es.lookup y) :
    (table es).set d ((es'.lookup d).getD .null) = table es' := by
  apply List.ext_getElem?
  intro m
  rw [List.getElem?_set]
  by_cases hm : m < 256
  · by_cases he : d = m
    · subst he
      rw [if_pos rfl, if_pos (by simpa [table] using hd), getElem?_table hd]
    · rw [if_neg he, getElem?_table hm, getElem?_table hm, hne m (Ne.symm he)]
  · have hnone : ∀ k, (table k)[m]? = none := fun k => List.getElem?_eq_none (by simpa [table] using hm)
    by_cases he : d = m
    · omega
    · rw [if_neg he, hnone, hnone]

theorem edges_flatBranchOf (hk : Kids es) : (flatBranchOf level count es).edges = table es := by
  have hgen : ∀ k₁ k₂, Kids (k₁ ++ k₂) →
      k₂.foldl (fun edges e => edges.set e.1 e.2) (table k₁) = table (k₁ ++ k₂) := by
    intro k₁ k₂ hk
    induction k₂ generalizing k₁ with
    | nil => simp
    | cons e k₂ ih =>
      obtain ⟨d, c⟩ := e
      obtain ⟨-, hcut, hd⟩ := hk.of_cut
      have hk' : Kids (k₁ ++ [(d, c)] ++ k₂) := by simpa using hk
      have hself : (k₁ ++ [(d, c)]).lookup d = some c :=
        lookup_cut (keySorted_cut hk.sorted.of_cut.1 List.Pairwise.nil ⟨hcut.below, by simp⟩ c)
      have hset : (table k₁).set d c = table (k₁ ++ [(d, c)]) := by
        have hne : ∀ y, y ≠ d → (k₁ ++ [(d, c)]).lookup y = k₁.lookup y := fun y hy => by
          rw [lookup_append_cons_ne hy, List.append_nil]
        rw [← set_table hd hne, hself]
        rfl
      rw [List.foldl_cons, hset, ih _ hk']
      simp
  have hnil : table [] = List.replicate 256 Edge32.null := by
    rw [table, List.map_eq_replicate_iff.mpr]
    · rw [List.length_range]
    · intro d _
      rfl
  rw [flatBranchOf, ← hnil]
  exact hgen [] es hk

end Flat

theorem Kids.lookup_cut_none (hcut : CutAt d l₁ l₂) (hk : Kids (l₁ ++ l₂)) : (l₁ ++ l₂).lookup d = none :=
  lookup_eq_none hk.sorted hcut.not_mem

theorem rank_of_cut (hk : Kids (l₁ ++ (d, c) :: l₂)) :
    subexpanseRank (bitsOf ((l₁ ++ (d, c) :: l₂).map Prod.fst)) d = (row l₁ (d / 32)).length := by
  obtain ⟨-, hcut, -⟩ := hk.of_cut
  refine rank_eq hk.sorted hcut.below fun e he => ?_
  rcases List.mem_cons.mp he with rfl | he
  · exact le_rfl
  · exact (hcut.above e he).le

theorem row_cut (l₁ l₂ : List (ℕ × Edge32)) (d : ℕ) (c : Edge32) :
    row (l₁ ++ (d, c) :: l₂) (d / 32) = row l₁ (d / 32) ++ c :: row l₂ (d / 32) := by
  rw [row_append, row_cons_self]

theorem getElem?_row_cut (l₁ l₂ : List (ℕ × Edge32)) (d : ℕ) (c : Edge32) :
    (row (l₁ ++ (d, c) :: l₂) (d / 32))[(row l₁ (d / 32)).length]? = some c := by
  rw [row_cut, List.getElem?_append_right le_rfl]
  simp

theorem set_map_range {f : ℕ → ℕ} (g : ℕ → ℕ) {i n : ℕ} (h : ∀ j, j ≠ i → g j = f j) :
    ((List.range n).map f).set i (g i) = (List.range n).map g := by
  apply List.ext_getElem?
  intro m
  rw [List.getElem?_set, List.getElem?_map, List.getElem?_map, List.length_map, List.length_range]
  by_cases hi : i = m
  · subst hi
    rw [if_pos rfl]
    by_cases hn : i < n
    · rw [if_pos hn, List.getElem?_range hn]
      rfl
    · rw [if_neg hn, List.getElem?_eq_none (by rw [List.length_range]; omega)]
      rfl
  · rw [if_neg hi]
    by_cases hn : m < n
    · rw [List.getElem?_range hn, Option.map_some, Option.map_some, h m (Ne.symm hi)]
    · rw [List.getElem?_eq_none (by rw [List.length_range]; omega)]
      rfl

theorem slot_eq (hd : d < 256) : (bitmapBranchOf level count es).subs.getD (d / 32) none =
    packSub .null (row es (d / 32)) := getD_subsOf hd

theorem nodeChild_cut (hk : Kids (l₁ ++ (d, c) :: l₂)) (hcap : (l₁ ++ (d, c) :: l₂).length ≤ form.cap) :
    nodeChild (branchNode form level count (l₁ ++ (d, c) :: l₂)) d = .ok (some c) := by
  obtain ⟨-, hcut, hd⟩ := hk.of_cut
  cases form with
  | l2 => exact linearChild_cut hk hcap
  | l6 => exact linearChild_cut hk hcap
  | b =>
    have hbit : (bitmapBranchOf level count (l₁ ++ (d, c) :: l₂)).bits.testBit d = true := by
      rw [bitmapBranchOf, testBit_bitsOf]
      simp
    have hne : row (l₁ ++ (d, c) :: l₂) (d / 32) ≠ [] := by
      rw [row_cut]
      simp
    have hrank : digitRank false (bitmapBranchOf level count (l₁ ++ (d, c) :: l₂)).bits d =
        (row l₁ (d / 32)).length := by
      rw [digitRank_eq]
      exact rank_of_cut hk
    have hlt := (List.getElem?_eq_some_iff.mp (getElem?_row_cut l₁ l₂ d c)).1
    rw [branchNode, nodeChild, testDigit_eq, hbit, if_pos rfl, slot_eq hd, packSub_of_ne hne,
      resize_eq (le_capClass _)]
    dsimp only
    rw [hrank, edgeAt, List.getElem?_append_left hlt, getElem?_row_cut]
    rfl
  | u =>
    have hc := hk.live (d, c) (by simp)
    rw [branchNode, nodeChild, edges_flatBranchOf hk, edgeAt, getElem?_table hd, lookup_cut hk.sorted]
    simp only [Option.getD_some, Except.map]
    rw [if_neg hc]

theorem nodeChild_absent (hk : Kids (l₁ ++ l₂)) (hcut : CutAt d l₁ l₂) (hd : d < 256)
    (hcap : (l₁ ++ l₂).length ≤ form.cap) :
    nodeChild (branchNode form level count (l₁ ++ l₂)) d = .ok none := by
  have hn : d ∉ (l₁ ++ l₂).map Prod.fst := by
    obtain ⟨h₁, h₂⟩ := not_mem_keys_of_cut hcut
    rw [List.map_append, List.mem_append, not_or]
    exact ⟨h₁, h₂⟩
  cases form with
  | l2 => exact linearChild_absent hn hcap
  | l6 => exact linearChild_absent hn hcap
  | b =>
    rw [branchNode, nodeChild, testDigit_eq, bitmapBranchOf, testBit_bitsOf, decide_eq_false hn]
    rfl
  | u =>
    rw [branchNode, nodeChild, edges_flatBranchOf hk, edgeAt, getElem?_table hd,
      Kids.lookup_cut_none hcut hk]
    rfl

theorem nodePairs_eq (hk : Kids es) (hcap : es.length ≤ form.cap) :
    nodePairs (branchNode form level count es) = .ok es := by
  cases form with
  | l2 => exact congrArg Except.ok (linearPairs_eq hcap)
  | l6 => exact congrArg Except.ok (linearPairs_eq hcap)
  | b =>
    have hdig : digits (bitmapBranchOf level count es).bits = es.map Prod.fst :=
      digits_bitsOf (keySorted_iff.mp hk.sorted) fun k hm => by
        obtain ⟨e, he, rfl⟩ := List.mem_map.mp hm
        exact hk.bound e he
    have hitem : ∀ e ∈ es, subItem ((bitmapBranchOf level count es).subs.getD (e.1 / 32) none)
        (digitRank false (bitmapBranchOf level count es).bits e.1) = .ok e.2 := by
      rintro ⟨d, c⟩ he
      obtain ⟨l₁, l₂, rfl, hcut⟩ := exists_cut_of_mem hk.sorted he
      have hrank : digitRank false (bitmapBranchOf level count (l₁ ++ (d, c) :: l₂)).bits d =
          (row l₁ (d / 32)).length := by
        rw [digitRank_eq]
        exact rank_of_cut hk
      rw [slot_eq hk.of_cut.2.2, hrank]
      exact subItem_packSub (getElem?_row_cut l₁ l₂ d c)
    rw [branchNode, nodePairs, hdig]
    have hall : ∀ k : List (ℕ × Edge32), (∀ e ∈ k, e ∈ es) → (k.map Prod.fst).mapM (fun d => do
        let c ← subItem ((bitmapBranchOf level count es).subs.getD (d / 32) none)
          (digitRank false (bitmapBranchOf level count es).bits d)
        (pure (d, c) : Except Fault (ℕ × Edge32))) = .ok k := by
      intro k hk
      induction k with
      | nil => rfl
      | cons e k ih =>
        rw [List.map_cons, List.mapM_cons, hitem e (hk e List.mem_cons_self), ok_bind, pure_eq_ok, ok_bind,
          ih fun x hx => hk x (List.mem_cons_of_mem e hx), ok_bind, pure_eq_ok]
    exact hall es fun e he => he
  | u =>
    rw [branchNode, nodePairs, edges_flatBranchOf hk]
    congr 1
    refine KeySorted.ext ?_ hk.sorted fun x v => ?_
    · refine List.Pairwise.filterMap _ ?_ List.pairwise_lt_range
      intro x y hxy e he e' he'
      have hx : e.1 = x := by
        split at he
        · split at he
          · cases he
          · rw [← Option.some.inj he]
        · cases he
      have hy : e'.1 = y := by
        split at he'
        · split at he'
          · cases he'
          · rw [← Option.some.inj he']
        · cases he'
      rw [hx, hy]
      exact hxy
    · rw [List.mem_filterMap]
      constructor
      · rintro ⟨y, hy, he⟩
        rw [getElem?_table (List.mem_range.mp hy)] at he
        dsimp only at he
        cases hl : es.lookup y with
        | none => simp [hl] at he
        | some c =>
          rw [hl, Option.getD_some] at he
          split at he
          · cases he
          · obtain ⟨rfl, rfl⟩ := Prod.mk.inj (Option.some.inj he)
            exact (lookup_eq_some_iff hk.sorted).mp hl
      · intro he
        refine ⟨x, List.mem_range.mpr (hk.bound _ he), ?_⟩
        rw [getElem?_table (hk.bound _ he), lookup_of_mem hk.sorted he]
        exact if_neg (hk.live _ he)

theorem nodeCommit_none (delta : ℤ) : nodeCommit (branchNode form level count es) d none delta =
    .ok (branchNode form level (wrapCount count delta) es) := by
  cases form <;> rfl

theorem nodeCommit_cut (hk : Kids (l₁ ++ (d, c) :: l₂)) (hcap : (l₁ ++ (d, c) :: l₂).length ≤ form.cap)
    (hc : c' ≠ .null) (delta : ℤ) :
    nodeCommit (branchNode form level count (l₁ ++ (d, c) :: l₂)) d (some c') delta =
      .ok (branchNode form level (wrapCount count delta) (l₁ ++ (d, c') :: l₂)) := by
  obtain ⟨-, hcut, hd⟩ := hk.of_cut
  have hk' := hk.replace hc
  have hkeys : (l₁ ++ (d, c) :: l₂).map Prod.fst = (l₁ ++ (d, c') :: l₂).map Prod.fst := by simp
  have hlen : (l₁ ++ (d, c) :: l₂).length = (l₁ ++ (d, c') :: l₂).length := by simp
  cases form with
  | l2 =>
    rw [Form.cap] at hcap
    rw [branchNode, nodeCommit, linearCommit_eq hk hcap]
    rfl
  | l6 =>
    rw [Form.cap] at hcap
    rw [branchNode, nodeCommit, linearCommit_eq hk hcap]
    rfl
  | b =>
    have hrank : digitRank false (bitmapBranchOf level count (l₁ ++ (d, c) :: l₂)).bits d =
        (row l₁ (d / 32)).length := by
      rw [digitRank_eq]
      exact rank_of_cut hk
    have hne : ∀ x, row (l₁ ++ (d, x) :: l₂) (d / 32) ≠ [] := by
      intro x
      rw [row_cut]
      simp
    have hrl : ∀ x, (row (l₁ ++ (d, x) :: l₂) (d / 32)).length =
        (row l₁ (d / 32)).length + (row l₂ (d / 32)).length + 1 := by
      intro x
      rw [row_cut, List.length_append, List.length_cons]
      omega
    have hset : (resize (capClass (row (l₁ ++ (d, c) :: l₂) (d / 32)).length) Edge32.null
        (row (l₁ ++ (d, c) :: l₂) (d / 32))).set (row l₁ (d / 32)).length c' =
        resize (capClass (row (l₁ ++ (d, c') :: l₂) (d / 32)).length) .null
          (row (l₁ ++ (d, c') :: l₂) (d / 32)) := by
      rw [resize_eq (le_capClass _), resize_eq (le_capClass _), hrl, hrl, row_cut, row_cut,
        List.append_assoc, List.append_assoc, List.set_append_right _ _ le_rfl, Nat.sub_self]
      rfl
    have hrows : ∀ i, i ≠ d / 32 → row (l₁ ++ (d, c') :: l₂) i = row (l₁ ++ (d, c) :: l₂) i :=
      fun i hi => by rw [row_insert c' hi, row_insert c hi]
    have hpops : (List.range 8).map (fun i => (row (l₁ ++ (d, c) :: l₂) i).length) =
        (List.range 8).map fun i => (row (l₁ ++ (d, c') :: l₂) i).length := by
      apply List.map_congr_left
      intro i _
      by_cases hi : i = d / 32
      · rw [hi, hrl, hrl]
      · rw [hrows i hi]
    have hsubs := @set_subsOf _ d Edge32.null _ _ hrows
    have hlt : (row l₁ (d / 32)).length < (resize (capClass (row (l₁ ++ (d, c) :: l₂) (d / 32)).length)
        Edge32.null (row (l₁ ++ (d, c) :: l₂) (d / 32))).length := by
      rw [length_resize (le_capClass _)]
      have := le_capClass (row (l₁ ++ (d, c) :: l₂) (d / 32)).length
      rw [hrl] at this ⊢
      omega
    rw [branchNode, nodeCommit]
    dsimp only
    rw [slot_eq hd, packSub_of_ne (hne c)]
    dsimp only
    rw [hrank, if_pos hlt, hset, ← packSub_of_ne (hne c')]
    congr 1
    rw [branchNode, bitmapBranchOf, bitmapBranchOf]
    dsimp only
    rw [hsubs, hpops, hkeys, hlen]
  | u =>
    have htab : (table (l₁ ++ (d, c) :: l₂)).set d c' = table (l₁ ++ (d, c') :: l₂) := by
      have hne : ∀ y, y ≠ d → (l₁ ++ (d, c') :: l₂).lookup y = (l₁ ++ (d, c) :: l₂).lookup y :=
        fun y hy => by rw [lookup_append_cons_ne hy, lookup_append_cons_ne hy]
      rw [← set_table hd hne, lookup_cut hk'.sorted]
      rfl
    rw [branchNode, nodeCommit]
    dsimp only
    rw [edges_flatBranchOf hk, htab, ← @edges_flatBranchOf level (wrapCount count delta) _ hk', branchNode,
      flatBranchOf, flatBranchOf]
    dsimp only
    rw [hlen]

theorem nodeAdd_eq (hk : Kids (l₁ ++ l₂)) (hcut : CutAt d l₁ l₂) (hd : d < 256) (hc : c ≠ .null)
    (hroom : (l₁ ++ l₂).length < form.cap) (hcount : count + keys < COUNT_MOD) (shared : Bool) :
    ∃ edit : SubEdit, nodeAdd shared (branchNode form level count (l₁ ++ l₂)) d c keys =
        .ok (branchNode form level (count + keys) (l₁ ++ (d, c) :: l₂), edit) ∧
      ((branchNode form level (count + keys) (l₁ ++ (d, c) :: l₂)).heapBytes : ℤ) =
        (branchNode form level count (l₁ ++ l₂)).heapBytes + edit.delta := by
  have hk' := hk.insert hcut hd hc
  have hlen : (l₁ ++ (d, c) :: l₂).length = (l₁ ++ l₂).length + 1 := by
    rw [List.length_append, List.length_append, List.length_cons]
    omega
  cases form with
  | l2 =>
    refine ⟨⟨none, 0⟩, ?_, (add_zero _).symm⟩
    rw [Form.cap] at hroom
    rw [branchNode, nodeAdd, linearAdd_eq hcut hroom hcount]
    rfl
  | l6 =>
    refine ⟨⟨none, 0⟩, ?_, (add_zero _).symm⟩
    rw [Form.cap] at hroom
    rw [branchNode, nodeAdd, linearAdd_eq hcut hroom hcount]
    rfl
  | b =>
    obtain ⟨hn₁, hn₂⟩ := not_mem_keys_of_cut hcut
    have habs : testDigit false (bitmapBranchOf level count (l₁ ++ l₂)).bits d = false := by
      rw [testDigit_eq, bitmapBranchOf, testBit_bitsOf, List.map_append]
      simp [hn₁, hn₂]
    have hrank : digitRank false (bitmapBranchOf level count (l₁ ++ l₂)).bits d =
        (row l₁ (d / 32)).length := by
      rw [digitRank_eq]
      exact rank_eq hk.sorted hcut.below fun e he => (hcut.above e he).le
    have hpop : (bitmapBranchOf level count (l₁ ++ l₂)).popCounts.getD (d / 32) 0 =
        (row (l₁ ++ l₂) (d / 32)).length := by
      rw [bitmapBranchOf, List.getD_eq_getElem?_getD, List.getElem?_map,
        List.getElem?_range (by omega)]
      rfl
    have hle : (row l₁ (d / 32)).length ≤ (row (l₁ ++ l₂) (d / 32)).length := by
      rw [row_append, List.length_append]
      omega
    have hrl : (row (l₁ ++ (d, c) :: l₂) (d / 32)).length = (row (l₁ ++ l₂) (d / 32)).length + 1 := by
      rw [row_insert_self, List.length_insertIdx_of_le_length hle]
    have hrows : ∀ i, i ≠ d / 32 → row (l₁ ++ (d, c) :: l₂) i = row (l₁ ++ l₂) i :=
      fun i hi => row_insert c hi
    obtain ⟨retired, hsub⟩ := @subarrayInsert_pack _ _ c .null (row (l₁ ++ l₂) (d / 32)) shared hle
    refine ⟨⟨retired.map (· * EDGE_SIZE), subarrayBytesDelta EDGE_SIZE (row (l₁ ++ l₂) (d / 32)).length
      ((row (l₁ ++ l₂) (d / 32)).length + 1)⟩, ?_, ?_⟩
    · have hpops : ((List.range 8).map fun i => (row (l₁ ++ l₂) i).length).set (d / 32)
          ((row (l₁ ++ l₂) (d / 32)).length + 1) =
          (List.range 8).map fun i => (row (l₁ ++ (d, c) :: l₂) i).length := by
        rw [← hrl]
        exact set_map_range (fun i => (row (l₁ ++ (d, c) :: l₂) i).length) fun i hi => by rw [hrows i hi]
      rw [branchNode, nodeAdd, habs, if_neg (by decide)]
      dsimp only
      rw [hpop, hrank, slot_eq hd, hsub, ok_bind]
      dsimp only
      rw [show (bitmapBranchOf level count (l₁ ++ l₂)).count = count from rfl, addCount_eq hcount, ok_bind,
        pure_eq_ok, ← row_insert_self, setDigit_eq, branchNode]
      congr 2
      rw [bitmapBranchOf, bitmapBranchOf]
      dsimp only
      rw [set_subsOf hrows, hpops, hlen, List.map_append, bitsOf_insert, List.map_append]
      rfl
    · have hb := @subBytes_subsOf _ d Edge32.null _ _ EDGE_SIZE hd hrows
      rw [hrl] at hb
      show ((96 + subBytes EDGE_SIZE (subsOf .null (l₁ ++ (d, c) :: l₂)) : ℕ) : ℤ) =
        ((96 + subBytes EDGE_SIZE (subsOf .null (l₁ ++ l₂)) : ℕ) : ℤ) + _
      push_cast
      rw [hb]
      ring
  | u =>
    refine ⟨⟨none, 0⟩, ?_, (add_zero _).symm⟩
    have hget : (table (l₁ ++ l₂)).getD d .null = .null := by
      rw [List.getD_eq_getElem?_getD, getElem?_table hd, Kids.lookup_cut_none hcut hk]
      rfl
    have htab : (table (l₁ ++ l₂)).set d c = table (l₁ ++ (d, c) :: l₂) := by
      have hne : ∀ y, y ≠ d → (l₁ ++ (d, c) :: l₂).lookup y = (l₁ ++ l₂).lookup y :=
        fun y hy => lookup_append_cons_ne hy
      rw [← set_table hd hne, lookup_cut hk'.sorted]
      rfl
    rw [branchNode, nodeAdd, edges_flatBranchOf hk, if_pos hget]
    rw [show (flatBranchOf level count (l₁ ++ l₂)).count = count from rfl, addCount_eq hcount, ok_bind,
      pure_eq_ok, htab, ← @edges_flatBranchOf level (count + keys) _ hk', branchNode, flatBranchOf,
      flatBranchOf]
    dsimp only
    rw [hlen]

theorem nodeDrop_eq (hk : Kids (l₁ ++ (d, c) :: l₂)) (hcap : (l₁ ++ (d, c) :: l₂).length ≤ form.cap)
    (shared : Bool) :
    ∃ edit : SubEdit, nodeDrop shared (branchNode form level count (l₁ ++ (d, c) :: l₂)) d =
        .ok (branchNode form level count (l₁ ++ l₂), edit) ∧
      ((branchNode form level count (l₁ ++ l₂)).heapBytes : ℤ) =
        (branchNode form level count (l₁ ++ (d, c) :: l₂)).heapBytes + edit.delta := by
  obtain ⟨hk', hcut, hd⟩ := hk.of_cut
  have hlen : (l₁ ++ (d, c) :: l₂).length - 1 = (l₁ ++ l₂).length := by
    rw [List.length_append, List.length_append, List.length_cons]
    omega
  cases form with
  | l2 =>
    refine ⟨⟨none, 0⟩, ?_, (add_zero _).symm⟩
    rw [Form.cap] at hcap
    rw [branchNode, nodeDrop, linearDrop_eq hk hcap]
    rfl
  | l6 =>
    refine ⟨⟨none, 0⟩, ?_, (add_zero _).symm⟩
    rw [Form.cap] at hcap
    rw [branchNode, nodeDrop, linearDrop_eq hk hcap]
    rfl
  | b =>
    obtain ⟨hn₁, hn₂⟩ := not_mem_keys_of_cut hcut
    have hpres : testDigit false (bitmapBranchOf level count (l₁ ++ (d, c) :: l₂)).bits d = true := by
      rw [testDigit_eq, bitmapBranchOf, testBit_bitsOf]
      simp
    have hrank : digitRank false (bitmapBranchOf level count (l₁ ++ (d, c) :: l₂)).bits d =
        (row l₁ (d / 32)).length := by
      rw [digitRank_eq]
      exact rank_of_cut hk
    have hpop : (bitmapBranchOf level count (l₁ ++ (d, c) :: l₂)).popCounts.getD (d / 32) 0 =
        (row (l₁ ++ (d, c) :: l₂) (d / 32)).length := by
      rw [bitmapBranchOf, List.getD_eq_getElem?_getD, List.getElem?_map,
        List.getElem?_range (by omega)]
      rfl
    have hlt := (List.getElem?_eq_some_iff.mp (getElem?_row_cut l₁ l₂ d c)).1
    have hrl : (row (l₁ ++ l₂) (d / 32)).length = (row (l₁ ++ (d, c) :: l₂) (d / 32)).length - 1 := by
      rw [@row_remove_self _ d l₁ l₂ c, List.length_eraseIdx_of_lt hlt]
    have hrows : ∀ i, i ≠ d / 32 → row (l₁ ++ l₂) i = row (l₁ ++ (d, c) :: l₂) i :=
      fun i hi => (row_insert c hi).symm
    obtain ⟨retired, hsub⟩ := @subarrayRemove_pack _ _ Edge32.null (row (l₁ ++ (d, c) :: l₂) (d / 32))
      shared hlt
    refine ⟨⟨retired.map (· * EDGE_SIZE), subarrayBytesDelta EDGE_SIZE
      (row (l₁ ++ (d, c) :: l₂) (d / 32)).length ((row (l₁ ++ (d, c) :: l₂) (d / 32)).length - 1)⟩, ?_, ?_⟩
    · have hpops : ((List.range 8).map fun i => (row (l₁ ++ (d, c) :: l₂) i).length).set (d / 32)
          ((row (l₁ ++ (d, c) :: l₂) (d / 32)).length - 1) =
          (List.range 8).map fun i => (row (l₁ ++ l₂) i).length := by
        rw [← hrl]
        exact set_map_range (fun i => (row (l₁ ++ l₂) i).length) fun i hi => by rw [hrows i hi]
      rw [branchNode, nodeDrop, hpres, if_pos rfl]
      dsimp only
      rw [hpop, hrank, slot_eq hd, hsub, ok_bind, pure_eq_ok]
      dsimp only
      rw [← row_remove_self, clearDigit_eq, branchNode]
      congr 2
      rw [bitmapBranchOf, bitmapBranchOf]
      dsimp only
      rw [set_subsOf hrows, hpops, hlen, List.map_append, List.map_cons, bitsOf_remove hn₁ hn₂,
        List.map_append]
    · have hb := @subBytes_subsOf _ d Edge32.null _ _ EDGE_SIZE hd hrows
      rw [hrl] at hb
      show ((96 + subBytes EDGE_SIZE (subsOf .null (l₁ ++ l₂)) : ℕ) : ℤ) =
        ((96 + subBytes EDGE_SIZE (subsOf .null (l₁ ++ (d, c) :: l₂)) : ℕ) : ℤ) + _
      push_cast
      rw [hb]
      ring
  | u =>
    refine ⟨⟨none, 0⟩, ?_, (add_zero _).symm⟩
    have hget : (table (l₁ ++ (d, c) :: l₂)).getD d .null ≠ .null := by
      rw [List.getD_eq_getElem?_getD, getElem?_table hd, lookup_cut hk.sorted]
      exact hk.live (d, c) (by simp)
    have htab : (table (l₁ ++ (d, c) :: l₂)).set d .null = table (l₁ ++ l₂) := by
      have hne : ∀ y, y ≠ d → (l₁ ++ l₂).lookup y = (l₁ ++ (d, c) :: l₂).lookup y :=
        fun y hy => (lookup_append_cons_ne hy).symm
      rw [← set_table hd hne, Kids.lookup_cut_none hcut hk']
      rfl
    rw [branchNode, nodeDrop, edges_flatBranchOf hk, if_neg hget, pure_eq_ok, htab,
      ← @edges_flatBranchOf level count _ hk', branchNode, flatBranchOf, flatBranchOf]
    dsimp only
    rw [hlen]

/-- The form after an insertion that makes `n` children. -/
def Form.grown (form : Form) (n : ℕ) : Form := if n ≤ form.cap then form else form.up

/-- The form after a removal that leaves `n` children. -/
def Form.shrunk (form : Form) (n : ℕ) : Form := if n ≤ form.downAt then form.down else form

section InArena

variable {a : Arena} {C : Cells} {h total : ℕ}

theorem heapBytes_branchNode {count' : ℕ} {es' : List (ℕ × Edge32)}
    (hrows : ∀ i, (row es' i).length = (row es i).length) :
    (branchNode form level count' es').heapBytes = (branchNode form level count es).heapBytes := by
  cases form with
  | b =>
    show 96 + subBytes EDGE_SIZE (subsOf .null es') = 96 + subBytes EDGE_SIZE (subsOf .null es)
    rw [subBytes, subBytes, subsOf, subsOf, List.map_map, List.map_map]
    congr 2
    apply List.map_congr_left
    intro i _
    simp only [Function.comp, length_packSub, hrows]
  | _ => rfl

theorem branch_eq (ho : Owned a ((h, .node (branchNode form level count es)) ::ₘ C)) :
    a.branch form h = .ok (branchNode form level count es) := by
  unfold Arena.branch
  rw [ho.find_node]
  cases form <;> rfl

theorem makeBranch_spec (ho : Owned a C) (hr : Room a 1 0) (hcap : es.length ≤ form.cap) :
    ∃ h a', makeBranch form a level es total = .ok (.branch form h, a') ∧
      Owned a' ((h, .node (branchNode form level total es)) ::ₘ C) ∧ Spent a a' 1 0 := by
  obtain ⟨h, a', ha, ho', hs⟩ := alloc_spec ho hr (fits_node (branchNode form level total es))
  refine ⟨h, a', ?_, ho', hs⟩
  cases form with
  | l2 =>
    rw [makeBranch, if_pos hcap, ha]
    rfl
  | l6 =>
    rw [makeBranch, if_pos hcap, ha]
    rfl
  | b =>
    rw [makeBranch, ha]
    rfl
  | u =>
    rw [makeBranch, ha]
    rfl

theorem branchChild_cut (ho : Owned a ((h, .node (branchNode form level count (l₁ ++ (d, c) :: l₂))) ::ₘ C))
    (hk : Kids (l₁ ++ (d, c) :: l₂)) (hcap : (l₁ ++ (d, c) :: l₂).length ≤ form.cap) :
    branchChild a form h d = .ok (some c) := by
  rw [branchChild, branch_eq ho, ok_bind, nodeChild_cut hk hcap]

theorem branchChild_absent (ho : Owned a ((h, .node (branchNode form level count (l₁ ++ l₂))) ::ₘ C))
    (hk : Kids (l₁ ++ l₂)) (hcut : CutAt d l₁ l₂) (hd : d < 256) (hcap : (l₁ ++ l₂).length ≤ form.cap) :
    branchChild a form h d = .ok none := by
  rw [branchChild, branch_eq ho, ok_bind, nodeChild_absent hk hcut hd hcap]

theorem branchCommit_cut (ho : Owned a ((h, .node (branchNode form level count (l₁ ++ (d, c) :: l₂))) ::ₘ C))
    (hk : Kids (l₁ ++ (d, c) :: l₂)) (hcap : (l₁ ++ (d, c) :: l₂).length ≤ form.cap) (hc : c' ≠ .null)
    (delta : ℤ) :
    ∃ a', branchCommit a form h d (some c') delta = .ok a' ∧
      Owned a' ((h, .node (branchNode form level (wrapCount count delta) (l₁ ++ (d, c') :: l₂))) ::ₘ C) ∧
      Spent a a' 0 0 := by
  have hrows : ∀ i, (row (l₁ ++ (d, c') :: l₂) i).length = (row (l₁ ++ (d, c) :: l₂) i).length := by
    intro i
    by_cases hi : i = d / 32
    · rw [hi, row_cut, row_cut]
      simp
    · rw [row_insert c' hi, row_insert c hi]
  obtain ⟨ho', hs⟩ := put_spec_same ho
    (fits_node (branchNode form level (wrapCount count delta) (l₁ ++ (d, c') :: l₂)))
    (heapBytes_branchNode hrows)
  refine ⟨_, ?_, ho', hs⟩
  rw [branchCommit, branch_eq ho, ok_bind, nodeCommit_cut hk hcap hc, ok_bind, pure_eq_ok]

theorem branchCommit_none (ho : Owned a ((h, .node (branchNode form level count es)) ::ₘ C)) (d : ℕ)
    (delta : ℤ) :
    ∃ a', branchCommit a form h d none delta = .ok a' ∧
      Owned a' ((h, .node (branchNode form level (wrapCount count delta) es)) ::ₘ C) ∧ Spent a a' 0 0 := by
  obtain ⟨ho', hs⟩ := put_spec_same ho (fits_node (branchNode form level (wrapCount count delta) es))
    (heapBytes_branchNode fun i => rfl)
  refine ⟨_, ?_, ho', hs⟩
  rw [branchCommit, branch_eq ho, ok_bind, nodeCommit_none, ok_bind, pure_eq_ok]

theorem insertPairSorted_cut (hcut : CutAt d l₁ l₂) :
    insertPairSorted (l₁ ++ l₂) d c = l₁ ++ (d, c) :: l₂ := by
  have htw : (l₁ ++ l₂).takeWhile (fun e => e.1 < d) = l₁ := by
    rw [List.takeWhile_append_of_pos fun e he => by simpa using hcut.below e he]
    cases l₂ with
    | nil => simp
    | cons e l₂ =>
      have := hcut.above e List.mem_cons_self
      rw [List.takeWhile_cons_of_neg (by simpa using this.le), List.append_nil]
  rw [insertPairSorted, htw, insertIdx_eq_append (by rw [List.length_append]; omega), List.take_left,
    List.drop_left]

theorem cap_up (hf : form ≠ .u) : form.cap + 1 ≤ form.up.cap := by
  cases form with
  | u => exact absurd rfl hf
  | l2 => decide
  | l6 => decide
  | b => decide

theorem branchInsertNew_spec (shared : Bool)
    (ho : Owned a ((h, .node (branchNode form level count (l₁ ++ l₂))) ::ₘ C)) (hr : Room a 1 1)
    (hk : Kids (l₁ ++ l₂)) (hcut : CutAt d l₁ l₂) (hd : d < 256) (hc : c ≠ .null)
    (hcap : (l₁ ++ l₂).length ≤ form.cap) (hcount : count + keys < COUNT_MOD) :
    ∃ h' a', branchInsertNew shared a form h d c keys =
        .ok (.branch (form.grown ((l₁ ++ l₂).length + 1)) h', a') ∧
      Owned a' ((h', .node (branchNode (form.grown ((l₁ ++ l₂).length + 1)) level (count + keys)
        (l₁ ++ (d, c) :: l₂))) ::ₘ C) ∧
      Spent a a' (if (l₁ ++ l₂).length + 1 ≤ form.cap then 0 else 1) 1 := by
  have hlen : (l₁ ++ (d, c) :: l₂).length = (l₁ ++ l₂).length + 1 := by
    rw [List.length_append, List.length_append, List.length_cons]
    omega
  unfold branchInsertNew
  rw [branch_eq ho, ok_bind, nodeChildren_branchNode]
  by_cases hroom : (l₁ ++ l₂).length + 1 ≤ form.cap
  · obtain ⟨edit, hedit, hδ⟩ := @nodeAdd_eq form level count d keys c l₁ l₂ hk hcut hd hc hroom hcount shared
    obtain ⟨a', h', ho', hs'⟩ := commitSub_spec ho (hr.mono (by omega) le_rfl) hδ
    rw [if_pos (.inr hroom), hedit, ok_bind]
    dsimp only
    rw [h', ok_bind, pure_eq_ok, Form.grown, if_pos hroom, if_pos hroom]
    exact ⟨h, a', rfl, ho', hs'⟩
  · have hfu : form ≠ .u := by
      rintro rfl
      have hle : (l₁ ++ (d, c) :: l₂).length ≤ 256 :=
        (hk.insert hcut hd hc).sorted.length_le fun x hx => by
          obtain ⟨e, he, rfl⟩ := List.mem_map.mp hx
          exact (hk.insert hcut hd hc).bound e he
      rw [hlen] at hle
      exact hroom hle
    have hup := cap_up hfu
    have hne : ¬ (form = .u ∨ (l₁ ++ l₂).length < form.cap) := by
      rintro (hf | hf)
      · exact hfu hf
      · exact hroom hf
    obtain ⟨h', a₁, h₁, ho₁, hs₁⟩ := @makeBranch_spec form.up level (l₁ ++ (d, c) :: l₂) a _ (count + keys) ho
      (hr.mono le_rfl (by omega)) (by omega)
    rw [Multiset.cons_swap] at ho₁
    obtain ⟨a₂, h₂, ho₂, hs₂⟩ := freeNode_spec ho₁ (hs₁.room hr)
    rw [if_neg hne, nodeCount_branchNode, addCount_eq hcount, ok_bind, nodePairs_eq hk hcap, ok_bind,
      insertPairSorted_cut hcut, nodeLevel_branchNode, h₁, ok_bind]
    dsimp only
    rw [h₂, ok_bind, pure_eq_ok, Form.grown, if_neg hroom, if_neg hroom]
    exact ⟨h', a₂, rfl, ho₂, hs₁.trans hs₂⟩

/-- What a removal leaves of a branch: nothing, or a branch in the form that its children ask for. -/
theorem branchRemoveDigit_spec (shared : Bool)
    (ho : Owned a ((h, .node (branchNode form level count (l₁ ++ (d, c) :: l₂))) ::ₘ C)) (hr : Room a 1 2)
    (hk : Kids (l₁ ++ (d, c) :: l₂)) (hcap : (l₁ ++ (d, c) :: l₂).length ≤ form.cap) :
    (l₁ ++ l₂ = [] ∧ ∃ a', branchRemoveDigit shared a form h d = .ok (.null, a') ∧ Owned a' C ∧
      Spent a a' 1 2) ∨
    (l₁ ++ l₂ ≠ [] ∧ ∃ h' a', branchRemoveDigit shared a form h d =
        .ok (.branch (form.shrunk (l₁ ++ l₂).length) h', a') ∧
      Owned a' ((h', .node (branchNode (form.shrunk (l₁ ++ l₂).length) level count (l₁ ++ l₂))) ::ₘ C) ∧
      Spent a a' 1 2) := by
  obtain ⟨hk', -, -⟩ := hk.of_cut
  have hlen : (l₁ ++ (d, c) :: l₂).length = (l₁ ++ l₂).length + 1 := by
    rw [List.length_append, List.length_append, List.length_cons]
    omega
  obtain ⟨edit, hedit, hδ⟩ := @nodeDrop_eq form level count d c l₁ l₂ hk hcap shared
  obtain ⟨a₁, h₁, ho₁, hs₁⟩ := commitSub_spec ho (hr.mono (by omega) (by omega)) hδ
  have hr₁ : Room a₁ 1 1 := hs₁.room hr
  unfold branchRemoveDigit
  rw [branch_eq ho, ok_bind, hedit, ok_bind]
  dsimp only
  rw [h₁, ok_bind, nodeChildren_branchNode, nodePairs_eq hk' (by omega), nodeLevel_branchNode,
    nodeCount_branchNode]
  by_cases hdown : (l₁ ++ l₂).length ≤ form.downAt
  · rw [if_pos hdown, ok_bind]
    by_cases hnil : l₁ ++ l₂ = []
    · obtain ⟨a₂, h₂, ho₂, hs₂⟩ := freeNode_spec ho₁ (hr₁.mono (by omega) le_rfl)
      refine .inl ⟨hnil, a₂, ?_, ho₂, (hs₁.trans hs₂).mono (by omega) (by omega)⟩
      rw [if_pos hnil, h₂, ok_bind, pure_eq_ok]
    · have hfit : (l₁ ++ l₂).length ≤ form.down.cap := by
        cases form with
        | l2 => exact absurd (List.length_eq_zero_iff.mp (Nat.le_zero.mp hdown)) hnil
        | l6 => exact le_trans hdown (by decide)
        | b => exact le_trans hdown (by decide)
        | u => exact le_trans hdown (by decide)
      obtain ⟨h', a₂, h₂, ho₂, hs₂⟩ := @makeBranch_spec form.down level (l₁ ++ l₂) a₁ _ count ho₁
        (hr₁.mono le_rfl (by omega)) hfit
      rw [Multiset.cons_swap] at ho₂
      obtain ⟨a₃, h₃, ho₃, hs₃⟩ := freeNode_spec ho₂ (hs₂.room hr₁)
      refine .inr ⟨hnil, h', a₃, ?_, ?_, ((hs₁.trans hs₂).trans hs₃).mono (by omega) (by omega)⟩
      · rw [if_neg hnil, h₂, ok_bind]
        dsimp only
        rw [h₃, ok_bind, pure_eq_ok, Form.shrunk, if_pos hdown]
      · rw [Form.shrunk, if_pos hdown]
        exact ho₃
  · have hnil : l₁ ++ l₂ ≠ [] := by
      intro he
      rw [he] at hdown
      exact hdown (Nat.zero_le _)
    refine .inr ⟨hnil, h, a₁, ?_, ?_, hs₁.mono (by omega) (by omega)⟩
    · rw [if_neg hdown, pure_eq_ok, Form.shrunk, if_neg hdown]
    · rw [Form.shrunk, if_neg hdown]
      exact ho₁

end InArena

end Expanse.Trie32
