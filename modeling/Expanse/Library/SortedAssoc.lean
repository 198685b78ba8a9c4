import Mathlib.Tactic
import Mathlib.Data.List.Sort

/-!
# Association lists in strictly ascending key order

The order-theoretic content of a sorted container: positions, insertion and
removal at a position, and the two update relations that say what an insertion
or a removal does to the set of entries. Positions live in lists; the relations
are about membership only, so they compose through any change of layout.
-/

namespace Expanse.SortedAssoc

variable {α : Type*}

def KeySorted (l : List (ℕ × α)) : Prop := l.Pairwise fun a b => a.1 < b.1

/-- The number of leading keys below `k`: where `k` is, or would be, stored. -/
def lowerBound : List ℕ → ℕ → ℕ
  | [], _ => 0
  | x :: xs, k => if k ≤ x then 0 else lowerBound xs k + 1

/-- Index of the first key equal to `k`. -/
def indexOf? (keys : List ℕ) (k : ℕ) : Option ℕ := keys.findIdx? (· == k)

/-- The position of `k`, or the position at which it would be inserted. -/
def locate (keys : List ℕ) (k : ℕ) : Except ℕ ℕ :=
  if keys[lowerBound keys k]? = some k then .ok (lowerBound keys k)
  else .error (lowerBound keys k)

theorem keySorted_iff {l : List (ℕ × α)} :
    KeySorted l ↔ (l.map Prod.fst).Pairwise (· < ·) := by
  rw [KeySorted, List.pairwise_map]

theorem KeySorted.nodup_keys {l : List (ℕ × α)} (h : KeySorted l) : (l.map Prod.fst).Nodup :=
  (keySorted_iff.mp h).imp (fun hab => Nat.ne_of_lt hab)

theorem KeySorted.nodup {l : List (ℕ × α)} (h : KeySorted l) : l.Nodup :=
  h.nodup_keys.of_map _

theorem KeySorted.value_unique {l : List (ℕ × α)} (h : KeySorted l) {k : ℕ} {v w : α}
    (hv : (k, v) ∈ l) (hw : (k, w) ∈ l) : v = w := by
  have := List.inj_on_of_nodup_map h.nodup_keys hv hw rfl
  simpa using this

theorem KeySorted.ext {l l' : List (ℕ × α)} (h : KeySorted l) (h' : KeySorted l')
    (hmem : ∀ k v, (k, v) ∈ l ↔ (k, v) ∈ l') : l = l' := by
  have hp : l.Perm l' := (List.perm_ext_iff_of_nodup h.nodup h'.nodup).mpr fun ⟨k, v⟩ => hmem k v
  apply hp.eq_of_pairwise _ h h'
  intro a b _ _ hab hba
  exact absurd hab (Nat.lt_asymm hba)

theorem lowerBound_le (keys : List ℕ) (k : ℕ) : lowerBound keys k ≤ keys.length := by
  induction keys with
  | nil => simp [lowerBound]
  | cons x xs ih =>
    simp only [lowerBound, List.length_cons]
    split_ifs <;> omega

theorem lt_of_lt_lowerBound {keys : List ℕ} {k i x : ℕ} (hi : i < lowerBound keys k)
    (hx : keys[i]? = some x) : x < k := by
  induction keys generalizing i with
  | nil => simp at hx
  | cons y ys ih =>
    simp only [lowerBound] at hi
    split_ifs at hi with hk
    · omega
    · cases i with
      | zero => simp at hx; omega
      | succ i => exact ih (i := i) (by omega) (by simpa using hx)

theorem le_of_lowerBound_le {keys : List ℕ} (hs : keys.Pairwise (· < ·)) {k i x : ℕ}
    (hi : lowerBound keys k ≤ i) (hx : keys[i]? = some x) : k ≤ x := by
  induction keys generalizing i with
  | nil => simp at hx
  | cons y ys ih =>
    rw [List.pairwise_cons] at hs
    simp only [lowerBound] at hi
    split_ifs at hi with hk
    · cases i with
      | zero => simp at hx; omega
      | succ i =>
        have := hs.1 x (List.mem_of_getElem? (by simpa using hx))
        omega
    · cases i with
      | zero => omega
      | succ i => exact ih hs.2 (i := i) (by omega) (by simpa using hx)

theorem getElem?_lowerBound {keys : List ℕ} (hs : keys.Pairwise (· < ·)) {k : ℕ}
    (hk : k ∈ keys) : keys[lowerBound keys k]? = some k := by
  induction keys with
  | nil => simp at hk
  | cons y ys ih =>
    rw [List.pairwise_cons] at hs
    simp only [lowerBound]
    rcases List.mem_cons.mp hk with rfl | hm
    · simp
    · have := hs.1 k hm
      rw [if_neg (by omega)]
      simpa using ih hs.2 hm

theorem lowerBound_of_all_lt {keys : List ℕ} {k : ℕ} (h : ∀ x ∈ keys, x < k) :
    lowerBound keys k = keys.length := by
  induction keys with
  | nil => rfl
  | cons y ys ih =>
    have hy := h y (by simp)
    rw [lowerBound, if_neg (by omega), ih (fun x hx => h x (by simp [hx]))]
    rfl

theorem lowerBound_append {as bs : List ℕ} {k : ℕ} (h : ∀ x ∈ as, x < k) :
    lowerBound (as ++ bs) k = as.length + lowerBound bs k := by
  induction as with
  | nil => simp
  | cons a as ih =>
    have ha := h a (by simp)
    rw [List.cons_append, lowerBound, if_neg (by omega), ih (fun x hx => h x (by simp [hx])),
      List.length_cons]
    omega

theorem locate_ok {keys : List ℕ} {k i : ℕ} (h : locate keys k = .ok i) : keys[i]? = some k := by
  unfold locate at h
  split_ifs at h with hk
  cases h
  exact hk

theorem locate_error {keys : List ℕ} (hs : keys.Pairwise (· < ·)) {k i : ℕ}
    (h : locate keys k = .error i) : k ∉ keys ∧ i = lowerBound keys k := by
  unfold locate at h
  split_ifs at h with hk
  cases h
  exact ⟨fun hm => hk (getElem?_lowerBound hs hm), rfl⟩

theorem locate_of_mem {keys : List ℕ} (hs : keys.Pairwise (· < ·)) {k : ℕ} (hk : k ∈ keys) :
    locate keys k = .ok (lowerBound keys k) := by
  rw [locate, if_pos (getElem?_lowerBound hs hk)]

theorem locate_of_not_mem {keys : List ℕ} {k : ℕ} (hk : k ∉ keys) :
    locate keys k = .error (lowerBound keys k) := by
  rw [locate, if_neg (fun h => hk (List.mem_of_getElem? h))]

theorem indexOf?_of_mem {keys : List ℕ} (hs : keys.Pairwise (· < ·)) {k : ℕ}
    (hk : k ∈ keys) : indexOf? keys k = some (lowerBound keys k) := by
  have hg := getElem?_lowerBound hs hk
  obtain ⟨hlt, he⟩ := List.getElem?_eq_some_iff.mp hg
  rw [indexOf?, List.findIdx?_eq_some_iff_getElem]
  refine ⟨hlt, by simp [he], ?_⟩
  intro j hj
  have := lt_of_lt_lowerBound hj (List.getElem?_eq_getElem (by omega))
  simp
  omega

theorem indexOf?_of_not_mem {keys : List ℕ} {k : ℕ} (hk : k ∉ keys) :
    indexOf? keys k = none := by
  rw [indexOf?, List.findIdx?_eq_none_iff]
  intro x hx
  simp only [beq_eq_false_iff_ne]
  rintro rfl
  exact hk hx

theorem bind_indexOf?_iff {keys : List ℕ} {vals : List α} (hs : keys.Pairwise (· < ·)) {k : ℕ}
    {v : α} : (indexOf? keys k).bind (vals[·]?) = some v ↔ (k, v) ∈ keys.zip vals := by
  by_cases hk : k ∈ keys
  · rw [indexOf?_of_mem hs hk, Option.bind_some]
    have hg := getElem?_lowerBound hs hk
    constructor
    · intro hv
      exact List.mem_of_getElem? (List.getElem?_zip_eq_some.mpr ⟨hg, hv⟩)
    · intro hm
      obtain ⟨i, hi⟩ := List.mem_iff_getElem?.mp hm
      obtain ⟨h1, h2⟩ := List.getElem?_zip_eq_some.mp hi
      have hn : keys.Nodup := hs.imp Nat.ne_of_lt
      rw [(List.getElem?_inj (List.getElem?_eq_some_iff.mp hg).1 hn).mp (hg.trans h1.symm)]
      exact h2
  · rw [indexOf?_of_not_mem hk]
    constructor
    · intro hv; cases hv
    · intro hm
      exact absurd (List.of_mem_zip hm).1 hk

theorem pairwise_insert {keys : List ℕ} (hs : keys.Pairwise (· < ·)) {k : ℕ} (hk : k ∉ keys) :
    (keys.insertIdx (lowerBound keys k) k).Pairwise (· < ·) := by
  induction keys with
  | nil => simp [lowerBound]
  | cons y ys ih =>
    rw [List.pairwise_cons] at hs
    simp only [List.mem_cons, not_or] at hk
    simp only [lowerBound]
    split_ifs with hle
    · rw [List.insertIdx_zero, List.pairwise_cons, List.pairwise_cons]
      refine ⟨?_, hs⟩
      intro x hx
      rcases List.mem_cons.mp hx with rfl | hx
      · omega
      · have := hs.1 x hx; omega
    · rw [List.insertIdx_succ_cons, List.pairwise_cons]
      refine ⟨?_, ih hs.2 hk.2⟩
      intro x hx
      rw [List.mem_insertIdx (lowerBound_le ys k)] at hx
      rcases hx with rfl | hx
      · omega
      · exact hs.1 x hx

theorem map_insertIdx {β : Type*} (f : α → β) (l : List α) (i : ℕ) (a : α) :
    (l.insertIdx i a).map f = (l.map f).insertIdx i (f a) := by
  induction l generalizing i with
  | nil => cases i <;> simp
  | cons x xs ih => cases i <;> simp [ih]

theorem zip_insertIdx {β : Type*} {as : List α} {bs : List β} (h : as.length = bs.length)
    (i : ℕ) (a : α) (b : β) :
    (as.insertIdx i a).zip (bs.insertIdx i b) = (as.zip bs).insertIdx i (a, b) := by
  induction as generalizing bs i with
  | nil =>
    have : bs = [] := by simpa using h.symm
    subst this
    cases i <;> simp
  | cons x xs ih =>
    cases bs with
    | nil => simp at h
    | cons y ys =>
      cases i with
      | zero => simp
      | succ i => simp [ih (by simpa using h) i]

theorem zip_fst_snd {β : Type*} (l : List (α × β)) : (l.map Prod.fst).zip (l.map Prod.snd) = l := by
  induction l with
  | nil => rfl
  | cons x xs ih => simp [ih]

theorem zip_eraseIdx {β : Type*} (as : List α) (bs : List β) (i : ℕ) :
    (as.eraseIdx i).zip (bs.eraseIdx i) = (as.zip bs).eraseIdx i := by
  induction as generalizing bs i with
  | nil => simp
  | cons x xs ih =>
    cases bs with
    | nil => simp
    | cons y ys => cases i <;> simp [ih]

theorem zip_set {β : Type*} {as : List α} {bs : List β} {i : ℕ} {a : α} (ha : as[i]? = some a)
    (b : β) : as.zip (bs.set i b) = (as.zip bs).set i (a, b) := by
  induction as generalizing bs i with
  | nil => simp
  | cons x xs ih =>
    cases bs with
    | nil => simp
    | cons y ys =>
      cases i with
      | zero => simp at ha; simp [ha]
      | succ i => simp [ih (by simpa using ha)]

theorem KeySorted.set {l : List (ℕ × α)} (hs : KeySorted l) {i k : ℕ} {v w : α}
    (hi : l[i]? = some (k, v)) : KeySorted (l.set i (k, w)) := by
  rw [keySorted_iff] at hs ⊢
  have : (l.set i (k, w)).map Prod.fst = l.map Prod.fst := by
    apply List.ext_getElem?
    intro j
    rw [List.map_set, List.getElem?_set]
    split_ifs with hj hlt
    · subst hj
      simp [hi]
    · subst hj
      rw [List.getElem?_eq_none (by omega)]
    · rfl
  rwa [this]

/-- `l'` binds `k` to `v` and agrees with `l` on every other key. -/
def Updated (k : ℕ) (v : α) (l l' : List (ℕ × α)) : Prop :=
  ∀ x w, (x, w) ∈ l' ↔ x = k ∧ w = v ∨ x ≠ k ∧ (x, w) ∈ l

/-- `l'` has no entry at `k` and agrees with `l` on every other key. -/
def Erased (k : ℕ) (l l' : List (ℕ × α)) : Prop :=
  ∀ x w, (x, w) ∈ l' ↔ x ≠ k ∧ (x, w) ∈ l

theorem updated_insertIdx {l : List (ℕ × α)} {k i : ℕ} {v : α} (hi : i ≤ l.length)
    (hk : k ∉ l.map Prod.fst) : Updated k v l (l.insertIdx i (k, v)) := by
  intro x w
  rw [List.mem_insertIdx hi, Prod.mk.injEq]
  constructor
  · rintro (h | h)
    · exact Or.inl h
    · refine Or.inr ⟨?_, h⟩
      rintro rfl
      exact hk (List.mem_map_of_mem (f := Prod.fst) h)
  · rintro (h | ⟨_, h⟩)
    · exact Or.inl h
    · exact Or.inr h

theorem updated_set {l : List (ℕ × α)} (hs : KeySorted l) {k i : ℕ} {v w : α}
    (hi : l[i]? = some (k, v)) : Updated k w l (l.set i (k, w)) := by
  intro x u
  have hlen : i < l.length := by
    by_contra h
    rw [List.getElem?_eq_none (by omega)] at hi
    cases hi
  constructor
  · intro hm
    rcases List.mem_or_eq_of_mem_set hm with hm' | he
    · by_cases hx : x = k
      · subst hx
        left
        have hmem : (x, w) ∈ l.set i (x, w) := List.mem_set hlen _
        exact ⟨rfl, (hs.set hi).value_unique hm hmem⟩
      · exact Or.inr ⟨hx, hm'⟩
    · left
      simpa using he
  · rintro (⟨rfl, rfl⟩ | ⟨hx, hm⟩)
    · exact List.mem_set hlen _
    · obtain ⟨j, hj⟩ := List.mem_iff_getElem?.mp hm
      have hne : i ≠ j := by
        rintro rfl
        rw [hi] at hj
        cases hj
        exact hx rfl
      exact List.mem_of_getElem? (by rw [List.getElem?_set_ne hne]; exact hj)

theorem erased_eraseIdx {l : List (ℕ × α)} (hs : KeySorted l) {k i : ℕ} {v : α}
    (hi : l[i]? = some (k, v)) : Erased k l (l.eraseIdx i) := by
  intro x w
  rw [List.mem_eraseIdx_iff_getElem?]
  constructor
  · rintro ⟨j, hj, he⟩
    refine ⟨?_, List.mem_of_getElem? he⟩
    rintro rfl
    have hv := hs.value_unique (List.mem_of_getElem? he) (List.mem_of_getElem? hi)
    subst hv
    apply hj
    have hlt : j < l.length := by
      by_contra h
      rw [List.getElem?_eq_none (by omega)] at he
      cases he
    exact (List.getElem?_inj hlt hs.nodup).mp (he.trans hi.symm)
  · rintro ⟨hx, hm⟩
    obtain ⟨j, hj⟩ := List.mem_iff_getElem?.mp hm
    refine ⟨j, ?_, hj⟩
    rintro rfl
    rw [hi] at hj
    cases hj
    exact hx rfl

theorem Updated.keys {k : ℕ} {v : α} {l l' : List (ℕ × α)} (h : Updated k v l l') (x : ℕ) :
    x ∈ l'.map Prod.fst ↔ x = k ∨ x ∈ l.map Prod.fst := by
  simp only [List.mem_map, Prod.exists, exists_and_right, exists_eq_right]
  constructor
  · rintro ⟨w, hw⟩
    rcases (h x w).mp hw with ⟨hx, _⟩ | ⟨_, hm⟩
    · exact Or.inl hx
    · exact Or.inr ⟨w, hm⟩
  · intro hx
    by_cases he : x = k
    · exact ⟨v, (h x v).mpr (Or.inl ⟨he, rfl⟩)⟩
    · obtain ⟨w, hw⟩ := hx.resolve_left he
      exact ⟨w, (h x w).mpr (Or.inr ⟨he, hw⟩)⟩

theorem Erased.keys {k : ℕ} {l l' : List (ℕ × α)} (h : Erased k l l') (x : ℕ) :
    x ∈ l'.map Prod.fst ↔ x ≠ k ∧ x ∈ l.map Prod.fst := by
  simp only [List.mem_map, Prod.exists, exists_and_right, exists_eq_right]
  constructor
  · rintro ⟨w, hw⟩
    exact ⟨((h x w).mp hw).1, w, ((h x w).mp hw).2⟩
  · rintro ⟨hx, w, hw⟩
    exact ⟨w, (h x w).mpr ⟨hx, hw⟩⟩

theorem KeySorted.length_eq_card {l : List (ℕ × α)} (hs : KeySorted l) :
    l.length = (l.map Prod.fst).toFinset.card := by
  rw [List.toFinset_card_of_nodup hs.nodup_keys, List.length_map]

theorem Updated.length {k : ℕ} {v : α} {l l' : List (ℕ × α)} (h : Updated k v l l')
    (hs : KeySorted l) (hs' : KeySorted l') :
    l'.length = if k ∈ l.map Prod.fst then l.length else l.length + 1 := by
  have he : (l'.map Prod.fst).toFinset = insert k (l.map Prod.fst).toFinset := by
    ext x
    simp only [List.mem_toFinset, Finset.mem_insert]
    exact h.keys x
  rw [hs'.length_eq_card, hs.length_eq_card, he]
  split_ifs with hk
  · rw [Finset.insert_eq_of_mem (List.mem_toFinset.mpr hk)]
  · rw [Finset.card_insert_of_notMem (fun hm => hk (List.mem_toFinset.mp hm))]

theorem Erased.length {k : ℕ} {l l' : List (ℕ × α)} (h : Erased k l l')
    (hs : KeySorted l) (hs' : KeySorted l') (hk : k ∈ l.map Prod.fst) :
    l'.length + 1 = l.length := by
  have he : (l'.map Prod.fst).toFinset = (l.map Prod.fst).toFinset.erase k := by
    ext x
    simp only [List.mem_toFinset, Finset.mem_erase]
    exact h.keys x
  rw [hs'.length_eq_card, hs.length_eq_card, he,
    Finset.card_erase_of_mem (List.mem_toFinset.mpr hk)]
  have := Finset.card_pos.mpr ⟨k, List.mem_toFinset.mpr hk⟩
  omega

theorem KeySorted.length_le {l : List (ℕ × α)} (hs : KeySorted l) {n : ℕ}
    (hb : ∀ x ∈ l.map Prod.fst, x < n) : l.length ≤ n := by
  rw [hs.length_eq_card]
  calc _ ≤ (Finset.range n).card := Finset.card_le_card fun x hx =>
        Finset.mem_range.mpr (hb x (List.mem_toFinset.mp hx))
    _ = n := Finset.card_range n

theorem KeySorted.length_le_of_mem_Ico {l : List (ℕ × α)} (hs : KeySorted l) {a n : ℕ}
    (hb : ∀ x ∈ l.map Prod.fst, a ≤ x ∧ x < a + n) : l.length ≤ n := by
  rw [hs.length_eq_card]
  calc _ ≤ (Finset.Ico a (a + n)).card := Finset.card_le_card fun x hx =>
        Finset.mem_Ico.mpr (hb x (List.mem_toFinset.mp hx))
    _ = n := by simp

/-- The first entry at or above `k`, found at its lower bound. -/
def firstFrom (l : List (ℕ × α)) (k : ℕ) : Option (ℕ × α) := l[lowerBound (l.map Prod.fst) k]?

theorem firstFrom_eq_find? (l : List (ℕ × α)) (k : ℕ) :
    firstFrom l k = l.find? fun e => k ≤ e.1 := by
  induction l with
  | nil => rfl
  | cons x xs ih =>
    rw [firstFrom, List.map_cons, lowerBound, List.find?_cons]
    split_ifs with hk
    · simp [hk]
    · simp only [hk, decide_false, List.getElem?_cons_succ]
      exact ih

/-- The entries from `k` on start with the first one found, and go on past it. -/
theorem KeySorted.filter_from {l : List (ℕ × α)} (hs : KeySorted l) {k x : ℕ} {v : α}
    (h : (l.find? fun e => k ≤ e.1) = some (x, v)) :
    (l.filter fun e => k ≤ e.1) = (x, v) :: l.filter fun e => x + 1 ≤ e.1 := by
  induction l with
  | nil => cases h
  | cons e es ih =>
    have hes := List.Pairwise.of_cons hs
    rw [List.find?_cons] at h
    by_cases hk : k ≤ e.1
    · simp only [hk, decide_true, Option.some.injEq] at h
      subst h
      have hall : ∀ y ∈ es, x + 1 ≤ y.1 := fun y hy => List.rel_of_pairwise_cons hs hy
      have h1 : (es.filter fun e => k ≤ e.1) = es := by
        rw [List.filter_eq_self]
        intro y hy
        have := hall y hy
        simp only at hk
        simp only [decide_eq_true_eq]
        omega
      have h2 : (es.filter fun e => x + 1 ≤ e.1) = es := by
        rw [List.filter_eq_self]
        intro y hy
        simpa using hall y hy
      rw [List.filter_cons, List.filter_cons, if_pos (by simpa using hk), if_neg (by simp), h1, h2]
    · simp only [hk, decide_false] at h
      have hx := List.find?_some h
      rw [List.filter_cons, List.filter_cons, if_neg (by simpa using hk), if_neg, ih hes h]
      simp only [decide_eq_true_eq] at hx ⊢
      omega

/-- In a sorted list the search answers the least entry at or above the key. -/
theorem KeySorted.find?_eq_some {l : List (ℕ × α)} (hs : KeySorted l) {k d : ℕ} {v : α} :
    (l.find? fun e => k ≤ e.1) = some (d, v) ↔
      (d, v) ∈ l ∧ k ≤ d ∧ ∀ x w, (x, w) ∈ l → k ≤ x → d ≤ x := by
  induction l with
  | nil => simp
  | cons e es ih =>
    obtain ⟨y, w⟩ := e
    have hes := List.Pairwise.of_cons hs
    have hlt : ∀ x w, (x, w) ∈ es → y < x := fun x w hx => List.rel_of_pairwise_cons hs hx
    rw [List.find?_cons]
    by_cases hy : k ≤ y
    · simp only [hy, decide_true, Option.some.injEq, Prod.mk.injEq]
      constructor
      · rintro ⟨rfl, rfl⟩
        refine ⟨by simp, hy, ?_⟩
        intro x w' hx _
        rcases List.mem_cons.mp hx with he | hx
        · cases he
          exact le_rfl
        · exact (hlt x w' hx).le
      · rintro ⟨hm, -, hmin⟩
        rcases List.mem_cons.mp hm with he | hm
        · cases he
          exact ⟨rfl, rfl⟩
        · have h1 := hmin y w (by simp) hy
          have h2 := hlt d v hm
          omega
    · simp only [hy, decide_false]
      rw [ih hes]
      constructor
      · rintro ⟨hm, hk, hmin⟩
        refine ⟨List.mem_cons_of_mem _ hm, hk, ?_⟩
        intro x w' hx hkx
        rcases List.mem_cons.mp hx with he | hx
        · cases he
          exact absurd hkx hy
        · exact hmin x w' hx hkx
      · rintro ⟨hm, hk, hmin⟩
        refine ⟨?_, hk, fun x w' hx => hmin x w' (List.mem_cons_of_mem _ hx)⟩
        rcases List.mem_cons.mp hm with he | hm
        · cases he
          exact absurd hk hy
        · exact hm

theorem lowerBound_eq_countP {keys : List ℕ} (hs : keys.Pairwise (· < ·)) (k : ℕ) :
    lowerBound keys k = keys.countP (· < k) := by
  induction keys with
  | nil => rfl
  | cons x xs ih =>
    rw [lowerBound, List.countP_cons]
    by_cases hk : k ≤ x
    · have hz : xs.countP (· < k) = 0 := by
        rw [List.countP_eq_zero]
        intro y hy
        have := List.rel_of_pairwise_cons hs hy
        simp only [decide_eq_true_eq]
        omega
      simp [hz, hk]
    · rw [if_neg hk, ih (List.Pairwise.of_cons hs), if_pos (by simpa using hk)]

theorem KeySorted.takeWhile_eq_filter {l : List (ℕ × α)} (hs : KeySorted l) (d : ℕ) :
    (l.takeWhile fun e => e.1 < d) = l.filter fun e => e.1 < d := by
  induction l with
  | nil => rfl
  | cons x xs ih =>
    obtain ⟨hhead, htail⟩ := List.pairwise_cons.mp hs
    rw [List.takeWhile_cons, List.filter_cons, ih htail]
    split_ifs with hx
    · rfl
    · refine (List.filter_eq_nil_iff.mpr fun e he => ?_).symm
      have := hhead e he
      have := of_decide_eq_false (by simpa using hx : decide (x.1 < d) = false)
      simp only [decide_eq_true_eq]
      omega

theorem KeySorted.dropWhile_eq_filter {l : List (ℕ × α)} (hs : KeySorted l) (d : ℕ) :
    (l.dropWhile fun e => e.1 < d) = l.filter fun e => d ≤ e.1 := by
  induction l with
  | nil => rfl
  | cons x xs ih =>
    rw [List.dropWhile_cons]
    by_cases hx : x.1 < d
    · rw [if_pos (by simpa using hx), ih (List.Pairwise.of_cons hs),
        List.filter_cons_of_neg (by simpa using hx)]
    · rw [if_neg (by simpa using hx), List.filter_eq_self.mpr]
      intro y hy
      rcases List.mem_cons.mp hy with rfl | hy
      · simpa using hx
      · have := List.rel_of_pairwise_cons hs hy
        simp only [decide_eq_true_eq]
        omega

theorem findSome?_congr {β : Type*} {l : List α} {f g : α → Option β}
    (h : ∀ x ∈ l, f x = g x) : l.findSome? f = l.findSome? g := by
  induction l with
  | nil => rfl
  | cons x xs ih =>
    rw [List.findSome?_cons, List.findSome?_cons, h x (by simp), ih fun y hy => h y (by simp [hy])]

/-- Elements that answer nothing may be left out of a search. -/
theorem findSome?_filter {β : Type*} {l : List α} {f : α → Option β} {p : α → Bool}
    (h : ∀ x ∈ l, p x = false → f x = none) : (l.filter p).findSome? f = l.findSome? f := by
  induction l with
  | nil => rfl
  | cons x xs ih =>
    have ih' := ih fun y hy => h y (by simp [hy])
    by_cases hp : p x = true
    · rw [List.filter_cons_of_pos hp, List.findSome?_cons, List.findSome?_cons, ih']
    · rw [List.filter_cons_of_neg hp, ih', List.findSome?_cons,
        h x (by simp) (by simpa using hp)]

/-- In a key-sorted list the keys below an entry's are the ones before it. -/
theorem KeySorted.countP_lt {l : List (ℕ × α)} (hs : KeySorted l) {i k : ℕ} {v : α}
    (h : l[i]? = some (k, v)) : l.countP (fun e => e.1 < k) = i := by
  induction l generalizing i with
  | nil => simp at h
  | cons e rest ih =>
    obtain ⟨hhead, htail⟩ := List.pairwise_cons.mp hs
    cases i with
    | zero =>
      simp only [List.getElem?_cons_zero, Option.some.injEq] at h
      subst h
      have hz : rest.countP (fun e => e.1 < k) = 0 := by
        rw [List.countP_eq_zero]
        intro f hf
        have := hhead f hf
        simp only [decide_eq_true_eq]
        exact not_lt.mpr this.le
      simp [hz]
    | succ i =>
      rw [List.getElem?_cons_succ] at h
      have hlt : e.1 < k := hhead _ (List.mem_of_getElem? h)
      rw [List.countP_cons_of_pos (by simpa using hlt), ih htail h]

theorem KeySorted.countP_le_of_mem {l : List (ℕ × α)} (hs : KeySorted l) {b : ℕ} {v : α}
    (h : (b, v) ∈ l) : l.countP (fun e => e.1 ≤ b) = l.countP (fun e => e.1 < b) + 1 := by
  induction l with
  | nil => cases h
  | cons e rest ih =>
    obtain ⟨hhead, htail⟩ := List.pairwise_cons.mp hs
    rcases List.mem_cons.mp h with rfl | hm
    -- every later key is larger
    · have hz : ∀ q : ℕ × α → Bool, (∀ f, q f = true → f.1 ≤ b) → rest.countP q = 0 := by
        intro q hq
        rw [List.countP_eq_zero]
        intro f hf hqf
        exact absurd (hhead f hf) (not_lt.mpr (hq f hqf))
      rw [List.countP_cons_of_pos (by simp), List.countP_cons_of_neg (by simp), hz _ (by simp),
        hz _ (fun f hf => (of_decide_eq_true hf).le)]
    · have hlt : e.1 < b := hhead _ hm
      rw [List.countP_cons_of_pos (by simpa using hlt.le),
        List.countP_cons_of_pos (by simpa using hlt), ih htail hm]

theorem countP_le_of_not_mem {l : List (ℕ × α)} {b : ℕ} (h : ∀ v, (b, v) ∉ l) :
    l.countP (fun e => e.1 ≤ b) = l.countP fun e => e.1 < b := by
  apply List.countP_congr
  rintro ⟨x, v⟩ hx
  simp only [decide_eq_true_eq]
  constructor
  · intro hle
    refine lt_of_le_of_ne hle ?_
    rintro rfl
    exact h v hx
  · exact le_of_lt

theorem countP_range {l : List (ℕ × α)} {a b : ℕ} (h : a ≤ b) :
    l.countP (fun e => e.1 < a) + l.countP (fun e => a ≤ e.1 ∧ e.1 ≤ b) =
      l.countP fun e => e.1 ≤ b := by
  induction l with
  | nil => rfl
  | cons e rest ih =>
    simp only [List.countP_cons, decide_eq_true_eq]
    split_ifs <;> omega

end Expanse.SortedAssoc
