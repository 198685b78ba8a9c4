import Mathlib.Data.List.Sort
import Mathlib.Tactic

/-!
# Merges of ascending lists

A merge of two ascending lists hands out the elements of one list only, of both, or of
the other only, as it is told; each once and in order. A seek in an ascending list
finds its first element from a bound on.
-/

namespace Expanse.Merges

variable {α : Type} [LinearOrder α]

/-- What a merge hands out: elements of the left list only, of both, of the right list only. -/
structure Keep where
  left : Bool
  both : Bool
  right : Bool

/-- `x`, if it is wanted, in front of the rest. -/
def consIf (wanted : Bool) (x : α) (l : List α) : List α := if wanted then x :: l else l

omit [LinearOrder α] in
theorem mem_consIf {wanted : Bool} {x y : α} {l : List α} :
    y ∈ consIf wanted x l ↔ wanted = true ∧ y = x ∨ y ∈ l := by
  cases wanted <;> simp [consIf]

def merge (keep : Keep) : List α → List α → List α
  | l, [] => if keep.left then l else []
  | [], m => if keep.right then m else []
  | x :: l, y :: m =>
    if x < y then consIf keep.left x (merge keep l (y :: m))
    else if y < x then consIf keep.right y (merge keep (x :: l) m)
    else consIf keep.both x (merge keep l m)
termination_by l m => l.length + m.length

variable {keep : Keep} {l m all : List α} {x y z b : α}

theorem merge_nil : merge keep l [] = if keep.left then l else [] := by
  rw [merge]

theorem nil_merge : merge keep [] m = if keep.right then m else [] := by
  cases m with
  | nil =>
    rw [merge]
    split_ifs <;> rfl
  | cons y m =>
    rw [merge]
    intro hc
    cases hc

theorem merge_cons_lt (h : y < z) :
    merge keep (y :: l) (z :: m) = consIf keep.left y (merge keep l (z :: m)) := by
  rw [merge, if_pos h]

theorem merge_cons_gt (h : z < y) :
    merge keep (y :: l) (z :: m) = consIf keep.right z (merge keep (y :: l) m) := by
  rw [merge, if_neg h.asymm, if_pos h]

theorem merge_cons_eq : merge keep (y :: l) (y :: m) = consIf keep.both y (merge keep l m) := by
  rw [merge, if_neg (lt_irrefl y), if_neg (lt_irrefl y)]

/-- The elements a merge is to hand out. -/
def Wanted (keep : Keep) (l m : List α) (x : α) : Prop :=
  x ∈ l ∧ x ∉ m ∧ keep.left = true ∨ x ∈ l ∧ x ∈ m ∧ keep.both = true ∨
    x ∉ l ∧ x ∈ m ∧ keep.right = true

/-- The head of an ascending list is not among what follows it. -/
theorem not_mem_of_sorted (hl : (x :: l).Pairwise (· < ·)) : x ∉ l :=
  fun h => lt_irrefl x ((List.pairwise_cons.mp hl).1 x h)

theorem not_mem_of_lt_head (hl : (y :: l).Pairwise (· < ·)) (hx : x < y) : x ∉ y :: l := by
  intro h
  rcases List.mem_cons.mp h with rfl | h
  · exact lt_irrefl _ hx
  · exact lt_asymm hx ((List.pairwise_cons.mp hl).1 x h)

omit [LinearOrder α] in
/-- What a head that only the left list has adds to the wanted elements. -/
theorem wanted_left (hl : y ∉ l) (hm : y ∉ m) :
    Wanted keep (y :: l) m x ↔ keep.left = true ∧ x = y ∨ Wanted keep l m x := by
  by_cases hx : x = y
  · subst hx
    simp [Wanted, hl, hm]
  · simp [Wanted, hx]

omit [LinearOrder α] in
theorem wanted_right (hl : y ∉ l) (hm : y ∉ m) :
    Wanted keep l (y :: m) x ↔ keep.right = true ∧ x = y ∨ Wanted keep l m x := by
  by_cases hx : x = y
  · subst hx
    simp [Wanted, hl, hm]
  · simp [Wanted, hx]

omit [LinearOrder α] in
theorem wanted_both (hl : y ∉ l) (hm : y ∉ m) :
    Wanted keep (y :: l) (y :: m) x ↔ keep.both = true ∧ x = y ∨ Wanted keep l m x := by
  by_cases hx : x = y
  · subst hx
    simp [Wanted, hl, hm]
  · simp [Wanted, hx]

theorem mem_merge (hl : l.Pairwise (· < ·)) (hm : m.Pairwise (· < ·)) :
    x ∈ merge keep l m ↔ Wanted keep l m x := by
  induction l generalizing m with
  | nil =>
    rw [nil_merge]
    cases hk : keep.right <;> simp [Wanted, hk]
  | cons y l ihl =>
    have hl' := List.Pairwise.of_cons hl
    have hyl := not_mem_of_sorted hl
    induction m with
    | nil =>
      rw [merge_nil]
      cases hk : keep.left <;> simp [Wanted, hk]
    | cons z m ihm =>
      have hm' := List.Pairwise.of_cons hm
      have hzm := not_mem_of_sorted hm
      rcases lt_trichotomy y z with hlt | rfl | hgt
      · rw [merge_cons_lt hlt, mem_consIf, ihl hl' hm, wanted_left hyl (not_mem_of_lt_head hm hlt)]
      · rw [merge_cons_eq, mem_consIf, ihl hl' hm', wanted_both hyl hzm]
      · have ih : x ∈ merge keep (y :: l) m ↔ Wanted keep (y :: l) m x := ihm hm'
        rw [merge_cons_gt hgt, mem_consIf, ih, wanted_right (not_mem_of_lt_head hl hgt) hzm]

theorem consIf_sorted {wanted : Bool} (hl : l.Pairwise (· < ·)) (hx : ∀ y ∈ l, x < y) :
    (consIf wanted x l).Pairwise (· < ·) := by
  cases wanted with
  | false => exact hl
  | true => exact List.pairwise_cons.mpr ⟨hx, hl⟩

theorem mem_or_mem_of_merge (hl : l.Pairwise (· < ·)) (hm : m.Pairwise (· < ·))
    (hx : x ∈ merge keep l m) : x ∈ l ∨ x ∈ m := by
  rcases (mem_merge hl hm).mp hx with ⟨h, -⟩ | ⟨h, -⟩ | ⟨-, h, -⟩
  · exact .inl h
  · exact .inl h
  · exact .inr h

theorem merge_sorted (hl : l.Pairwise (· < ·)) (hm : m.Pairwise (· < ·)) :
    (merge keep l m).Pairwise (· < ·) := by
  induction l generalizing m with
  | nil =>
    rw [nil_merge]
    split_ifs
    · exact hm
    · exact .nil
  | cons y l ihl =>
    have hl' := List.Pairwise.of_cons hl
    have hly := (List.pairwise_cons.mp hl).1
    induction m with
    | nil =>
      rw [merge_nil]
      split_ifs
      · exact hl
      · exact .nil
    | cons z m ihm =>
      have hm' := List.Pairwise.of_cons hm
      have hmz := (List.pairwise_cons.mp hm).1
      rcases lt_trichotomy y z with hlt | rfl | hgt
      · rw [merge_cons_lt hlt]
        refine consIf_sorted (ihl hl' hm) fun w hw => ?_
        rcases mem_or_mem_of_merge hl' hm hw with hw | hw
        · exact hly w hw
        · rcases List.mem_cons.mp hw with rfl | hw
          · exact hlt
          · exact hlt.trans (hmz w hw)
      · rw [merge_cons_eq]
        refine consIf_sorted (ihl hl' hm') fun w hw => ?_
        rcases mem_or_mem_of_merge hl' hm' hw with hw | hw
        · exact hly w hw
        · exact hmz w hw
      · rw [merge_cons_gt hgt]
        refine consIf_sorted (ihm hm') fun w hw => ?_
        rcases mem_or_mem_of_merge hl hm' hw with hw | hw
        · rcases List.mem_cons.mp hw with rfl | hw
          · exact hgt
          · exact hgt.trans (hly w hw)
        · exact hmz w hw

/-- Beyond the first element of a suffix lies the rest of it. -/
theorem filter_gt_of_suffix (hs : all.Pairwise (· < ·)) (hl : x :: l <:+ all) :
    all.filter (x < ·) = l := by
  obtain ⟨pre, rfl⟩ := hl
  obtain ⟨-, hxl, hpre⟩ := List.pairwise_append.mp hs
  have hnil : pre.filter (x < ·) = [] := by
    rw [List.filter_eq_nil_iff]
    intro y hy
    simpa using (hpre y hy x List.mem_cons_self).le
  have hall : l.filter (x < ·) = l := by
    rw [List.filter_eq_self]
    intro y hy
    simpa using (List.pairwise_cons.mp hxl).1 y hy
  rw [List.filter_append, hnil, List.nil_append, List.filter_cons_of_neg (by simp), hall]

def fromBound (l : List α) (b : α) : List α := l.filter (b ≤ ·)

@[simp] theorem mem_fromBound : x ∈ fromBound l b ↔ x ∈ l ∧ b ≤ x := by
  simp [fromBound]

theorem fromBound_sorted (hl : l.Pairwise (· < ·)) : (fromBound l b).Pairwise (· < ·) := hl.filter _

theorem head?_fromBound (hl : l.Pairwise (· < ·)) :
    (fromBound l b).head? = some x ↔ x ∈ l ∧ b ≤ x ∧ ∀ y ∈ l, b ≤ y → x ≤ y := by
  have hs := fromBound_sorted (b := b) hl
  constructor
  · intro h
    obtain ⟨t, ht⟩ := List.head?_eq_some_iff.mp h
    have hx : x ∈ fromBound l b := by
      rw [ht]
      exact List.mem_cons_self
    rw [ht] at hs
    refine ⟨(mem_fromBound.mp hx).1, (mem_fromBound.mp hx).2, fun y hy hb => ?_⟩
    have hmem : y ∈ fromBound l b := mem_fromBound.mpr ⟨hy, hb⟩
    rw [ht] at hmem
    rcases List.mem_cons.mp hmem with rfl | hmem
    · exact le_rfl
    · exact ((List.pairwise_cons.mp hs).1 y hmem).le
  · rintro ⟨hx, hb, hmin⟩
    have hmem : x ∈ fromBound l b := mem_fromBound.mpr ⟨hx, hb⟩
    cases ht : fromBound l b with
    | nil =>
      rw [ht] at hmem
      cases hmem
    | cons z t =>
      rw [ht] at hmem hs
      have hz : z ∈ fromBound l b := by
        rw [ht]
        exact List.mem_cons_self
      obtain ⟨hzl, hzb⟩ := mem_fromBound.mp hz
      rw [List.head?_cons, Option.some.injEq]
      rcases List.mem_cons.mp hmem with rfl | hmem
      · rfl
      · exact absurd (hmin z hzl hzb) (not_le.mpr ((List.pairwise_cons.mp hs).1 x hmem))

/-- Beyond the first element from a bound on lies a part of what follows it. -/
theorem fromBound_of_head {t : List α} {c : α} (h : fromBound l b = c :: t) (hx : c < x) :
    fromBound l x = t.filter (x ≤ ·) := by
  have hc : c ∈ fromBound l b := by
    rw [h]
    exact List.mem_cons_self
  have hbc := (mem_fromBound.mp hc).2
  have hsplit : fromBound l x = (fromBound l b).filter (x ≤ ·) := by
    rw [fromBound, fromBound, List.filter_filter]
    apply List.filter_congr
    intro y _
    rw [← Bool.decide_and, decide_eq_decide]
    exact ⟨fun h => ⟨h, hbc.trans (hx.le.trans h)⟩, fun h => h.1⟩
  rw [hsplit, h, List.filter_cons_of_neg (by simpa using hx)]

theorem head?_fromBound_eq_none : (fromBound l b).head? = none ↔ ∀ y ∈ l, y < b := by
  rw [List.head?_eq_none_iff, fromBound, List.filter_eq_nil_iff]
  simp

end Expanse.Merges
