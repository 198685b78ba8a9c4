import Expanse.Engine.IterSeek

/-!
# Frames

A frame walks the slots of one branch node. `slotsLeft` lists those it has left;
the next slot is the head of that list. Seeking a digit leaves the slots on its
far side.
-/

namespace Expanse

open Radix SortedAssoc

namespace Branch

variable {α : Type} [Nullable α] {dir : Direction} {b : Branch α} {pos d : ℕ} {c : α}

/-- The slots a walk has left in a node, in its order. -/
def slotsLeft (dir : Direction) (pos : ℕ) : Branch α → List (ℕ × α)
  | linear _ hdr edges => dir.rest pos (hdr.digits.zip edges)
  | bitmap _ kids => dir.restKeys pos kids.entries
  | uncompressed edges => dir.restKeys pos (uncompressed edges).slots

theorem keys_uncompressed {edges : List α} (h : (uncompressed edges).Ok) :
    (uncompressed edges).slots.map Prod.fst = (List.range 256).filter (filledAt edges) := by
  have hlen : edges.length = 256 := h
  apply pairwise_lt_ext (keySorted_iff.mp (slots_sorted h))
    (List.pairwise_lt_range.sublist List.filter_sublist)
  intro x
  simp only [List.mem_map, List.mem_filter, List.mem_range, filledAt, Bool.not_eq_true']
  constructor
  · rintro ⟨⟨d, c⟩, hm, rfl⟩
    obtain ⟨hf, hn⟩ := (mem_slots h).mp hm
    refine ⟨find_lt h hf, ?_⟩
    rw [List.getD_eq_getElem?_getD, show edges[d]? = some c from hf, Option.getD_some]
    by_contra hc
    exact hn rfl ((Nullable.isNull_iff c).mp (by simpa using hc))
  · rintro ⟨hx, hn⟩
    refine ⟨(x, edges.getD x Nullable.null), (mem_slots h).mpr ⟨?_, ?_⟩, rfl⟩
    · rw [find, List.getD_eq_getElem?_getD, List.getElem?_eq_getElem (by omega), Option.getD_some]
    · intro _ hc
      rw [(Nullable.isNull_iff _).mpr hc] at hn
      cases hn

omit [Nullable α] in
theorem head?_restKeys (k : ℕ) (l : List (ℕ × α)) :
    ((l.map Prod.fst).filter (k ≤ ·)).head? = (Direction.forward.restKeys k l).head?.map Prod.fst := by
  rw [List.filter_map, List.head?_map]
  rfl

omit [Nullable α] in
theorem getLast?_restKeys (k : ℕ) (l : List (ℕ × α)) :
    ((l.map Prod.fst).filter (· < k)).getLast? =
      (Direction.backward.restKeys k l).head?.map Prod.fst := by
  rw [List.filter_map, List.getLast?_map, Direction.restKeys, List.head?_reverse]
  rfl

theorem slotFrom_bitmap {level : ℕ} {kids : Ranked α} (h : kids.Ok) :
    slotFrom pos (bitmap level kids) =
      ((Direction.forward.restKeys pos kids.entries).head?).map fun s => (s.1, s.2, s.1 + 1) := by
  rw [slotFrom, Bitmap.nextSet_eq, ← Ranked.entries_keys h, head?_restKeys]
  cases hl : Direction.forward.restKeys pos kids.entries with
  | nil => rfl
  | cons s rest =>
    have hm := (Direction.restKeys_forward (Ranked.entries_sorted h) hl).2.1
    simp [(Ranked.mem_entries h).mp hm]

theorem slotBefore_bitmap {level : ℕ} {kids : Ranked α} (h : kids.Ok) (hpos : pos ≤ 256) :
    slotBefore pos (bitmap level kids) =
      ((Direction.backward.restKeys pos kids.entries).head?).map fun s => (s.1, s.2, s.1) := by
  rw [slotBefore]
  by_cases h0 : 0 < pos
  · have hp : (Bitmap.digits kids.bits).filter (· ≤ pos - 1) =
        (Bitmap.digits kids.bits).filter (· < pos) := by
      apply List.filter_congr
      intro x _
      rw [decide_eq_decide]
      omega
    rw [if_pos h0, Bitmap.prevSet_eq _ (by omega), hp, ← Ranked.entries_keys h, getLast?_restKeys]
    cases hl : Direction.backward.restKeys pos kids.entries with
    | nil => rfl
    | cons s rest =>
      have hm := (Direction.restKeys_backward (Ranked.entries_sorted h) hl).2.1
      simp [(Ranked.mem_entries h).mp hm]
  · have hz : Direction.backward.restKeys pos kids.entries = [] := by
      rw [Direction.restKeys, List.reverse_eq_nil_iff, List.filter_eq_nil_iff]
      intro x _
      simp only [decide_eq_true_eq]
      omega
    rw [if_neg h0, hz]
    rfl

theorem getD_of_slot {edges : List α} (h : (uncompressed edges).Ok)
    (hm : (d, c) ∈ (uncompressed edges).slots) : edges.getD d Nullable.null = c := by
  have hf : edges[d]? = some c := ((mem_slots h).mp hm).1
  rw [List.getD_eq_getElem?_getD, hf, Option.getD_some]

theorem slotFrom_uncompressed {edges : List α} (h : (uncompressed edges).Ok) :
    slotFrom pos (uncompressed edges) =
      ((Direction.forward.restKeys pos (uncompressed edges).slots).head?).map
        fun s => (s.1, s.2, s.1 + 1) := by
  rw [slotFrom, find?_from, ← keys_uncompressed h, head?_restKeys]
  cases hl : Direction.forward.restKeys pos (uncompressed edges).slots with
  | nil => rfl
  | cons s rest =>
    have hm := (Direction.restKeys_forward (slots_sorted h) hl).2.1
    simp only [List.head?_cons, Option.map_some, getD_of_slot h hm]

theorem slotBefore_uncompressed {edges : List α} (h : (uncompressed edges).Ok)
    (hpos : pos ≤ 256) :
    slotBefore pos (uncompressed edges) =
      ((Direction.backward.restKeys pos (uncompressed edges).slots).head?).map
        fun s => (s.1, s.2, s.1) := by
  rw [slotBefore, find?_before _ hpos, ← keys_uncompressed h, getLast?_restKeys]
  cases hl : Direction.backward.restKeys pos (uncompressed edges).slots with
  | nil => rfl
  | cons s rest =>
    have hm := (Direction.restKeys_backward (slots_sorted h) hl).2.1
    simp only [List.head?_cons, Option.map_some, getD_of_slot h hm]

theorem slotAt_nil (h : b.Ok) (hpos : pos ≤ b.startPos .backward)
    (hl : b.slotsLeft dir pos = []) : b.slotAt dir pos = none := by
  cases b with
  | linear form hdr edges =>
    rw [slotsLeft] at hl
    cases dir with
    | forward =>
      have := Direction.rest_forward_nil hl
      rw [slotAt, slotFrom, List.getElem?_eq_none this, Option.map_none]
    | backward =>
      have hlen : pos ≤ (hdr.digits.zip edges).length := by
        rw [List.length_zip, ← h.1, Nat.min_self]
        exact hpos
      rw [slotAt, slotBefore, Direction.rest_backward_nil hlen hl, if_neg (by omega)]
  | bitmap level kids =>
    rw [slotsLeft] at hl
    cases dir with
    | forward => rw [slotAt, slotFrom_bitmap h, hl]; rfl
    | backward => rw [slotAt, slotBefore_bitmap h hpos, hl]; rfl
  | uncompressed edges =>
    rw [slotsLeft] at hl
    cases dir with
    | forward => rw [slotAt, slotFrom_uncompressed h, hl]; rfl
    | backward => rw [slotAt, slotBefore_uncompressed h hpos, hl]; rfl

/-- The next slot is the head of those left, and its position leaves the tail. -/
theorem slotAt_cons (h : b.Ok) (hpos : pos ≤ b.startPos .backward) {rest : List (ℕ × α)}
    (hl : b.slotsLeft dir pos = (d, c) :: rest) :
    ∃ pos', b.slotAt dir pos = some (d, c, pos') ∧ b.slotsLeft dir pos' = rest ∧
      pos' ≤ b.startPos .backward := by
  cases b with
  | linear form hdr edges =>
    rw [slotsLeft] at hl
    have hlen : (hdr.digits.zip edges).length = hdr.digits.length := by
      rw [List.length_zip, ← h.1, Nat.min_self]
    cases dir with
    | forward =>
      obtain ⟨h1, h2, h3⟩ := Direction.rest_forward hl
      exact ⟨pos + 1, by rw [slotAt, slotFrom, h2]; rfl, h3, by rw [hlen] at h1; exact h1⟩
    | backward =>
      obtain ⟨h1, h2, h3⟩ := Direction.rest_backward (hlen.symm ▸ hpos) hl
      exact ⟨pos - 1, by rw [slotAt, slotBefore, if_pos h1, h2]; rfl, h3,
        (Nat.sub_le _ _).trans hpos⟩
  | bitmap level kids =>
    rw [slotsLeft] at hl
    cases dir with
    | forward =>
      obtain ⟨h1, h2, h3⟩ := Direction.restKeys_forward (Ranked.entries_sorted h) hl
      exact ⟨d + 1, by rw [slotAt, slotFrom_bitmap h, hl]; rfl, h3,
        Ranked.get_bound h ((Ranked.mem_entries h).mp h2)⟩
    | backward =>
      obtain ⟨h1, h2, h3⟩ := Direction.restKeys_backward (Ranked.entries_sorted h) hl
      exact ⟨d, by rw [slotAt, slotBefore_bitmap h hpos, hl]; rfl, h3,
        (Ranked.get_bound h ((Ranked.mem_entries h).mp h2)).le⟩
  | uncompressed edges =>
    rw [slotsLeft] at hl
    cases dir with
    | forward =>
      obtain ⟨h1, h2, h3⟩ := Direction.restKeys_forward (slots_sorted h) hl
      exact ⟨d + 1, by rw [slotAt, slotFrom_uncompressed h, hl]; rfl, h3,
        find_lt h ((mem_slots h).mp h2).1⟩
    | backward =>
      obtain ⟨h1, h2, h3⟩ := Direction.restKeys_backward (slots_sorted h) hl
      exact ⟨d, by rw [slotAt, slotBefore_uncompressed h hpos, hl]; rfl, h3,
        (find_lt h ((mem_slots h).mp h2).1).le⟩

omit [Nullable α] in
theorem startPos_le (dir : Direction) (b : Branch α) : b.startPos dir ≤ b.startPos .backward := by
  cases dir with
  | forward => exact Nat.zero_le _
  | backward => exact le_rfl

theorem slot_lt (h : b.Ok) {s : ℕ × α} (hs : s ∈ b.slots) : s.1 < 256 :=
  find_lt h ((mem_slots (d := s.1) (c := s.2) h).mp hs).1

theorem slotsLeft_start (h : b.Ok) : b.slotsLeft dir (b.startPos dir) = dir.order b.slots := by
  have hlt : ∀ s ∈ b.slots, s.1 < 256 := fun _ hs => slot_lt h hs
  have hall : ∀ l : List (ℕ × α), (∀ s ∈ l, s.1 < 256) →
      Direction.backward.restKeys 256 l = l.reverse := by
    intro l hl
    rw [Direction.restKeys, List.filter_eq_self.mpr]
    intro s hs
    exact decide_eq_true (hl s hs)
  have hzero : ∀ l : List (ℕ × α), Direction.forward.restKeys 0 l = l := by
    intro l
    rw [Direction.restKeys, List.filter_eq_self.mpr]
    intro s _
    exact decide_eq_true (Nat.zero_le _)
  cases b with
  | linear form hdr edges =>
    have hlen : (hdr.digits.zip edges).length = hdr.digits.length := by
      rw [List.length_zip, ← h.1, Nat.min_self]
    cases dir with
    | forward => rfl
    | backward => rw [slotsLeft, startPos, ← hlen, Direction.rest_length]; rfl
  | bitmap level kids =>
    cases dir with
    | forward => exact hzero _
    | backward => exact hall _ hlt
  | uncompressed edges =>
    cases dir with
    | forward => exact hzero _
    | backward => exact hall _ hlt

theorem slotsLeft_suffix (h : b.Ok) (dir : Direction) (pos : ℕ) :
    b.slotsLeft dir pos <:+ dir.order b.slots := by
  cases b with
  | linear form hdr edges => exact dir.rest_suffix _ _
  | bitmap level kids => exact dir.restKeys_suffix (Ranked.entries_sorted h) _
  | uncompressed edges => exact dir.restKeys_suffix (slots_sorted h) _

theorem slotsLeft_seek (h : b.Ok) (t : ℕ) :
    b.slotsLeft .forward (b.seekPos t) = b.slots.filter (t ≤ ·.1) := by
  cases b with
  | linear form hdr edges =>
    have hr := Direction.forward.rest_lowerBound (zip_sorted h) t
    rw [zip_keys h] at hr
    exact hr
  | bitmap level kids => rfl
  | uncompressed edges => rfl

theorem slotsLeft_seekBack (h : b.Ok) (t : ℕ) :
    b.slotsLeft .backward (b.seekBackPos t) = (b.slots.filter (·.1 ≤ t)).reverse := by
  have hle : ∀ l : List (ℕ × α), l.filter (·.1 < t + 1) = l.filter (·.1 ≤ t) := by
    intro l
    simp only [Nat.lt_succ_iff]
  cases b with
  | linear form hdr edges =>
    have hr := Direction.backward.rest_lowerBound (zip_sorted h) (t + 1)
    rw [zip_keys h, Direction.restKeys, hle] at hr
    rw [slotsLeft, seekBackPos, SortedAssoc.length_filter_le _ h.2.1]
    exact hr
  | bitmap level kids => rw [slotsLeft, seekBackPos, Direction.restKeys, hle]; rfl
  | uncompressed edges => rw [slotsLeft, seekBackPos, Direction.restKeys, hle]

omit [Nullable α] in
theorem seekPos_le {t : ℕ} (ht : t < 256) : b.seekPos t ≤ b.startPos .backward := by
  cases b with
  | linear form hdr edges => exact lowerBound_le _ _
  | bitmap level kids => exact ht.le
  | uncompressed edges => exact ht.le

omit [Nullable α] in
theorem seekBackPos_le {t : ℕ} (ht : t < 256) :
    b.seekBackPos t ≤ b.startPos .backward := by
  cases b with
  | linear form hdr edges => exact List.length_filter_le _ _
  | bitmap level kids => exact ht
  | uncompressed edges => exact ht

end Branch

end Expanse
