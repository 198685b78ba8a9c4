import Expanse.Engine.IterLeaf

/-!
# Placing a cursor on a leaf form

A walk enters a leaf form at one end and hands out all of its entries; a seek
places the cursor so that it hands out those from its key on, in the order of the
walk.
-/

namespace Expanse

open Radix SortedAssoc

namespace Edge

variable {V : Type} {B p s : ℕ} {l : List (ℕ × V)}

theorem order_shift (dir : Direction) (n : ℕ) : dir.order (shift n l) = shift n (dir.order l) :=
  dir.order_map _ _

/-- The entries of an aligned block from a key on. -/
theorem filter_shift_from (hB : 0 < B) (hp : B ∣ p) (hl : ∀ e ∈ l, e.1 < B) :
    (shift p l).filter (s ≤ ·.1) =
      if p / B < s / B then []
      else if s / B < p / B then shift p l
      else shift p (l.filter (s % B ≤ ·.1)) := by
  obtain ⟨x, rfl⟩ := hp
  have hs := Nat.div_add_mod s B
  have hr := Nat.mod_lt s hB
  rw [Nat.mul_div_cancel_left x hB]
  generalize s / B = q at hs
  generalize s % B = r at hs hr
  rw [shift, List.filter_map]
  split_ifs with h1 h2
  · have : B * (x + 1) ≤ B * q := Nat.mul_le_mul_left B h1
    rw [Nat.mul_add] at this
    rw [List.map_eq_nil_iff, List.filter_eq_nil_iff]
    intro e he
    have := hl e he
    simp only [Function.comp, decide_eq_true_eq]
    omega
  · have : B * (q + 1) ≤ B * x := Nat.mul_le_mul_left B h2
    rw [Nat.mul_add] at this
    rw [List.filter_eq_self.mpr]
    intro e _
    simp only [Function.comp, decide_eq_true_eq]
    omega
  · rw [show q = x by omega] at hs
    rw [shift]
    congr 1
    apply List.filter_congr
    intro e _
    simp only [Function.comp, decide_eq_decide]
    omega

/-- The entries of an aligned block up to a key. -/
theorem filter_shift_to (hB : 0 < B) (hp : B ∣ p) (hl : ∀ e ∈ l, e.1 < B) :
    (shift p l).filter (·.1 ≤ s) =
      if s / B < p / B then []
      else if p / B < s / B then shift p l
      else shift p (l.filter (·.1 ≤ s % B)) := by
  obtain ⟨x, rfl⟩ := hp
  have hs := Nat.div_add_mod s B
  have hr := Nat.mod_lt s hB
  rw [Nat.mul_div_cancel_left x hB]
  generalize s / B = q at hs
  generalize s % B = r at hs hr
  rw [shift, List.filter_map]
  split_ifs with h1 h2
  · have : B * (q + 1) ≤ B * x := Nat.mul_le_mul_left B h1
    rw [Nat.mul_add] at this
    rw [List.map_eq_nil_iff, List.filter_eq_nil_iff]
    intro e _
    simp only [Function.comp, decide_eq_true_eq]
    omega
  · have : B * (x + 1) ≤ B * q := Nat.mul_le_mul_left B h2
    rw [Nat.mul_add] at this
    rw [List.filter_eq_self.mpr]
    intro e he
    have := hl e he
    simp only [Function.comp, decide_eq_true_eq]
    omega
  · rw [show q = x by omega] at hs
    rw [shift]
    congr 1
    apply List.filter_congr
    intro e _
    simp only [Function.comp, decide_eq_decide]
    omega

def isFull : Edge V → Bool
  | fullExpanse _ => true
  | _ => false

def isTerminal : Edge V → Bool
  | null => false
  | branch _ _ => false
  | _ => true

end Edge

namespace LeafCursor

open Edge

variable {V : Type} {dir : Direction} {fl : Flavour} {L pre : ℕ}

theorem zip_map_add (keys : List ℕ) (vals : List V) (pre : ℕ) :
    (keys.map (pre + ·)).zip vals = shift pre (keys.zip vals) := by
  rw [List.zip_map_left]
  rfl

theorem pairwise_map_add {keys : List ℕ} (h : keys.Pairwise (· < ·)) (pre : ℕ) :
    (keys.map (pre + ·)).Pairwise (· < ·) :=
  List.pairwise_map.mpr (h.imp fun hab => by omega)

theorem enter_multi {cols : Columns V} {kb : ℕ} {x y : ℕ × V} {ys : List (ℕ × V)}
    (hc : cols.entries = x :: y :: ys) :
    enter .forward fl (immed kb cols) L pre = immedMulti (cols.keys.map (pre + ·)) cols.vals 0 := by
  simp only [enter, first, hc]

theorem enter_multi_back {cols : Columns V} {kb : ℕ} {x y : ℕ × V} {ys : List (ℕ × V)}
    (hc : cols.entries = x :: y :: ys) :
    enter .backward fl (immed kb cols) L pre =
      immedMulti (cols.keys.map (pre + ·)) cols.vals cols.size := by
  simp only [enter, last, hc]

section Rows

variable {node : Ranked V} {d start : ℕ}

theorem range_split (hd : d < 256) :
    List.range 8 = List.range (d / 32) ++ d / 32 :: List.range' (d / 32 + 1) (7 - d / 32) := by
  have h := List.range'_append_1 (s := 0) (m := d / 32) (n := 8 - d / 32)
  rw [show d / 32 + (8 - d / 32) = 8 by omega, Nat.zero_add,
    show 8 - d / 32 = 7 - d / 32 + 1 by omega, List.range'_succ] at h
  rw [List.range_eq_range', List.range_eq_range', h]

theorem entries_split (hd : d < 256) :
    node.entries = (List.range (d / 32)).flatMap node.row ++
      (node.row (d / 32) ++ (List.range' (d / 32 + 1) (7 - d / 32)).flatMap node.row) := by
  rw [Ranked.entries, range_split hd, List.flatMap_append, List.flatMap_cons]

theorem entries_from (hok : node.Ok) (hd : d < 256) :
    node.entries.filter (d ≤ ·.1) = (node.row (d / 32)).drop (Bitmap.subexpanseRank node.bits d) ++
      (List.range' (d / 32 + 1) (7 - d / 32)).flatMap node.row := by
  have hrow := (Direction.forward).rest_lowerBound (Ranked.row_sorted hok
    (show d / 32 < 8 by omega)) d
  rw [Ranked.row_keys hok (by omega), ← Bitmap.subexpanseRank_eq] at hrow
  rw [entries_split hd, List.filter_append, List.filter_append]
  have h1 : ((List.range (d / 32)).flatMap node.row).filter (d ≤ ·.1) = [] := by
    rw [List.filter_eq_nil_iff]
    rintro ⟨x, v⟩ hx
    obtain ⟨i, hi, hx⟩ := List.mem_flatMap.mp hx
    have := (Ranked.mem_row.mp hx).1
    have := List.mem_range.mp hi
    simp only [decide_eq_true_eq]
    omega
  have h2 : ((List.range' (d / 32 + 1) (7 - d / 32)).flatMap node.row).filter (d ≤ ·.1) =
      (List.range' (d / 32 + 1) (7 - d / 32)).flatMap node.row := by
    rw [List.filter_eq_self]
    rintro ⟨x, v⟩ hx
    obtain ⟨i, hi, hx⟩ := List.mem_flatMap.mp hx
    have := (Ranked.mem_row.mp hx).1
    have := List.mem_range'_1.mp hi
    simp only [decide_eq_true_eq]
    omega
  rw [h1, h2, List.nil_append]
  exact congrArg (· ++ _) hrow.symm

theorem entries_to (hok : node.Ok) (hd : d < 256) :
    node.entries.filter (·.1 ≤ d) = (List.range (d / 32)).flatMap node.row ++
      (node.row (d / 32)).take (lowerBound (Bitmap.subDigits node.bits (d / 32)) (d + 1)) := by
  have hrow := (Direction.backward).rest_lowerBound (Ranked.row_sorted hok
    (show d / 32 < 8 by omega)) (d + 1)
  rw [Ranked.row_keys hok (by omega)] at hrow
  rw [entries_split hd, List.filter_append, List.filter_append]
  have h1 : ((List.range (d / 32)).flatMap node.row).filter (·.1 ≤ d) =
      (List.range (d / 32)).flatMap node.row := by
    rw [List.filter_eq_self]
    rintro ⟨x, v⟩ hx
    obtain ⟨i, hi, hx⟩ := List.mem_flatMap.mp hx
    have := (Ranked.mem_row.mp hx).1
    have := List.mem_range.mp hi
    simp only [decide_eq_true_eq]
    omega
  have h2 : ((List.range' (d / 32 + 1) (7 - d / 32)).flatMap node.row).filter (·.1 ≤ d) = [] := by
    rw [List.filter_eq_nil_iff]
    rintro ⟨x, v⟩ hx
    obtain ⟨i, hi, hx⟩ := List.mem_flatMap.mp hx
    have := (Ranked.mem_row.mp hx).1
    have := List.mem_range'_1.mp hi
    simp only [decide_eq_true_eq]
    omega
  rw [h1, h2, List.append_nil]
  congr 1
  have := List.reverse_injective hrow
  rw [this]
  simp only [Nat.lt_succ_iff]

theorem filter_leafB1 (hok : node.Ok) {p : ℕ} (hp : 256 ∣ p)
    (hle : ¬ p / 256 < start / 256) :
    (shift p node.entries).filter (start ≤ ·.1) = shift p (node.entries.filter
      ((if start / 256 < p / 256 then 0 else start % 256) ≤ ·.1)) := by
  rw [filter_shift_from (by decide) hp, if_neg hle]
  · split_ifs
    · simp
    · rfl
  · rintro ⟨k, v⟩ hm
    exact Ranked.get_bound hok ((Ranked.mem_entries hok).mp hm)

theorem filter_nextSet (hok : node.Ok) {t : ℕ} :
    (Bitmap.nextSet node.bits t = none → node.entries.filter (t ≤ ·.1) = []) ∧
      ∀ d, Bitmap.nextSet node.bits t = some d →
        d < 256 ∧ node.bits.testBit d = true ∧
          node.entries.filter (t ≤ ·.1) = node.entries.filter (d ≤ ·.1) := by
  constructor
  · intro hn
    rw [List.filter_eq_nil_iff]
    rintro ⟨x, v⟩ hx
    have hd := List.mem_map_of_mem (f := Prod.fst) hx
    rw [Ranked.entries_keys hok] at hd
    rw [Bitmap.nextSet_eq, List.head?_eq_none_iff, List.filter_eq_nil_iff] at hn
    exact hn x hd
  · intro d hd
    rw [Bitmap.nextSet_eq_some] at hd
    obtain ⟨hle, hlt, hb, hmin⟩ := hd
    refine ⟨hlt, hb, ?_⟩
    apply List.filter_congr
    rintro ⟨x, v⟩ hx
    have hx' := (Bitmap.mem_digits.mp (Ranked.entries_keys hok ▸
      List.mem_map_of_mem (f := Prod.fst) hx)).2
    rw [decide_eq_decide]
    constructor
    · intro htx
      by_contra hc
      rw [hmin x htx (by omega)] at hx'
      cases hx'
    · intro hdx
      exact hle.trans hdx

theorem filter_leafB1_to (hok : node.Ok) {p : ℕ} (hp : 256 ∣ p)
    (hle : ¬ start / 256 < p / 256) :
    (shift p node.entries).filter (·.1 ≤ start) = shift p (node.entries.filter
      (·.1 ≤ if p / 256 < start / 256 then 255 else start % 256)) := by
  have hb : ∀ x ∈ node.entries, x.1 < 256 := by
    rintro ⟨k, v⟩ hm
    exact Ranked.get_bound hok ((Ranked.mem_entries hok).mp hm)
  rw [filter_shift_to (by decide) hp hb, if_neg hle]
  split_ifs
  · rw [List.filter_eq_self.mpr]
    intro x hx
    have := hb x hx
    simp only [decide_eq_true_eq]
    omega
  · rfl

theorem filter_prevSet (hok : node.Ok) {t : ℕ} (ht : t < 256) :
    (Bitmap.prevSet node.bits t = none → node.entries.filter (·.1 ≤ t) = []) ∧
      ∀ d, Bitmap.prevSet node.bits t = some d →
        d < 256 ∧ node.entries.filter (·.1 ≤ t) = node.entries.filter (·.1 ≤ d) := by
  have hkey : ∀ x ∈ node.entries, x.1 ∈ Bitmap.digits node.bits := by
    intro x hx
    rw [← Ranked.entries_keys hok]
    exact List.mem_map_of_mem hx
  rw [Bitmap.prevSet_eq _ ht]
  constructor
  · intro hn
    rw [List.getLast?_eq_none_iff, List.filter_eq_nil_iff] at hn
    rw [List.filter_eq_nil_iff]
    intro x hx
    exact hn x.1 (hkey x hx)
  · intro d hd
    obtain ⟨ys, hys⟩ := List.getLast?_eq_some_iff.mp hd
    have hm : d ∈ (Bitmap.digits node.bits).filter (· ≤ t) := by
      rw [hys]
      simp
    obtain ⟨hm, hle⟩ := List.mem_filter.mp hm
    rw [decide_eq_true_eq] at hle
    refine ⟨(Bitmap.mem_digits.mp hm).1, ?_⟩
    apply List.filter_congr
    intro x hx
    rw [decide_eq_decide]
    constructor
    · intro hxt
      have hx' : x.1 ∈ ys ++ [d] := by
        rw [← hys]
        exact List.mem_filter.mpr ⟨hkey x hx, decide_eq_true hxt⟩
      have hs : (ys ++ [d]).Pairwise (· < ·) := by
        rw [← hys]
        exact (Bitmap.digits_sorted _).sublist List.filter_sublist
      rcases List.mem_append.mp hx' with h | h
      · exact ((List.pairwise_append.mp hs).2.2 x.1 h d (by simp)).le
      · exact (List.mem_singleton.mp h).le
    · intro hxd
      exact hxd.trans hle

end Rows

theorem filter_le_eq {l : List (ℕ × V)} (b : ℕ) :
    l.filter (·.1 ≤ b) = l.filter (·.1 < b + 1) := by
  simp only [Nat.lt_succ_iff]

variable [Inhabited V] {P : Branch (Edge V) → Prop} {start : ℕ} {e : Edge V}

/-- A cursor placed on the form `e` that hands out `l`. -/
structure Placed (dir : Direction) (L pre : ℕ) (e : Edge V) (c : LeafCursor V)
    (l : List (ℕ × V)) : Prop where
  ok : c.Ok dir
  left : c.left dir = l
  full_of : dir = .forward → ∀ m, c.fullMax = some m → e.isFull = true ∧ m = pre + (256 ^ L - 1)
  of_full : dir = .forward → e.isFull = true → l ≠ [] → c.fullMax = some (pre + (256 ^ L - 1))
  inTree : c.isEmpty = false → c.inTree = true

theorem Placed.plain {c : LeafCursor V} {l : List (ℕ × V)} (he : e.isFull = false)
    (hc : c.fullMax = none) (ht : c.inTree = true) (hok : c.Ok dir) (hl : c.left dir = l) :
    Placed dir L pre e c l where
  ok := hok
  left := hl
  inTree := fun _ => ht
  full_of := by
    intro _ m hm
    rw [hc] at hm
    cases hm
  of_full := by
    intro _ hf
    rw [he] at hf
    cases hf

theorem Placed.empty {l : List (ℕ × V)} (hl : l = []) :
    Placed dir L pre e (empty : LeafCursor V) l where
  ok := trivial
  left := by rw [hl]; rfl
  inTree := fun h => (by cases h)
  full_of := by
    intro _ m hm
    cases hm
  of_full := by
    intro _ _ hn
    exact absurd hl hn

/-- The entries of a set's bitmap leaf carry no values. -/
theorem entries_of_default {node : Ranked V} (hok : node.Ok) (hV : ∀ v : V, v = default) :
    node.entries = (Bitmap.digits node.bits).map fun d => (d, default) := by
  rw [← Ranked.entries_keys hok, List.map_map]
  conv_lhs => rw [← List.map_id node.entries]
  apply List.map_congr_left
  rintro ⟨d, v⟩ _
  rw [hV v]
  rfl

theorem dvd_leafPre {kb : ℕ} (aux : ℕ) (hpre : 256 ^ L ∣ pre) (hkb : kb ≤ L) :
    256 ^ kb ∣ pre + slice aux kb L * 256 ^ kb :=
  Dvd.dvd.add ((pow_dvd_pow 256 hkb).trans hpre) (Dvd.intro_left _ rfl)

variable (dir) in
theorem enter_placed (h : Readable fl P L e) (ht : e.isTerminal = true)
    (hV : fl = .set → ∀ v : V, v = default) (hpre : 256 ^ L ∣ pre) :
    Placed dir L pre e (enter dir fl e L pre) (dir.order (shift pre (entries L e))) ∧
      (enter dir fl e L pre).isEmpty = false := by
  cases e with
  | null => cases ht
  | branch aux node => cases ht
  | immed kb cols =>
    rw [Readable] at h
    obtain ⟨rfl, h1, hp, hs⟩ := h
    have hlen := cols.length_entries
    rw [entries, order_shift]
    cases hc : cols.entries with
    | nil =>
      rw [hc, List.length_nil] at hlen
      omega
    | cons x xs =>
      cases xs with
      | nil =>
        have he : enter dir fl (immed kb cols) kb pre = immedSingle (pre + x.1) x.2 false := by
          cases dir <;> simp only [enter, first, last, hc]
        rw [he]
        refine ⟨.plain rfl rfl rfl trivial ?_, rfl⟩
        cases dir <;> rfl
      | cons y ys =>
        rw [← hc]
        cases dir with
        | forward =>
          rw [enter_multi hc]
          refine ⟨.plain rfl rfl rfl ⟨pairwise_map_add hp.sorted pre, by simp [cols.same],
            Nat.zero_le _⟩ ?_, rfl⟩
          rw [left, zip_map_add]
          rfl
        | backward =>
          rw [enter_multi_back hc]
          refine ⟨.plain rfl rfl rfl ⟨pairwise_map_add hp.sorted pre, by simp [cols.same],
            by simp [Columns.size]⟩ ?_, rfl⟩
          rw [left, zip_map_add, ← Columns.length_entries, ← length_shift (n := pre), Columns.entries,
            Direction.rest_length, order_shift]
  | leaf kb aux cols =>
    rw [Readable] at h
    obtain ⟨h1, hkb, hp, hs, hpop⟩ := h
    rw [entries, shift_shift, order_shift]
    cases dir with
    | forward =>
      exact ⟨.plain rfl rfl rfl ⟨hp, hpop, by omega, dvd_leafPre _ hpre hkb⟩ rfl, rfl⟩
    | backward =>
      refine ⟨.plain rfl rfl rfl ⟨hp, hpop, hpop.le, dvd_leafPre _ hpre hkb⟩ ?_, rfl⟩
      rw [enter, last, left, hpop, ← Columns.length_entries, Direction.rest_length]
  | leafB1 aux node =>
    rw [Readable] at h
    obtain ⟨h1, hok, hcount, hpop⟩ := h
    have hdvd := dvd_leafPre aux hpre h1
    rw [entries, shift_shift, order_shift]
    cases fl with
    | set =>
      rw [entries_of_default hok (hV rfl), dir.order_map]
      cases dir with
      | forward =>
        refine ⟨.plain rfl rfl rfl ⟨hdvd, fun d _ => by omega⟩ ?_, rfl⟩
        rw [enter, first, left, shift, List.map_map]
        rfl
      | backward =>
        refine ⟨.plain rfl rfl rfl ⟨hdvd, by omega, fun d hd => ?_⟩ ?_, rfl⟩
        · exact (Bitmap.mem_digits.mp hd).1
        · rw [enter, last, left, shift, List.map_map]
          rfl
    | map =>
      cases dir with
      | forward => exact ⟨.plain rfl rfl rfl ⟨hdvd, hok, by omega, scanOk_fresh _ 0⟩ rfl, rfl⟩
      | backward =>
        refine ⟨.plain rfl rfl rfl ⟨hdvd, hok, by omega, scanOk_fresh_back _ 7⟩ ?_, rfl⟩
        rw [enter, last, left, row_take_fresh, Direction.order, Ranked.entries, List.range_succ (n := 7),
          List.flatMap_append, List.flatMap_singleton]
  | fullExpanse aux =>
    rw [entries, order_shift, dir.order_map]
    have hl : (fullExpanse pre (pre + (256 ^ L - 1)) : LeafCursor V).left dir =
        shift pre ((dir.order (List.range (256 ^ L))).map fun k => (k, default)) := by
      have := pow_pos' L
      rw [left, show pre + (256 ^ L - 1) + 1 - pre = 256 ^ L by omega, List.range'_eq_map_range,
        dir.order_map, shift, List.map_map, List.map_map]
      rfl
    cases dir with
    | forward =>
      exact ⟨⟨trivial, hl, fun _ m hm => ⟨rfl, (Option.some.inj hm).symm⟩, fun _ _ _ => rfl,
        fun _ => rfl⟩, rfl⟩
    | backward =>
      exact ⟨⟨trivial, hl, fun h => (by cases h), fun h => (by cases h), fun _ => rfl⟩, rfl⟩

theorem filter_range' (n m s : ℕ) :
    (List.range' n m).filter (s ≤ ·) = List.range' (max s n) (n + m - max s n) := by
  apply pairwise_lt_ext ((List.pairwise_lt_range').sublist List.filter_sublist)
    List.pairwise_lt_range'
  intro x
  simp only [List.mem_filter, List.mem_range'_1, decide_eq_true_eq]
  omega

theorem filter_range'_to (n m b : ℕ) :
    (List.range' n m).filter (· ≤ b) = List.range' n (min (b + 1) (n + m) - n) := by
  apply pairwise_lt_ext ((List.pairwise_lt_range').sublist List.filter_sublist)
    List.pairwise_lt_range'
  intro x
  simp only [List.mem_filter, List.mem_range'_1, decide_eq_true_eq]
  omega

theorem shift_full (L pre aux : ℕ) : shift pre (entries L (.fullExpanse aux : Edge V)) =
    (List.range' pre (256 ^ L)).map fun k => (k, default) := by
  rw [entries, shift, List.range'_eq_map_range, List.map_map, List.map_map]
  rfl

theorem rest_forward_of_le {α : Type} {l : List α} {i : ℕ} (h : l.length ≤ i) :
    Direction.forward.rest i l = [] :=
  List.drop_eq_nil_of_le h

theorem seek_immed {kb : ℕ} {cols : Columns V} (h : Readable fl P L (immed kb cols)) :
    Placed .forward L pre (immed kb cols) (seek fl (immed kb cols) L pre start)
      ((shift pre (entries L (immed kb cols))).filter (start ≤ ·.1)) := by
  rw [Readable] at h
  obtain ⟨rfl, h1, hp, hs⟩ := h
  have hlen := cols.length_entries
  rw [entries]
  rcases hc : cols.entries with _ | ⟨x, _ | ⟨y, ys⟩⟩
  · rw [hc, List.length_nil] at hlen
    omega
  · simp only [seek, hc]
    split_ifs with hle
    · refine .plain rfl rfl rfl trivial ?_
      simp [left, shift, hle]
    · apply Placed.empty
      simp [shift, hle]
  · rw [← hc]
    have hk := pairwise_map_add hp.sorted pre
    have hfst : (shift pre cols.entries).map Prod.fst = cols.keys.map (pre + ·) := by
      rw [shift, List.map_map, ← Columns.map_fst_entries, List.map_map]
      rfl
    have hr := (Direction.forward).rest_lowerBound (keySorted_shift (n := pre) hp.keySorted) start
    rw [hfst] at hr
    simp only [seek, hc]
    rw [← hc, findIdx?_eq_lowerBound, show (shift pre cols.entries).filter (start ≤ ·.1) = _ from hr.symm]
    split_ifs with hlt
    · refine .plain rfl rfl rfl ⟨hk, by simp [cols.same], hlt.le⟩ ?_
      rw [left, zip_map_add]
      rfl
    · apply Placed.empty
      apply rest_forward_of_le
      rw [List.length_map] at hlt
      rw [length_shift, hlen]
      exact Nat.le_of_not_lt hlt

theorem seek_leaf {kb aux : ℕ} {cols : Columns V} (h : Readable fl P L (leaf kb aux cols))
    (hpre : 256 ^ L ∣ pre) :
    Placed .forward L pre (leaf kb aux cols) (seek fl (leaf kb aux cols) L pre start)
      ((shift pre (entries L (leaf kb aux cols))).filter (start ≤ ·.1)) := by
  rw [Readable] at h
  obtain ⟨h1, hkb, hp, hs, hpop⟩ := h
  have hdvd := dvd_leafPre aux hpre hkb
  have hlen := cols.length_entries
  have hr := (Direction.forward).rest_lowerBound hp.keySorted (low start kb)
  rw [Columns.map_fst_entries] at hr
  rw [entries, shift_shift, filter_shift_from (pow_pos' kb) hdvd]
  · simp only [seek]
    split_ifs with h2 h3 h4
    · exact .empty rfl
    · exact .plain rfl rfl rfl ⟨hp, hpop, by omega, hdvd⟩ rfl
    · apply Placed.empty
      rw [show cols.entries.filter (start % 256 ^ kb ≤ ·.1) = _ from hr.symm, rest_forward_of_le]
      · rfl
      · omega
    · refine .plain rfl rfl rfl ⟨hp, hpop, by omega, hdvd⟩ ?_
      rw [left, hr]
      rfl
  · rintro ⟨k, v⟩ hm
    exact hp.bound k (Columns.mem_keys hm)

theorem seek_leafB1 {aux : ℕ} {node : Ranked V} (h : Readable fl P L (leafB1 aux node))
    (hV : fl = .set → ∀ v : V, v = default) (hpre : 256 ^ L ∣ pre) :
    Placed .forward L pre (leafB1 aux node) (seek fl (leafB1 aux node) L pre start)
      ((shift pre (entries L (leafB1 aux node))).filter (start ≤ ·.1)) := by
  rw [Readable] at h
  obtain ⟨h1, hok, hcount, hpop⟩ := h
  have hdvd : 256 ∣ pre + slice aux 1 L * 256 ^ 1 := dvd_leafPre aux hpre h1
  rw [entries, shift_shift]
  simp only [seek]
  generalize pre + slice aux 1 L * 256 ^ 1 = p at hdvd
  by_cases h2 : p / 256 < start / 256
  · rw [if_pos h2]
    apply Placed.empty
    rw [filter_shift_from (by decide) hdvd, if_pos h2]
    rintro ⟨k, v⟩ hm
    exact Ranked.get_bound hok ((Ranked.mem_entries hok).mp hm)
  · rw [if_neg h2, filter_leafB1 hok hdvd h2]
    generalize (if start / 256 < p / 256 then 0 else start % 256) = t
    obtain ⟨hnone, hsome⟩ := filter_nextSet hok (t := t)
    cases hd : Bitmap.nextSet node.bits t with
    | none =>
      apply Placed.empty
      rw [hnone hd]
      rfl
    | some d =>
      obtain ⟨hlt, hb, heq⟩ := hsome d hd
      rw [heq]
      cases fl with
      | set =>
        refine .plain rfl rfl rfl ⟨hdvd, ?_⟩ ?_
        · intro x hx
          rw [Bitmap.digits_keepFrom, List.mem_filter, decide_eq_true_eq] at hx
          omega
        · rw [left, Bitmap.digits_keepFrom, entries_of_default hok (hV rfl), List.filter_map, shift,
            List.map_map]
          rfl
      | map =>
        refine .plain rfl rfl rfl ⟨hdvd, hok, by omega, ?_⟩ ?_
        · rw [ScanOk, Bitmap.subDigits_keepFrom, show 32 * (d / 32) + d % 32 = d by omega]
          rw [Bitmap.subexpanseRank_eq, drop_lowerBound (Bitmap.subDigits_sorted _ _)]
        · rw [entries_from hok hlt]
          rfl

theorem rest_backward_zero {α : Type} (l : List α) : Direction.backward.rest 0 l = [] := rfl

theorem seekBack_immed {kb : ℕ} {cols : Columns V} (h : Readable fl P L (immed kb cols)) :
    Placed .backward L pre (immed kb cols) (seekBack fl (immed kb cols) L pre start)
      ((shift pre (entries L (immed kb cols))).filter (·.1 ≤ start)).reverse := by
  rw [Readable] at h
  obtain ⟨rfl, h1, hp, hs⟩ := h
  have hlen := cols.length_entries
  rw [entries]
  rcases hc : cols.entries with _ | ⟨x, _ | ⟨y, ys⟩⟩
  · rw [hc, List.length_nil] at hlen
    omega
  · simp only [seekBack, hc]
    split_ifs with hle
    · refine .plain rfl rfl rfl trivial ?_
      simp [left, shift, hle]
    · apply Placed.empty
      simp [shift, hle]
  · rw [← hc]
    have hk := pairwise_map_add hp.sorted pre
    have hfst : (shift pre cols.entries).map Prod.fst = cols.keys.map (pre + ·) := by
      rw [shift, List.map_map, ← Columns.map_fst_entries, List.map_map]
      rfl
    have hr := (Direction.backward).rest_lowerBound (keySorted_shift (n := pre) hp.keySorted)
      (start + 1)
    rw [hfst] at hr
    simp only [seekBack, hc]
    rw [← hc, foldl_last_le hk, filter_le_eq,
      show ((shift pre cols.entries).filter (·.1 < start + 1)).reverse = _ from hr.symm]
    split_ifs with hlt
    · refine .plain rfl rfl rfl ⟨hk, by simp [cols.same], lowerBound_le _ _⟩ ?_
      rw [left, zip_map_add]
      rfl
    · apply Placed.empty
      rw [Nat.eq_zero_of_not_pos hlt]
      exact rest_backward_zero _

theorem seekBack_leaf {kb aux : ℕ} {cols : Columns V} (h : Readable fl P L (leaf kb aux cols))
    (hpre : 256 ^ L ∣ pre) :
    Placed .backward L pre (leaf kb aux cols) (seekBack fl (leaf kb aux cols) L pre start)
      ((shift pre (entries L (leaf kb aux cols))).filter (·.1 ≤ start)).reverse := by
  rw [Readable] at h
  obtain ⟨h1, hkb, hp, hs, hpop⟩ := h
  have hdvd := dvd_leafPre aux hpre hkb
  have hlen := cols.length_entries
  have hr := (Direction.backward).rest_lowerBound hp.keySorted (low start kb + 1)
  rw [Columns.map_fst_entries, ← upTo_eq hp.sorted] at hr
  rw [entries, shift_shift, filter_shift_to (pow_pos' kb) hdvd]
  · simp only [seekBack]
    split_ifs with h2 h3 h4
    · exact .empty rfl
    · refine .plain rfl rfl rfl ⟨hp, hpop, hpop.le, hdvd⟩ ?_
      rw [left, hpop, ← hlen, Direction.rest_length, ← order_shift]
      rfl
    · apply Placed.empty
      rw [h4, rest_backward_zero] at hr
      rw [filter_le_eq, show cols.entries.filter (·.1 < start % 256 ^ kb + 1) = [] from
        List.reverse_eq_nil_iff.mp hr.symm]
      rfl
    · refine .plain rfl rfl rfl ⟨hp, hpop, ?_, hdvd⟩ ?_
      · rw [upTo_eq hp.sorted]
        exact lowerBound_le _ _
      · rw [left, hr, filter_le_eq]
        exact (order_shift .backward _).symm
  · rintro ⟨k, v⟩ hm
    exact hp.bound k (Columns.mem_keys hm)

theorem seekBack_leafB1 {aux : ℕ} {node : Ranked V} (h : Readable fl P L (leafB1 aux node))
    (hV : fl = .set → ∀ v : V, v = default) (hpre : 256 ^ L ∣ pre) :
    Placed .backward L pre (leafB1 aux node) (seekBack fl (leafB1 aux node) L pre start)
      ((shift pre (entries L (leafB1 aux node))).filter (·.1 ≤ start)).reverse := by
  rw [Readable] at h
  obtain ⟨h1, hok, hcount, hpop⟩ := h
  have hdvd : 256 ∣ pre + slice aux 1 L * 256 ^ 1 := dvd_leafPre aux hpre h1
  rw [entries, shift_shift]
  simp only [seekBack]
  generalize pre + slice aux 1 L * 256 ^ 1 = p at hdvd
  by_cases h2 : start / 256 < p / 256
  · rw [if_pos h2]
    apply Placed.empty
    rw [filter_shift_to (by decide) hdvd, if_pos h2]
    · rfl
    · rintro ⟨k, v⟩ hm
      exact Ranked.get_bound hok ((Ranked.mem_entries hok).mp hm)
  · rw [if_neg h2, filter_leafB1_to hok hdvd h2]
    have ht : (if p / 256 < start / 256 then 255 else start % 256) < 256 := by
      split_ifs <;> omega
    generalize (if p / 256 < start / 256 then 255 else start % 256) = t at ht
    obtain ⟨hnone, hsome⟩ := filter_prevSet hok ht
    cases hd : Bitmap.prevSet node.bits t with
    | none =>
      apply Placed.empty
      rw [hnone hd]
      rfl
    | some d =>
      obtain ⟨hlt, heq⟩ := hsome d hd
      rw [heq, shift, ← List.map_reverse]
      cases fl with
      | set =>
        refine .plain rfl rfl rfl ⟨hdvd, by omega, ?_⟩ ?_
        · intro x hx
          rw [Bitmap.digits_keepTo, List.mem_filter, decide_eq_true_eq] at hx
          omega
        · rw [left, Bitmap.digits_keepTo, entries_of_default hok (hV rfl), List.filter_map,
            Direction.order, ← List.map_reverse, List.map_map]
          rfl
      | map =>
        have hsub : (Bitmap.wordBits (Bitmap.keepTo (Bitmap.subWord node.bits (d / 32))
            (d % 32))).map (32 * (d / 32) + ·) =
              (Bitmap.subDigits node.bits (d / 32)).take
                (lowerBound (Bitmap.subDigits node.bits (d / 32)) (d + 1)) := by
          rw [Bitmap.subDigits_keepTo, show 32 * (d / 32) + d % 32 = d by omega,
            take_lowerBound (Bitmap.subDigits_sorted _ _)]
          simp only [Nat.lt_succ_iff]
        have hn := congrArg List.length hsub
        rw [List.length_map, List.length_take, Nat.min_eq_left (lowerBound_le _ _)] at hn
        refine .plain rfl rfl rfl ⟨hdvd, hok, by omega, ?_, rfl⟩ ?_
        · rw [hsub, hn]
        · rw [left, hn, entries_to hok hlt]
          rfl

variable (start) in
/-- A backward seek hands out the entries up to its key, in descending order. -/
theorem seekBack_placed (h : Readable fl P L e) (ht : e.isTerminal = true)
    (hV : fl = .set → ∀ v : V, v = default) (hpre : 256 ^ L ∣ pre) :
    Placed .backward L pre e (seekBack fl e L pre start)
      ((shift pre (entries L e)).filter (·.1 ≤ start)).reverse := by
  cases e with
  | null => cases ht
  | branch aux node => cases ht
  | immed kb cols => exact seekBack_immed h
  | leaf kb aux cols => exact seekBack_leaf h hpre
  | leafB1 aux node => exact seekBack_leafB1 h hV hpre
  | fullExpanse aux =>
    have hpos := pow_pos' L
    rw [shift_full, List.filter_map]
    simp only [seekBack]
    split_ifs with hle
    · apply Placed.empty
      change (((List.range' pre (256 ^ L)).filter (· ≤ start)).map _).reverse = []
      rw [filter_range'_to, show min (start + 1) (pre + 256 ^ L) - pre = 0 by omega]
      rfl
    · refine ⟨trivial, ?_, fun h => (by cases h), fun h => (by cases h), fun _ => rfl⟩
      change (List.reverse _).map _ =
        (((List.range' pre (256 ^ L)).filter (· ≤ start)).map _).reverse
      rw [filter_range'_to, List.map_reverse,
        show min start (pre + (256 ^ L - 1)) + 1 - pre =
          min (start + 1) (pre + 256 ^ L) - pre by omega]

variable (start) in
theorem seek_placed (h : Readable fl P L e) (ht : e.isTerminal = true)
    (hV : fl = .set → ∀ v : V, v = default) (hpre : 256 ^ L ∣ pre) :
    Placed .forward L pre e (seek fl e L pre start)
      ((shift pre (entries L e)).filter (start ≤ ·.1)) := by
  cases e with
  | null => cases ht
  | branch aux node => cases ht
  | immed kb cols => exact seek_immed h
  | leaf kb aux cols => exact seek_leaf h hpre
  | leafB1 aux node => exact seek_leafB1 h hV hpre
  | fullExpanse aux =>
    have hpos := pow_pos' L
    rw [shift_full, List.filter_map]
    simp only [seek]
    split_ifs with hle
    · refine ⟨trivial, ?_, ?_, ?_, fun _ => rfl⟩
      · rw [left]
        change (List.range' _ _).map _ = ((List.range' pre (256 ^ L)).filter (start ≤ ·)).map _
        rw [filter_range', show pre + (256 ^ L - 1) + 1 = pre + 256 ^ L by omega]
      · intro _ m hm
        exact ⟨rfl, (Option.some.inj hm).symm⟩
      · intro _ _ _
        rfl
    · apply Placed.empty
      change ((List.range' pre (256 ^ L)).filter (start ≤ ·)).map _ = []
      rw [filter_range', show pre + 256 ^ L - max start pre = 0 by omega]
      rfl

end LeafCursor

end Expanse
