import Expanse.Engine.Edge
import Expanse.Leaf.Search

/-!
# The searches are linear scans

Over ascending packed keys every search answers what a scan of the decoded keys from the first one on
answers: the kernels because the mask keeps the lanes of the keys and the capacity class holds the
bytes they load, the chains because they compare every key, and binary search because its interval
always holds the lower bound. The bytes past the keys are arbitrary.
-/

namespace Expanse.Leaf

open Packed SortedAssoc

/-- Index of the first key from the needle on, or the number of keys. -/
def scanLowerBound (ks : List ℕ) (needle : ℕ) : ℕ := ks.findIdx (needle ≤ ·)

def scanSearch (ks : List ℕ) (needle : ℕ) : Option ℕ := ks.findIdx? (· == needle)

/-- Index of the needle, or the index to insert it at. -/
def scanLocate (ks : List ℕ) (needle : ℕ) : Except ℕ ℕ :=
  match scanSearch ks needle with
  | some i => .ok i
  | none => .error (scanLowerBound ks needle)

variable {arch : Arch} {kb keys pop needle key n m i fuel lo hi : ℕ} {buf ks : List ℕ}

theorem scanLowerBound_eq : scanLowerBound ks needle = lowerBound ks needle := by
  induction ks with
  | nil => rfl
  | cons x xs ih =>
    rw [scanLowerBound] at ih
    rw [scanLowerBound, List.findIdx_cons, ih, lowerBound]
    by_cases h : needle ≤ x
    · rw [decide_eq_true h, if_pos h]
      rfl
    · rw [decide_eq_false h, if_neg h]
      rfl

theorem scanLocate_eq (hs : ks.Pairwise (· < ·)) : scanLocate ks needle = locate ks needle := by
  have hscan : scanSearch ks needle = indexOf? ks needle := rfl
  rw [scanLocate, hscan, scanLowerBound_eq]
  by_cases hk : needle ∈ ks
  · rw [indexOf?_of_mem hs hk, locate_of_mem hs hk]
  · rw [indexOf?_of_not_mem hk, locate_of_not_mem hk]

section Chains

variable {read : ℕ → Except Fault ℕ} {f : ℕ → ℕ}

theorem countBelow_ok (h : read i = .ok (f i)) :
    countBelow read n i = .ok (if f i < n then 1 else 0) := by
  rw [countBelow, h]
  rfl

theorem lowerBoundChain_ok (h : ∀ i < m, read i = .ok (f i)) (hm : m ≤ 4) :
    lowerBoundChain read n m = .ok (((List.range m).map f).countP (· < n)) := by
  have hc : ∀ i < m, countBelow read n i = .ok (if f i < n then 1 else 0) :=
    fun i hi => countBelow_ok (h i hi)
  interval_cases m
  · rfl
  · rw [lowerBoundChain, hc 0 (by norm_num)]
    simp [List.range_succ, List.countP_cons]
  · rw [lowerBoundChain, hc 0 (by norm_num), hc 1 (by norm_num)]
    simp [List.range_succ, List.countP_cons, bind, Except.bind, pure, Except.pure]
    omega
  · rw [lowerBoundChain, hc 0 (by norm_num), hc 1 (by norm_num), hc 2 (by norm_num)]
    simp [List.range_succ, List.countP_cons, bind, Except.bind, pure, Except.pure]
    omega
  · rw [lowerBoundChain, hc 0 (by norm_num), hc 1 (by norm_num), hc 2 (by norm_num), hc 3 (by norm_num)]
    · simp [List.range_succ, List.countP_cons, bind, Except.bind, pure, Except.pure]
      omega
    all_goals norm_num

theorem probe_ok (h : ∀ i < m, read i = .ok (f i)) (rest : Except Fault (Option ℕ)) :
    probe read n m i rest = if i < m ∧ f i = n then .ok (some i) else rest := by
  rw [probe]
  by_cases hi : i < m
  · rw [if_pos (show i + 1 ≤ m from hi), h i hi]
    simp only [bind, Except.bind, pure, Except.pure, hi, true_and]
  · rw [if_neg (by omega), if_neg (by omega)]

theorem searchChain_ok (h : ∀ i < m, read i = .ok (f i)) (hm : m ≤ 4) :
    searchChain read n m = .ok (indexOf? ((List.range m).map f) n) := by
  rw [searchChain, probe_ok h, probe_ok h, probe_ok h, probe_ok h]
  interval_cases m
  all_goals
    simp only [indexOf?, List.range_succ, List.range_zero, List.nil_append, List.cons_append,
      List.map_cons, List.map_nil, List.findIdx?_cons, List.findIdx?_nil]
    norm_num
    try split_ifs <;> rfl

end Chains

theorem chainNeedle_eq (hx : needle < 256 ^ kb) : chainNeedle kb needle = needle := by
  rw [chainNeedle]
  split_ifs
  · exact Nat.mod_eq_of_lt hx
  · rfl

theorem keyLow_lt (hkb : kb ≤ 7) : keyLow key kb < 256 ^ kb := by
  rw [keyLow_eq hkb]
  exact Nat.mod_lt _ (Nat.pow_pos (by norm_num))

theorem area_covers (hfit : keys + kb * capClass pop ≤ buf.length) : keys + pop * kb ≤ buf.length := by
  have hmul := Nat.mul_le_mul_left kb (le_capClass pop)
  rw [Nat.mul_comm pop]
  omega

theorem readRem_lt_iff (hs : (keysOf keys kb pop buf).Pairwise (· < ·)) (hi : i < pop) :
    readRem keys kb buf i < needle ↔ i < lowerBound (keysOf keys kb pop buf) needle := by
  have hget : (keysOf keys kb pop buf)[i]? = some (readRem keys kb buf i) := by
    rw [getElem?_keysOf, if_pos hi]
  constructor
  · intro hlt
    by_contra hle
    have := le_of_lowerBound_le hs (Nat.le_of_not_lt hle) hget
    omega
  · intro hlt
    exact lt_of_lt_lowerBound hlt hget

/-- Up to sixteen keys the class is the next multiple of four. -/
theorem capClass_eq {n c : ℕ} (hn : 2 < n) (hlo : c < n + 4) (hc : n ≤ c) (hmax : c ≤ 16) (h4 : 4 ∣ c) :
    capClass n = c := by
  unfold capClass
  split_ifs <;> omega

section Searches

variable (hkb : 1 ≤ kb ∧ kb ≤ 7) (hb : ∀ b ∈ buf, b < 256) (hfit : keys + kb * capClass pop ≤ buf.length)

include hkb hb hfit

theorem readSlot_ok (hi : i < pop) : readPackedFixed kb buf keys i = .ok (readRem keys kb buf i) :=
  readPackedFixed_ok hkb hb (cell_end_le hi (area_covers hfit))

theorem readChain_ok (hi : i < pop) : readChain kb buf keys i = .ok (readRem keys kb buf i) := by
  rw [readChain]
  split_ifs
  · exact readUnaligned_ok (cell_end_le hi (area_covers hfit))
  · exact readSlot_ok hkb hb hfit hi

theorem searchChain_keys (hx : needle < 256 ^ kb) (hpop : pop ≤ 4) :
    searchChain (readChain kb buf keys) (chainNeedle kb needle) pop =
      .ok (scanSearch (keysOf keys kb pop buf) needle) := by
  rw [chainNeedle_eq hx, searchChain_ok (fun i hi => readChain_ok hkb hb hfit hi) hpop]
  rfl

variable (hs : (keysOf keys kb pop buf).Pairwise (· < ·))

include hs

/-- The lower bound stays in the interval, which shrinks in every round. -/
theorem lowerBoundLoop_ok (hlo : lo ≤ lowerBound (keysOf keys kb pop buf) needle)
    (hhi : lowerBound (keysOf keys kb pop buf) needle ≤ hi) (hn : hi ≤ pop) (hf : hi ≤ lo + fuel) :
    lowerBoundLoop kb buf keys needle fuel lo hi =
      .ok (lowerBound (keysOf keys kb pop buf) needle) := by
  induction fuel generalizing lo hi with
  | zero =>
    rw [lowerBoundLoop]
    congr 1
    omega
  | succ fuel ih =>
    rw [lowerBoundLoop]
    by_cases hlt : lo < hi
    · have hmid : readRem keys kb buf ((lo + hi) / 2) < needle ↔
          (lo + hi) / 2 < lowerBound (keysOf keys kb pop buf) needle := readRem_lt_iff hs (by omega)
      rw [if_pos hlt]
      simp only [readSlot_ok hkb hb hfit (show (lo + hi) / 2 < pop by omega), bind, Except.bind]
      by_cases hless : readRem keys kb buf ((lo + hi) / 2) < needle
      · rw [if_pos hless]
        have := hmid.mp hless
        exact ih (by omega) hhi hn (by omega)
      · rw [if_neg hless]
        have : ¬ (lo + hi) / 2 < lowerBound (keysOf keys kb pop buf) needle := fun h => hless (hmid.mpr h)
        exact ih hlo (by omega) (by omega) (by omega)
    · rw [if_neg hlt]
      congr 1
      omega

theorem lowerBoundFixed_ok (hx : needle < 256 ^ kb) :
    lowerBoundFixed arch kb buf keys pop needle =
      .ok (lowerBound (keysOf keys kb pop buf) needle) := by
  unfold lowerBoundFixed
  by_cases h16 : kb = 1 ∧ 13 ≤ pop ∧ pop ≤ 16
  · obtain ⟨rfl, h1, h2⟩ := h16
    have hcap : capClass pop = 16 := capClass_eq (by omega) (by omega) h2 (by decide) (by norm_num)
    have hmin : min pop 16 = pop := min_eq_left h2
    have hmod : needle % 256 = needle := Nat.mod_eq_of_lt hx
    rw [if_pos ⟨rfl, h1, h2⟩, hmod, lowerBound16U8_ok hb hx (by omega) (by rwa [hmin]), hmin]
  rw [if_neg h16]
  by_cases h8 : kb = 1 ∧ 5 ≤ pop ∧ pop ≤ 8
  · obtain ⟨rfl, h1, h2⟩ := h8
    have hcap : capClass pop = 8 := capClass_eq (by omega) (by omega) h2 (by decide) (by norm_num)
    have hmin : min pop 8 = pop := min_eq_left h2
    have hmod : needle % 256 = needle := Nat.mod_eq_of_lt hx
    rw [if_pos ⟨rfl, h1, h2⟩, hmod, lowerBound8U8_ok hb hx (by omega) (by rwa [hmin]), hmin]
  rw [if_neg h8]
  by_cases h8w : kb = 2 ∧ 5 ≤ pop ∧ pop ≤ 8
  · obtain ⟨rfl, h1, h2⟩ := h8w
    have hcap : capClass pop = 8 := capClass_eq (by omega) (by omega) h2 (by decide) (by norm_num)
    have hmin : min pop 8 = pop := min_eq_left h2
    rw [if_pos ⟨rfl, h1, h2⟩, Nat.mod_eq_of_lt hx, lowerBound8U16_ok hb hx (by omega) (by rwa [hmin]), hmin]
  rw [if_neg h8w]
  by_cases h4 : kb = 4 ∧ 3 ≤ pop ∧ pop ≤ 4
  · obtain ⟨rfl, h1, h2⟩ := h4
    have hcap : capClass pop = 4 := capClass_eq (by omega) (by omega) h2 (by decide) (by norm_num)
    have hmin : min pop 4 = pop := min_eq_left h2
    rw [if_pos ⟨rfl, h1, h2⟩, Nat.mod_eq_of_lt hx, lowerBound4U32_ok hb hx (by omega) (by rwa [hmin]), hmin]
  rw [if_neg h4]
  by_cases hpop : pop ≤ 4
  · rw [if_pos hpop, chainNeedle_eq hx,
      lowerBoundChain_ok (fun i hi => readChain_ok hkb hb hfit hi) hpop, lowerBound_eq_countP hs]
    rfl
  · have hle : lowerBound (keysOf keys kb pop buf) needle ≤ pop := by
      have := lowerBound_le (keysOf keys kb pop buf) needle
      rwa [length_keysOf] at this
    rw [if_neg hpop, lowerBoundLoop_ok hkb hb hfit hs (Nat.zero_le _) hle le_rfl (by omega)]

theorem holds_ok : holds kb buf keys pop needle (lowerBound (keysOf keys kb pop buf) needle) =
    .ok (decide (needle ∈ keysOf keys kb pop buf)) := by
  rw [holds]
  by_cases hpos : lowerBound (keysOf keys kb pop buf) needle < pop
  · have hget : (keysOf keys kb pop buf)[lowerBound (keysOf keys kb pop buf) needle]? =
        some (readRem keys kb buf (lowerBound (keysOf keys kb pop buf) needle)) := by
      rw [getElem?_keysOf, if_pos hpos]
    rw [if_pos hpos, readSlot_ok hkb hb hfit hpos]
    simp only [bind, Except.bind, pure, Except.pure]
    congr 1
    apply Bool.eq_iff_iff.mpr
    rw [beq_iff_eq, decide_eq_true_iff]
    constructor
    · intro he
      rw [he] at hget
      exact List.mem_of_getElem? hget
    · intro hm
      have hat := getElem?_lowerBound hs hm
      rw [hget] at hat
      exact Option.some.inj hat
  · have hno : needle ∉ keysOf keys kb pop buf := by
      intro hm
      have hat := getElem?_lowerBound hs hm
      rw [getElem?_keysOf, if_neg hpos] at hat
      cases hat
    rw [if_neg hpos, decide_eq_false hno]

theorem locateFixed_ok (hx : needle < 256 ^ kb) :
    locateFixed arch kb buf keys pop needle = .ok (locate (keysOf keys kb pop buf) needle) := by
  rw [locateFixed]
  by_cases hpop : pop = 0
  · subst hpop
    rfl
  · rw [if_neg hpop, lowerBoundFixed_ok hkb hb hfit hs hx]
    simp only [bind, Except.bind, holds_ok hkb hb hfit hs, pure, Except.pure]
    by_cases hk : needle ∈ keysOf keys kb pop buf
    · rw [locate_of_mem hs hk, decide_eq_true hk, if_pos rfl]
    · rw [locate_of_not_mem hk, decide_eq_false hk, if_neg (by decide)]

theorem searchFixed_ok :
    searchFixed arch kb buf keys pop key = .ok (indexOf? (keysOf keys kb pop buf) (keyLow key kb)) := by
  have hx : keyLow key kb < 256 ^ kb := keyLow_lt hkb.2
  rw [searchFixed]
  by_cases h16 : kb = 1 ∧ pop = 16
  · obtain ⟨rfl, rfl⟩ := h16
    rw [if_pos ⟨rfl, rfl⟩, keyLow_eq (by norm_num)]
    exact search16U8_ok (Nat.mod_lt _ (by norm_num)) (by simpa [capClass] using hfit)
  rw [if_neg h16]
  by_cases h8 : kb = 1 ∧ pop = 8
  · obtain ⟨rfl, rfl⟩ := h8
    rw [if_pos ⟨rfl, rfl⟩, keyLow_eq (by norm_num)]
    exact search8U8_ok (Nat.mod_lt _ (by norm_num)) (by simpa [capClass] using hfit)
  rw [if_neg h8]
  by_cases h8w : kb = 2 ∧ pop = 8
  · obtain ⟨rfl, rfl⟩ := h8w
    rw [if_pos ⟨rfl, rfl⟩, keyLow_eq (by norm_num)]
    exact search8U16_ok (Nat.mod_lt _ (by norm_num)) (by simpa [capClass] using hfit)
  rw [if_neg h8w]
  by_cases h4 : kb = 4 ∧ pop = 4
  · obtain ⟨rfl, rfl⟩ := h4
    rw [if_pos ⟨rfl, rfl⟩, keyLow_eq (by norm_num)]
    exact search4U32_ok (Nat.mod_lt _ (by norm_num)) (by simpa [capClass] using hfit)
  rw [if_neg h4]
  by_cases hpop : pop ≤ 4
  · rw [if_pos hpop, searchChain_keys hkb hb hfit hx hpop]
    rfl
  · rw [if_neg hpop]
    simp only [bind, Except.bind, lowerBoundFixed_ok hkb hb hfit hs hx, holds_ok hkb hb hfit hs, pure,
      Except.pure]
    by_cases hk : keyLow key kb ∈ keysOf keys kb pop buf
    · rw [indexOf?_of_mem hs hk, decide_eq_true hk, if_pos rfl]
    · rw [indexOf?_of_not_mem hk, decide_eq_false hk, if_neg (by decide)]

end Searches

end Expanse.Leaf

namespace Expanse

open Leaf Packed SortedAssoc

/-- On every architecture, at every width and over every ascending key area in its capacity class, the
searches read no byte past the class, answer what a linear scan of the decoded keys answers, and point at
no slot past the population, whatever the bytes behind it are. -/
theorem packed_search_is_linear_scan (arch : Arch) (kb pop keys key : ℕ) (buf : List ℕ)
    (hkb : 1 ≤ kb ∧ kb ≤ 7) (hb : ∀ b ∈ buf, b < 256) (hfit : keys + kb * capClass pop ≤ buf.length)
    (hs : (keysOf keys kb pop buf).Pairwise (· < ·)) :
    lowerBoundFixed arch kb buf keys pop (keyLow key kb) =
        .ok (scanLowerBound (keysOf keys kb pop buf) (keyLow key kb)) ∧
      locateFixed arch kb buf keys pop (keyLow key kb) =
        .ok (scanLocate (keysOf keys kb pop buf) (keyLow key kb)) ∧
      searchFixed arch kb buf keys pop key =
        .ok (scanSearch (keysOf keys kb pop buf) (keyLow key kb)) ∧
      ∀ i, searchFixed arch kb buf keys pop key = .ok (some i) → i < pop := by
  have hx : keyLow key kb < 256 ^ kb := keyLow_lt hkb.2
  have hsearch : searchFixed arch kb buf keys pop key =
      .ok (indexOf? (keysOf keys kb pop buf) (keyLow key kb)) := searchFixed_ok hkb hb hfit hs
  refine ⟨?_, ?_, hsearch, ?_⟩
  · rw [lowerBoundFixed_ok hkb hb hfit hs hx, scanLowerBound_eq]
  · rw [locateFixed_ok hkb hb hfit hs hx, scanLocate_eq hs]
  · intro i hi
    rw [hsearch] at hi
    have hfound := Except.ok.inj hi
    obtain ⟨hlt, -⟩ := List.findIdx?_eq_some_iff_getElem.mp hfound
    rwa [length_keysOf] at hlt

/-- Five keys of one byte in a class of eight, with the probe stored in the padding only. -/
theorem packed_search_is_linear_scan_padding :
    lowerBoundFixed .x86_64 1 [10, 20, 30, 40, 50, 35, 35, 35] 0 5 35 = .ok 3 ∧
      locateFixed .x86_64 1 [10, 20, 30, 40, 50, 35, 35, 35] 0 5 35 = .ok (.error 3) ∧
      searchFixed .x86_64 1 [10, 20, 30, 40, 50, 35, 35, 35] 0 5 (256 + 35) = .ok none := by
  obtain ⟨h1, h2, h3, -⟩ := packed_search_is_linear_scan .x86_64 1 5 0 (256 + 35)
    [10, 20, 30, 40, 50, 35, 35, 35] (by decide) (by decide) (by decide) (by decide)
  exact ⟨h1, h2, h3⟩

end Expanse
