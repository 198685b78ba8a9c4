import Expanse.Engine.Nav
import Expanse.Engine.InsertBranch

/-!
# Navigation, rank and select agree with the entries

`next` is the first entry at or above the suffix, `countBelow` the number of
entries below it, `byCount` the entry at a position. The first needs the shape of
the tree only; rank and select also need the populations to be exact.
-/

namespace Expanse.Edge

open Radix SortedAssoc

variable {V : Type} {B x s : ℕ} {l : List (ℕ × V)}

theorem find?_shift (hB : 0 < B) (hl : ∀ e ∈ l, e.1 < B) :
    ((shift (x * B) l).find? fun e => s ≤ e.1) =
      (seekIn x (s / B) (s % B)).bind fun k =>
        (l.find? fun e => k ≤ e.1).map fun e => (x * B + e.1, e.2) := by
  have hs := Nat.div_add_mod s B
  have hr := Nat.mod_lt s hB
  rw [Nat.mul_comm] at hs
  generalize s / B = q at hs
  generalize s % B = r at hs hr
  unfold seekIn
  split_ifs with hlt heq
  · have : (q + 1) * B ≤ x * B := Nat.mul_le_mul_right B hlt
    rw [Nat.add_mul] at this
    rw [shift, List.find?_map, Option.bind_some]
    congr 1
    apply List.find?_congr
    intro e _
    simp only [Function.comp, Nat.zero_le, decide_true, decide_eq_true_eq]
    omega
  · rw [shift, List.find?_map, Option.bind_some]
    congr 1
    apply List.find?_congr
    intro e _
    simp only [Function.comp, decide_eq_decide]
    rw [← heq]
    omega
  · have : (x + 1) * B ≤ q * B := Nat.mul_le_mul_right B (by omega)
    rw [Nat.add_mul] at this
    rw [Option.bind_none, List.find?_eq_none]
    intro e he
    obtain ⟨y, hy, rfl⟩ := List.mem_map.mp he
    have := hl y hy
    simp only [decide_eq_true_eq]
    omega

theorem countP_shift (hB : 0 < B) (hl : ∀ e ∈ l, e.1 < B) :
    (shift (x * B) l).countP (fun e => e.1 < s) =
      if s / B < x then 0 else if s / B = x then l.countP (fun e => e.1 < s % B) else l.length := by
  have hs := Nat.div_add_mod s B
  have hr := Nat.mod_lt s hB
  rw [Nat.mul_comm] at hs
  generalize s / B = q at hs
  generalize s % B = r at hs hr
  rw [shift, List.countP_map]
  split_ifs with hlt heq
  · have : (q + 1) * B ≤ x * B := Nat.mul_le_mul_right B hlt
    rw [Nat.add_mul] at this
    rw [List.countP_eq_zero]
    intro e _
    simp only [Function.comp, decide_eq_true_eq]
    omega
  · apply List.countP_congr
    intro e _
    simp only [Function.comp, decide_eq_true_eq]
    rw [← heq]
    omega
  · have : (x + 1) * B ≤ q * B := Nat.mul_le_mul_right B (by omega)
    rw [Nat.add_mul] at this
    rw [List.countP_eq_length]
    intro e he
    have := hl e he
    simp only [Function.comp, decide_eq_true_eq]
    omega

variable [Inhabited V] {fl : Flavour} {lo : ℕ → ℕ → ℕ} {P : Branch (Edge V) → Prop}
  {L fuel suffix : ℕ} {e : Edge V}

theorem core_bound {aux : ℕ} {node : Branch (Edge V)} (h : BranchReadable fl P L node) :
    ∀ x ∈ core (node.level L) (branch aux node), x.1 < 256 ^ node.level L := by
  have h2 := h.two_le
  intro e he
  simp only [core, List.mem_flatMap] at he
  obtain ⟨⟨d, c⟩, hs, hm⟩ := he
  obtain ⟨hd, hc⟩ := h.slot hs
  obtain ⟨y, hy, hk⟩ := mem_shift.mp hm
  rw [hk]
  have := hc.bound hy
  exact mul_add_lt (Nat.sub_le _ 1) (by
    rw [show node.level L - (node.level L - 1) = 1 by omega]
    simpa using hd) this

theorem slot_bound {node : Branch (Edge V)} (h : BranchReadable fl P L node) {c : ℕ × Edge V}
    (hc : c ∈ node.slots) : ∀ x ∈ entries (node.level L - 1) c.2, x.1 < 256 ^ (node.level L - 1) :=
  fun _ hx => (h.slot (d := c.1) (c := c.2) hc).2.bound hx

theorem digit_eq_div {k l : ℕ} (h1 : 1 ≤ l) (hk : k < 256 ^ l) : digit k l = k / 256 ^ (l - 1) := by
  rw [digit, Nat.mod_eq_of_lt]
  rw [Nat.div_lt_iff_lt_mul (pow_pos' _), Nat.mul_comm, ← pow_pred h1]
  exact hk

theorem next_eq (h : Readable fl P L e) (hs : suffix < 256 ^ L) (hf : L ≤ fuel) (h1 : 1 ≤ L) :
    next fuel e suffix L = (entries L e).find? fun x => suffix ≤ x.1 := by
  induction fuel generalizing L e suffix with
  | zero => omega
  | succ fuel ih =>
    cases e with
    | null => simp [next, entries]
    | immed kb cols => rw [next, entries, firstFrom_eq_find?]
    | leaf kb aux cols =>
      rw [Readable] at h
      rw [next, entries, find?_shift (pow_pos' kb)]
      · simp only [firstFrom_eq_find?]
        rfl
      · rintro ⟨k, v⟩ hm
        exact h.2.2.1.bound k (Columns.mem_keys hm)
    | leafB1 aux node =>
      rw [Readable] at h
      rw [next, entries, find?_shift (pow_pos' 1)]
      · simp only [Ranked.find?_entries h.2.1, Option.map_bind]
        apply congrArg
        funext k
        congr 1
        funext d
        rw [Function.comp, Option.map_map]
        rfl
      · rintro ⟨k, v⟩ hm
        have := Ranked.get_bound h.2.1 ((Ranked.mem_entries h.2.1).mp hm)
        simpa using this
    | fullExpanse aux =>
      symm
      rw [next, (show Readable fl P L (fullExpanse aux : Edge V) from h).sorted.find?_eq_some]
      refine ⟨mem_entries_full.mpr ⟨hs, rfl⟩, le_rfl, fun x w _ hx => hx⟩
    | branch aux node =>
      have hb := readable_branch.mp h
      have h2 := hb.two_le
      have hl := hb.le
      rw [h.entries_eq_shift_core rfl]
      change _ = ((shift (slice aux (node.level L) L * 256 ^ node.level L)
        (core (node.level L) (branch aux node))).find? _)
      rw [next, find?_shift (pow_pos' _) (core_bound hb)]
      change (seekIn _ _ _).bind _ = _
      apply Option.bind_congr
      intro k hk
      -- the position inside the node fits in its level
      have hkb : k < 256 ^ node.level L := by
        unfold seekIn at hk
        split_ifs at hk
        · cases hk
          exact pow_pos' _
        · cases hk
          exact low_lt _ _
      have hdig := digit_eq_div (show 1 ≤ node.level L by omega) hkb
      simp only [core]
      rw [List.find?_flatMap, (Branch.slots_sorted hb.ok).dropWhile_eq_filter]
      rw [← findSome?_filter (l := node.slots) (p := fun c => digit k (node.level L) ≤ c.1)]
      · rw [List.map_findSome?]
        apply findSome?_congr
        intro c hc
        obtain ⟨hc, hle⟩ := List.mem_filter.mp hc
        rw [decide_eq_true_eq] at hle
        have hcs := (hb.slot (d := c.1) (c := c.2) hc).2
        have hstart : (if c.1 = digit k (node.level L) then low k (node.level L - 1) else 0) <
            256 ^ (node.level L - 1) := by
          split_ifs
          · exact low_lt _ _
          · exact pow_pos' _
        rw [ih hcs hstart (by omega) (by omega), Function.comp,
          find?_shift (pow_pos' _) (slot_bound hb hc), ← hdig]
        have hseek : seekIn c.1 (digit k (node.level L)) (k % 256 ^ (node.level L - 1)) =
            some (if c.1 = digit k (node.level L) then low k (node.level L - 1) else 0) := by
          unfold seekIn
          split_ifs with hlt heq heq' <;> first | rfl | omega
        rw [hseek, Option.bind_some, Option.map_map]
        rfl
      · intro c hc hlt
        rw [decide_eq_false_iff_not, not_le] at hlt
        rw [find?_shift (pow_pos' _) (slot_bound hb hc), ← hdig, seekIn, if_neg (by omega),
          if_neg (by omega)]
        rfl

/-- The population an exact edge carries is the number of its entries. -/
theorem edgePop_eq (h : WF fl lo L e) (h7 : L ≤ 7) : edgePop L e = (entries L e).length := by
  cases e with
  | null => rw [entries]; rfl
  | immed kb cols => rw [entries, Columns.length_entries]; rfl
  | fullExpanse aux =>
    have hs := h.1
    rw [Shape] at hs
    obtain ⟨-, rfl, hp⟩ := hs
    rw [edgePop, hp, entries, List.length_map, List.length_range]
    rfl
  | leaf kb aux cols =>
    have hs := h.1
    rw [Shape] at hs
    exact pop0_add_one h rfl (show kb ≤ 7 by omega)
  | leafB1 aux node => exact pop0_add_one h rfl (show 1 ≤ 7 by omega)
  | branch aux node =>
    have hl := (shape_branch.mp h.1).le
    exact pop0_add_one h rfl (show node.level L ≤ 7 by omega)

theorem countBelow_eq (h : WF fl lo L e) (hs : suffix < 256 ^ L) (hf : L ≤ fuel) (h1 : 1 ≤ L)
    (h8 : L ≤ 8) : countBelow fuel e suffix L = (entries L e).countP fun x => x.1 < suffix := by
  induction fuel generalizing L e suffix with
  | zero => omega
  | succ fuel ih =>
    cases e with
    | null => simp [countBelow, entries]
    | immed kb cols =>
      have hsh := h.1
      rw [Shape] at hsh
      rw [countBelow, entries, lowerBound_eq_countP hsh.2.2.2.1.sorted, ← Columns.map_fst_entries,
        List.countP_map]
      rfl
    | leaf kb aux cols =>
      have hsh := h.1
      rw [Shape] at hsh
      obtain ⟨-, -, -, hp, -, -, hpop, -⟩ := hsh
      rw [countBelow, entries, countP_shift (pow_pos' kb)]
      · rw [lowerBound_eq_countP hp.sorted, ← Columns.map_fst_entries, List.countP_map, hpop,
          Columns.length_entries]
        rfl
      · rintro ⟨k, v⟩ hm
        exact hp.bound k (Columns.mem_keys hm)
    | leafB1 aux node =>
      have hsh := h.1
      rw [Shape] at hsh
      obtain ⟨-, -, hok, -, hpop⟩ := hsh
      have hlen : node.entries.length = Bitmap.count node.bits := by
        rw [Bitmap.count, ← Ranked.entries_keys hok, List.length_map]
      rw [countBelow, entries, countP_shift (pow_pos' 1)]
      · rw [← List.countP_eq_length_filter, ← Ranked.entries_keys hok, List.countP_map, hpop, hlen]
        rfl
      · rintro ⟨k, v⟩ hm
        have := Ranked.get_bound hok ((Ranked.mem_entries hok).mp hm)
        simpa using this
    | fullExpanse aux =>
      rw [countBelow, entries, List.countP_map]
      have hr : (List.range (256 ^ L)).filter (fun k => k < suffix) = List.range suffix := by
        apply pairwise_lt_ext (List.pairwise_lt_range.sublist List.filter_sublist)
          List.pairwise_lt_range
        intro k
        simp only [List.mem_filter, List.mem_range, decide_eq_true_eq]
        omega
      have := congrArg List.length hr
      rw [← List.countP_eq_length_filter, List.length_range] at this
      exact this.symm
    | branch aux node =>
      have hb := shape_branch.mp h.1
      have hbr := readable_branch.mp h.1.readable
      have h2 := hb.two_le
      have hl := hb.le
      -- the sum over the children counts the node's own keys below a position of its level
      have hbelow : ∀ k, k < 256 ^ node.level L → (node.slots.map fun c =>
          if c.1 < digit k (node.level L) then edgePop (node.level L - 1) c.2
          else if c.1 = digit k (node.level L) then
            countBelow fuel c.2 (low k (node.level L - 1)) (node.level L - 1)
          else 0).sum = (core (node.level L) (branch aux node)).countP fun x => x.1 < k := by
        intro k hk
        have hdig := digit_eq_div (show 1 ≤ node.level L by omega) hk
        rw [core, List.countP_flatMap]
        congr 1
        apply List.map_congr_left
        intro c hc
        have hcw := (hb.slot (d := c.1) (c := c.2) hc).2
        rw [Function.comp, countP_shift (pow_pos' _) (slot_bound hbr hc), ← hdig]
        rcases Nat.lt_trichotomy c.1 (digit k (node.level L)) with hlt | heq | hgt
        · rw [if_pos hlt, if_neg (by omega), if_neg (by omega), edgePop_eq hcw (by omega)]
        · rw [if_neg (by omega), if_pos heq, if_neg (by omega), if_pos heq.symm,
            ih hcw (low_lt _ _) (by omega) (by omega) (by omega)]
          rfl
        · rw [if_neg (by omega), if_neg (by omega), if_pos hgt]
      rw [entries_eq_shift_core h.1 rfl]
      change _ = (shift (slice aux (node.level L) L * 256 ^ node.level L)
        (core (node.level L) (branch aux node))).countP _
      rw [countP_shift (pow_pos' _) (core_bound hbr), countBelow]
      split_ifs with hskip hlt heq
      · rfl
      · exact hbelow _ (low_lt _ _)
      · have hlen := pop0_add_one h rfl (show node.level L ≤ 7 by omega)
        rw [entries_eq_shift_core h.1 rfl, length_shift] at hlen
        exact hlen
      all_goals
        have hLe : node.level L = L := by omega
        have hq : suffix / 256 ^ node.level L = 0 := by
          rw [hLe]
          exact Nat.div_eq_of_lt hs
        have hz : slice aux (node.level L) L = 0 := by rw [hLe, slice_self]
      · omega
      · rw [Nat.mod_eq_of_lt (by rw [hLe]; exact hs)]
        exact hbelow suffix (by rw [hLe]; exact hs)
      · omega

omit [Inhabited V] in
/-- The child of a rank, and the rank inside it, from exact populations. -/
theorem selectSlot_spec {l : ℕ} {slots : List (ℕ × Edge V)} {f : ℕ × Edge V → List (ℕ × V)}
    (hpop : ∀ c ∈ slots, edgePop l c.2 = (f c).length) {n : ℕ}
    (hn : n < (slots.flatMap f).length) :
    ∃ d c m, selectSlot l slots n = some (d, c, m) ∧ (d, c) ∈ slots ∧ m < (f (d, c)).length ∧
      (slots.flatMap f)[n]? = (f (d, c))[m]? := by
  induction slots generalizing n with
  | nil => simp at hn
  | cons s rest ih =>
    obtain ⟨d, c⟩ := s
    have hp : edgePop l c = (f (d, c)).length := hpop (d, c) (by simp)
    rw [selectSlot]
    rw [List.flatMap_cons, List.length_append] at hn
    split_ifs with hlt
    · refine ⟨d, c, n, rfl, by simp, by omega, ?_⟩
      rw [List.flatMap_cons, List.getElem?_append_left (by omega)]
    · obtain ⟨d', c', m, hsel, hm, hlt', hget⟩ := ih (fun c hc => hpop c (by simp [hc]))
        (show n - edgePop l c < (rest.flatMap f).length by omega)
      refine ⟨d', c', m, hsel, by simp [hm], hlt', ?_⟩
      rw [List.flatMap_cons, List.getElem?_append_right (by omega), ← hp]
      exact hget

theorem byCount_eq (h : WF fl lo L e) {n : ℕ} (hn : n < (entries L e).length) (hf : L ≤ fuel)
    (h1 : 1 ≤ L) (h8 : L ≤ 8) : byCount fuel e n L = (entries L e)[n]? := by
  induction fuel generalizing L e n with
  | zero => omega
  | succ fuel ih =>
    cases e with
    | null => simp [byCount, entries]
    | immed kb cols => rw [byCount, entries]
    | leaf kb aux cols => rw [byCount, entries, shift, List.getElem?_map]; rfl
    | leafB1 aux node =>
      have hsh := h.1
      rw [Shape] at hsh
      obtain ⟨-, -, hok, -, hpop⟩ := hsh
      rw [byCount, entries, shift, List.getElem?_map, ← Ranked.entries_keys hok, List.getElem?_map]
      cases hg : node.entries[n]? with
      | none => rfl
      | some p =>
        obtain ⟨d, v⟩ := p
        have hm := (Ranked.mem_entries hok).mp (List.mem_of_getElem? hg)
        simp [hm, compose]
    | fullExpanse aux =>
      rw [entries, List.length_map, List.length_range] at hn
      rw [byCount, entries, List.getElem?_map, List.getElem?_range hn]
      rfl
    | branch aux node =>
      have hb := shape_branch.mp h.1
      have h2 := hb.two_le
      have hl := hb.le
      rw [entries_eq_shift_core h.1 rfl] at hn ⊢
      rw [length_shift] at hn
      simp only [core, ownLevel, Edge.aux] at hn ⊢
      rw [byCount, shift, List.getElem?_map]
      obtain ⟨d, c, m, hsel, hm, hlt, hget⟩ := selectSlot_spec (l := node.level L - 1) (by
        intro c hc
        rw [length_shift]
        exact edgePop_eq (hb.slot (d := c.1) (c := c.2) hc).2 (by omega)) hn
      rw [length_shift] at hlt
      simp only [hsel, Option.bind_some, hget]
      rw [ih (hb.slot hm).2 hlt (by omega) (by omega) (by omega), shift, List.getElem?_map,
        Option.map_map]
      rfl

end Expanse.Edge
