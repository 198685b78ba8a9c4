import Expanse.Engine.Cascade

/-!
# The insert descent meets its contract

One statement for both engines, by induction on the slot level. Two conditions
name what can go wrong on the way: a map panics when a full byte-wide leaf skips
digits that are not all zero, and a split moves a narrow leaf into a slot of a
lower level, where the leaf may be smaller than that level admits.
-/

namespace Expanse.Edge

open Radix SortedAssoc

variable {V : Type} [Inhabited V] {fl : Flavour} {lo : ℕ → ℕ → ℕ} {L fuel key aux : ℕ} {keep : Bool}
  {val : V} {e : Edge V}

/-- The insert splits a narrow leaf that is too small for the slot below the split. -/
def SplitsLow (lo : ℕ → ℕ → ℕ) (L : ℕ) (e : Edge V) (key : ℕ) : Prop :=
  ∃ M kb aux cols, terminal L e key = (M, leaf kb aux cols) ∧ slice key kb M ≠ slice aux kb M ∧
    cols.size < lo (splitLevel aux key M - 1) kb

/-- The insert reaches a full narrow `Leaf1` whose skipped digits are not all zero. -/
def Panics (L : ℕ) (e : Edge V) (key : ℕ) : Prop :=
  ∃ M aux cols, terminal L e key = (M, leaf 1 aux cols) ∧ slice key 1 M = slice aux 1 M ∧
    slice key 1 M ≠ 0 ∧ low key 1 ∉ cols.keys ∧ cols.size = LEAF1_CAP

/-- Neither condition holds of the insert. -/
structure Clean (fl : Flavour) (lo : ℕ → ℕ → ℕ) (L : ℕ) (e : Edge V) (key : ℕ) : Prop where
  fits : ¬ SplitsLow lo L e key
  safe : fl = .map → ¬ Panics L e key

omit [Inhabited V] in
theorem Clean.of_terminal {L' : ℕ} {e' : Edge V} (h : Clean fl lo L e key)
    (ht : terminal L' e' key = terminal L e key) : Clean fl lo L' e' key := by
  refine ⟨?_, fun hm => ?_⟩
  · rw [SplitsLow, ht]
    exact h.fits
  · rw [Panics, ht]
    exact h.safe hm

omit [Inhabited V] in
theorem Clean.of_null (h : (terminal L e key).2 = null) : Clean fl lo L e key := by
  constructor
  · rintro ⟨M, kb, a, cols, ht, -⟩
    rw [ht] at h
    cases h
  · rintro - ⟨M, a, cols, ht, -⟩
    rw [ht] at h
    cases h

omit [Inhabited V] in
theorem not_armsTruncated_of_null {M : ℕ} (h : (terminal L e key).2 = null) :
    ¬ ArmsTruncated fl L e key val M := by
  rintro ⟨kb, a, cols, ht, -⟩
  rw [ht] at h
  cases h

theorem InsertSpec.of_restructured {e' : Edge V} {r : Inserted V}
    (h : InsertSpec fl lo keep L e' key val r) (he : entries L e' = entries L e)
    (hx : Exact L e') (ht : (terminal L e' key).2 = null) :
    InsertSpec fl lo keep L e key val r := by
  refine ⟨h.shape, fun _ => h.exact hx, h.nonnull, ?_, ?_, h.slot, ?_⟩
  · rw [← he]
    exact h.old
  · rw [← he]
    exact h.content
  · intro w hw
    obtain ⟨hpend, u, t, hres, hpop, hpre⟩ := h.path w hw
    refine ⟨hpend, u, t, hres, hpop, ?_⟩
    rcases hpre with hu | ⟨M, hM, -⟩
    · exact .inl hu
    · exact absurd hM (not_armsTruncated_of_null ht)

/-- What the induction provides for the slots below level `L`. -/
def SpecBelow (fl : Flavour) (lo : ℕ → ℕ → ℕ) (keep : Bool) (key : ℕ) (val : V) (L : ℕ) : Prop :=
  ∀ l < L, ∀ (e : Edge V) (fuel : ℕ), 1 ≤ l → WF fl lo l e → Clean fl lo l e key →
    2 * l + 4 ≤ fuel → ∃ r, insertFlat fl keep fuel e key val l = .ok r ∧
      InsertSpec fl lo keep l e key val r

theorem insert_passing {node opened : Branch (Edge V)} {d : ℕ}
    (ih : SpecBelow fl lo keep key val L) (h : BranchShape fl lo L node)
    (hs : branchStep aux node key L = .descend opened d)
    (hc : Clean fl lo L (branch aux node) key) (hfuel : 2 * L + 2 ≤ fuel) :
    ∃ r, insertFlat fl keep (fuel + 1) (branch aux node) key val L = .ok r ∧
      InsertSpec fl lo keep L (branch aux node) key val r := by
  obtain ⟨hg, hd, -⟩ := branchStep_descend h hs
  have h2 := h.two_le
  have hl := h.le
  obtain ⟨r, hr, hsp⟩ := ih (node.level L - 1) (by omega) (node.child d) fuel (by omega) (h.child d)
    (hc.of_terminal (by rw [terminal_branch h hg, hd])) (by omega)
  obtain ⟨r', hr', hsp', -⟩ := insert_descend h hs hr hsp
  exact ⟨r', hr', hsp'⟩

theorem insert_split (ih : SpecBelow fl lo keep key val L) (h : WF fl lo L e)
    (hn : e.isNode = true) (h7 : L ≤ 7) (h1 : 1 ≤ e.ownLevel L) (hle : e.ownLevel L ≤ L)
    (hg : slice key (e.ownLevel L) L ≠ slice e.aux (e.ownLevel L) L)
    (hfit : leafFits lo (splitLevel e.aux key L - 1) e) (hfuel : 2 * L + 2 ≤ fuel) :
    ∃ r, insertFlat fl keep (fuel + 1)
        (splitSkip e key L (Aux.pop0 e.aux (e.ownLevel L) + 1)) key val L = .ok r ∧
      InsertSpec fl lo keep L e key val r := by
  obtain ⟨aux', node', he, hw, hent, ht, opened, d, hs⟩ := splitSkip_spec h hn h7 h1 hle hg hfit
  rw [he]
  obtain ⟨r, hr, hsp⟩ := insert_passing ih (shape_branch.mp hw.1) hs (.of_null ht) hfuel
  exact ⟨r, hr, hsp.of_restructured hent hw.2 ht⟩

theorem insert_branch {node : Branch (Edge V)} (ih : SpecBelow fl lo keep key val L)
    (h : WF fl lo L (branch aux node)) (hc : Clean fl lo L (branch aux node) key)
    (hfuel : 2 * L + 2 ≤ fuel) :
    ∃ r, insertFlat fl keep (fuel + 2) (branch aux node) key val L = .ok r ∧
      InsertSpec fl lo keep L (branch aux node) key val r := by
  cases hs : branchStep aux node key L with
  | descend opened d => exact insert_passing ih (shape_branch.mp h.1) hs hc (by omega)
  | retry e' =>
    obtain ⟨aux', node', rfl, hw, hent, ht, opened, d, hs'⟩ := branchStep_retry h hs
    obtain ⟨r, hr, hsp⟩ := insert_passing ih (shape_branch.mp hw.1) hs' (.of_null ht) hfuel
    refine ⟨r, ?_, hsp.of_restructured hent hw.2 ht⟩
    rw [insertFlat]
    simp only [hs]
    exact hr

theorem insert_any_leaf {kb : ℕ} {cols : Columns V} (ih : SpecBelow fl lo keep key val L)
    (h : WF fl lo L (leaf kb aux cols)) (hc : Clean fl lo L (leaf kb aux cols) key)
    (ha : Admits fl lo) (hV : fl = .set → ∀ v : V, v = default) (hfuel : 2 * L + 4 ≤ fuel) :
    ∃ r, insertFlat fl keep fuel (leaf kb aux cols) key val L = .ok r ∧
      InsertSpec fl lo keep L (leaf kb aux cols) key val r := by
  obtain ⟨f, rfl⟩ := Nat.exists_eq_add_of_le' (show 4 ≤ fuel by omega)
  have hs := h.1
  rw [Shape] at hs
  obtain ⟨h1, hkl, h7, hp, -, hcap, hpop, -⟩ := hs
  by_cases hg : slice key kb L = slice aux kb L
  · by_cases hroom : low key kb ∈ cols.keys ∨ cols.size < leafCap kb
    · exact insert_leaf _ keep val h.1 hg hroom
    · push Not at hroom
      obtain ⟨hn, hge⟩ := hroom
      have hfull : cols.size = leafCap kb := by omega
      by_cases hk1 : kb = 1
      · subst hk1
        obtain ⟨aux', node, slot, path, hr, -, hsp⟩ := insert_leaf1_overflow keep
          val h.1 hg hn hfull (show L ≤ f + 3 by omega) (by
            intro hm
            by_contra hne
            exact hc.safe hm ⟨L, aux, cols, terminal_leaf, hg, hne, hn, hfull⟩)
        exact ⟨_, hr, hsp⟩
      · by_cases hd : divergenceLevel (firstKey (overflowEntries kb aux L key val cols))
          (lastKey (overflowEntries kb aux L key val cols)) L = 1
        · exact insert_leaf_overflow_bitmap h.1 (by omega) hg hn hfull (by omega) hd
        · exact insert_leaf_cascade h.1 (by omega) hg hn hfull (by omega) hd ha hV
  · have hfit : leafFits lo (splitLevel aux key L - 1) (leaf kb aux cols) := by
      have := hc.fits
      rw [SplitsLow] at this
      push Not at this
      exact this L kb aux cols terminal_leaf hg
    obtain ⟨r, hr, hsp⟩ := insert_split ih h rfl h7 h1 hkl hg hfit
      (show 2 * L + 2 ≤ f + 2 by omega)
    refine ⟨r, ?_, hsp⟩
    rw [insertFlat]
    have hg' := hg
    rw [← Aux.decode_guard hkl, Bool.not_eq_false] at hg'
    simp only [hg', if_true]
    exact hr

variable (keep val) in
/-- Every insert returns and meets its contract. -/
theorem insertFlat_spec (h : WF fl lo L e) (h1 : 1 ≤ L) (h8 : L ≤ 8) (hc : Clean fl lo L e key)
    (ha : Admits fl lo) (hV : fl = .set → ∀ v : V, v = default) (hfuel : 2 * L + 4 ≤ fuel) :
    ∃ r, insertFlat fl keep fuel e key val L = .ok r ∧
      InsertSpec fl lo keep L e key val r := by
  induction L using Nat.strong_induction_on generalizing e fuel with
  | _ L ih =>
    have hbelow : SpecBelow fl lo keep key val L := fun l hl e fuel h1 hw hc hf =>
      ih l hl hw h1 (by omega) hc hf
    obtain ⟨f, rfl⟩ := Nat.exists_eq_add_of_le' (show 2 ≤ fuel by omega)
    cases e with
    | null =>
      by_cases hL : L = 8
      · subst hL
        have hb : BranchShape fl lo 8 (Branch.newL3 8 : Branch (Edge V)) :=
          branchShape_newL3 le_rfl (fun _ => rfl) (by decide) le_rfl
        have hg : slice key 8 8 = slice 0 8 8 := by rw [slice_self, slice_self]
        obtain ⟨opened, hs⟩ := branchStep_passes hb hg
          (fun _ => ⟨_, openSlot_linear (by decide)⟩)
        have ht := terminal_absent hb hg (child_newL3 8 _)
        obtain ⟨r, hr, hsp⟩ := insert_passing hbelow hb hs (.of_null ht)
          (show 2 * 8 + 2 ≤ f by omega)
        refine ⟨r, ?_, hsp.of_restructured ?_ (fun h => absurd h (show ¬ 8 ≤ 7 by decide)) ht⟩
        · rw [insertFlat]
          simp only [if_true]
          exact hr
        · rw [entries_newL3 (by decide) le_rfl, entries]
      · exact insert_null _ _ _ _ _ _ h1 (by omega)
    | immed kb cols => exact insert_immed _ _ _ _ h.1 ha
    | fullExpanse aux =>
      have hs := h.1
      rw [Shape] at hs
      obtain ⟨rfl, -⟩ := hs
      exact insert_fullExpanse h.1 (hV rfl)
    | branch aux node => exact insert_branch hbelow h hc (by omega)
    | leaf kb aux cols => exact insert_any_leaf hbelow h hc ha hV hfuel
    | leafB1 aux node =>
      have hs := h.1
      rw [Shape] at hs
      by_cases hg : slice key 1 L = slice aux 1 L
      · exact insert_leafB1 _ _ _ h.1 hg hV
      · obtain ⟨r, hr, hsp⟩ := insert_split hbelow h rfl hs.2.1 le_rfl h1 hg trivial
          (show 2 * L + 2 ≤ f by omega)
        refine ⟨r, ?_, hsp⟩
        rw [insertFlat]
        have hg' := hg
        rw [← Aux.decode_guard h1, Bool.not_eq_false] at hg'
        simp only [hg', if_true]
        exact hr

/-- The full narrow `Leaf1` itself: the digits it skips are part of the keys that select a value
subarray. -/
theorem insert_leaf1_panics {cols : Columns V} (h : Shape .map lo L (leaf 1 aux cols))
    (hg : slice key 1 L = slice aux 1 L) (hz : slice key 1 L ≠ 0) (hn : low key 1 ∉ cols.keys)
    (hfull : cols.size = LEAF1_CAP) :
    insertFlat .map keep (fuel + 1) (leaf 1 aux cols) key val L = .error .indexOutOfBounds := by
  obtain ⟨-, hmem, hlen, -⟩ := overflowEntries_spec val h hg hn
  have hcap : leafCap 1 = 25 := rfl
  simp only [LEAF1_CAP] at hfull
  have hbuild : buildBitmapLeafMap (overflowEntries 1 aux L key val cols) =
      .error .indexOutOfBounds := by
    cases hE : overflowEntries 1 aux L key val cols with
    | nil => simp [hE] at hlen
    | cons e rest =>
      obtain ⟨k, v⟩ := e
      obtain ⟨hk, hsl⟩ := hmem k v (by simp [hE])
      have h1 : 1 ≤ L := by
        rw [Shape] at h
        exact h.2.1
      rw [slice_eq_div h1 hk, ← hg] at hsl
      have h8 : 8 ≤ k / 32 := by omega
      rw [buildBitmapLeafMap, if_pos]
      simp [h8]
  rw [insertFlat_leaf h hg, locate_of_not_mem hn]
  simp only [if_neg (show ¬ cols.size < leafCap 1 by omega)]
  unfold leafOverflow
  simp only
  rw [← overflowEntries, if_neg (by omega)]
  simp [hbuild]

variable (keep val) in
theorem insertFlat_panics (h : Shape .map lo L e) (hp : Panics L e key) (hfuel : L ≤ fuel) :
    insertFlat .map keep (fuel + 1) e key val L = .error .indexOutOfBounds := by
  induction L using Nat.strong_induction_on generalizing e fuel with
  | _ L ih =>
    obtain ⟨M, aux, cols, ht, hg, hz, hn, hfull⟩ := hp
    cases e with
    | leaf kb aux' cols' =>
      rw [terminal_leaf] at ht
      cases ht
      exact insert_leaf1_panics h hg hz hn hfull
    | branch aux' node =>
      have hb := shape_branch.mp h
      have h2 := hb.two_le
      have hl := hb.le
      by_cases hm : slice key (node.level L) L = slice aux' (node.level L) L
      · rw [terminal_branch hb hm] at ht
        have hstep : branchStep aux' node key L = .descend node (digit key (node.level L)) := by
          rw [branchStep_match hb hm]
          cases hf : node.find (digit key (node.level L)) with
          | some c => rfl
          | none =>
            rw [Branch.child, hf] at ht
            simp [terminal_null] at ht
        obtain ⟨f, rfl⟩ := Nat.exists_eq_add_of_le' (show 1 ≤ fuel by omega)
        have hi : insertFlat .map keep (f + 1) (node.child (digit key (node.level L))) key val
            (node.level L - 1) = .error .indexOutOfBounds :=
          ih _ (by omega) (hb.child _).1 ⟨M, aux, cols, ht, hg, hz, hn, hfull⟩ (by omega)
        rw [insertFlat]
        simp only [hstep, hi]
      · rw [terminal, dif_pos ⟨by omega, hl⟩, if_neg hm] at ht
        cases ht
    | _ => simp [terminal] at ht

end Expanse.Edge
