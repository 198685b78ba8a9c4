import Expanse.Engine.InsertTerminal

/-!
# An insert that passes through a branch

The contract of the child's slot carries over to the branch: contents and
addresses under the composed key, the population field bumped with a new key, the
insert path recorded one level up.
-/

namespace Expanse.Edge

open Radix SortedAssoc

variable {V : Type} [Inhabited V] {fl : Flavour} {lo : ℕ → ℕ → ℕ} {L fuel key d aux : ℕ} {keep : Bool}
  {val : V} {node opened : Branch (Edge V)}

theorem WF.entries_pos {e : Edge V} (h : WF fl lo L e) (hn : e ≠ null) (h7 : L ≤ 7) :
    0 < (entries L e).length := by
  cases e with
  | null => exact absurd rfl hn
  | immed kb cols =>
    have hs := h.1
    rw [Shape] at hs
    rw [entries, Columns.length_entries]
    exact hs.2.2.2.2.1
  | fullExpanse aux =>
    rw [entries, List.length_map, List.length_range]
    exact pow_pos' L
  | leaf kb aux cols =>
    have hs := h.1
    rw [Shape] at hs
    rw [← pop0_add_one h rfl (show kb ≤ 7 by omega)]
    omega
  | leafB1 aux node =>
    rw [← pop0_add_one h rfl (show 1 ≤ 7 by omega)]
    omega
  | branch aux node =>
    have hb := shape_branch.mp h.1
    have hl := hb.le
    rw [← pop0_add_one h rfl (show node.level L ≤ 7 by omega)]
    omega

/-- Every populated digit accounts for at least one entry. -/
theorem BranchShape.count_le_length (h : BranchShape fl lo L node) (aux : ℕ) :
    node.count ≤ (entries L (branch aux node)).length := by
  have h2 := h.two_le
  have hl := h.le
  have h8 := h.le_eight
  rw [Branch.count_eq_slots h.ok, entries_branch (by omega) hl, List.length_flatMap]
  have hpos : ∀ n ∈ node.slots.map fun s => (shift (slice aux (node.level L) L *
      256 ^ node.level L + s.1 * 256 ^ (node.level L - 1)) (entries (node.level L - 1) s.2)).length,
      1 ≤ n := by
    intro n hn
    obtain ⟨⟨x, c⟩, hm, rfl⟩ := List.mem_map.mp hn
    rw [length_shift]
    have hc := ((Branch.mem_slots_iff h.ok h.filled).mp hm).2
    exact (h.slot hm).2.entries_pos hc (by omega)
  have := List.length_le_sum_of_one_le _ hpos
  rwa [List.length_map] at this

/-- Keys below a branch share the bytes above its level. -/
theorem BranchShape.length_le (h : BranchShape fl lo L node) (aux : ℕ) :
    (entries L (branch aux node)).length ≤ 256 ^ node.level L := by
  refine (shape_branch.mpr h).sorted.length_le_of_mem_Ico
    (a := slice aux (node.level L) L * 256 ^ node.level L) ?_
  intro k hk
  obtain ⟨⟨k, v⟩, hm, rfl⟩ := List.mem_map.mp hk
  obtain ⟨hkb, hks, -⟩ := (mem_entries_branch h).mp hm
  have := low_eq_slice h.le k
  rw [low_of_lt hkb, hks] at this
  have hlt := low_lt k (node.level L)
  simp only
  omega

/-- A passing insert keeps the population field exact. -/
theorem exact_incPop0 {node' : Branch (Edge V)} {old : Option V}
    (h : BranchShape fl lo L node) (h' : BranchShape fl lo L node')
    (hlev : node'.level L = node.level L) {k : ℕ} {v : V}
    (hold : ∀ v, old = some v ↔ (k, v) ∈ entries L (branch aux node))
    {aux' : ℕ} (haux : aux' = if old.isNone then Aux.incPop0 aux (node.level L) else aux)
    (hu : Updated k v (entries L (branch aux node)) (entries L (branch aux' node')))
    (hx : Exact L (branch aux node)) : Exact L (branch aux' node') := by
  intro h7
  rw [hlev] at h7 ⊢
  have hlen := hu.length (shape_branch.mpr h).sorted (shape_branch.mpr h').sorted
  have hle := h'.length_le aux'
  rw [hlev] at hle
  have hpop := hx h7
  have hin : k ∈ (entries L (branch aux node)).map Prod.fst ↔ old.isSome := by
    simp only [List.mem_map, Prod.exists, Option.isSome_iff_exists, hold]
    constructor
    · rintro ⟨_, w, hm, rfl⟩
      exact ⟨w, hm⟩
    · rintro ⟨w, hm⟩
      exact ⟨k, w, hm, rfl⟩
  cases old with
  | some w =>
    rw [if_pos (hin.mpr rfl)] at hlen
    rw [hlen, haux]
    exact hpop
  | none =>
    rw [if_neg (by simp [hin])] at hlen
    rw [hlen, haux, ← hpop]
    simp only [Option.isNone_none, if_true, Aux.incPop0, if_pos h7]
    rw [Aux.pop0_setPop0]
    omega

theorem insert_descend {r : Inserted V} (h : BranchShape fl lo L node)
    (hs : branchStep aux node key L = .descend opened d)
    (hr : insertFlat fl keep fuel (node.child d) key val (node.level L - 1) = .ok r)
    (hspec : InsertSpec fl lo keep (node.level L - 1) (node.child d) key val r) :
    ∃ r', insertFlat fl keep (fuel + 1) (branch aux node) key val L = .ok r' ∧
      InsertSpec fl lo keep L (branch aux node) key val r' ∧
      r'.edge = branch (if r.old.isNone then Aux.incPop0 aux (node.level L) else aux)
        (opened.setChild d r.edge) ∧ r'.old = r.old ∧ r'.path = InsertPath.record d r.path := by
  obtain ⟨hg, hd, ho⟩ := branchStep_descend h hs
  have h2 := h.two_le
  have hl := h.le
  have hwf : WF fl lo (node.level L - 1) r.edge := ⟨hspec.shape, hspec.exact (h.child d).2⟩
  set aux' := if r.old.isNone then Aux.incPop0 aux (node.level L) else aux with haux'
  have hslice : slice aux' (node.level L) L = slice aux (node.level L) L := by
    rw [haux']
    split
    · exact Aux.slice_incPop0 le_rfl
    · rfl
  have hst := h.store ho hwf hspec.nonnull
  have hlev : (opened.setChild d r.edge).level L = node.level L := by
    rw [Branch.level_setChild, ho.level]
  have hkey : slice aux (node.level L) L * 256 ^ node.level L + d * 256 ^ (node.level L - 1) +
      low key (node.level L - 1) = low key L := by
    rw [← hg, hd, ← low_eq_split (by omega) hl]
  have hu : Updated (low key L) (stored keep r.old val) (entries L (branch aux node))
      (entries L (branch aux' (opened.setChild d r.edge))) := by
    rw [← hkey]
    exact updated_store h ho _ _ hwf hspec.nonnull hslice (hd ▸ digit_lt _ _) (low_lt _ _) hspec.content
  have hold : ∀ v, r.old = some v ↔ (low key L, v) ∈ entries L (branch aux node) := by
    intro v
    rw [mem_low_branch h.readable, hspec.old, ← hd]
    simp [hg]
  refine ⟨⟨branch aux' (opened.setChild d r.edge), r.old, r.slot.under d,
    InsertPath.record d r.path⟩, ?_, ?_, rfl, rfl, rfl⟩
  · rw [insertFlat]
    simp only [hs, ho.child, hr, haux']
  · refine ⟨shape_branch.mpr hst, exact_incPop0 h hst hlev hold haux' hu, (by simp), hold, hu, ?_, ?_⟩
    · intro hm
      simp only [Slot.under, slotEntry, hlev, child_store ho, if_pos, hspec.slot hm, hslice,
        Option.map_some, hkey]
    · intro w hw
      obtain ⟨w', hw', rfl⟩ := Option.map_eq_some_iff.mp hw
      obtain ⟨hpend, u, t, hres, hpop, hpre⟩ := hspec.path w' hw'
      refine ⟨hpend, slice aux (node.level L) L * 256 ^ (node.level L - 1) +
        d * 256 ^ (node.level L - 2) + u, t, ?_, hpop, ?_⟩
      · rw [← ho.level] at hres
        have := resolve_setChild aux' ho.ok ho.slot hres
        rw [ho.level, hslice] at this
        exact this
      · rcases hpre with ⟨rfl, hk⟩ | ⟨M, hM, rfl⟩
        · left
          refine ⟨?_, hk⟩
          rw [← hg, hd, low_div_byte h2 hl]
        · right
          obtain ⟨kb, a, cols, hterm, hrest⟩ := hM
          obtain ⟨hsh, hle⟩ := terminal_shape (h.child d).1 key
          rw [hterm] at hsh hle
          rw [Shape] at hsh
          have hM : 1 ≤ M ∧ M ≤ node.level L - 1 := ⟨by omega, hle⟩
          refine ⟨M, ⟨kb, a, cols, ?_, hrest⟩, ?_⟩
          · rw [terminal_branch h hg, ← hd, hterm]
          · rw [slice_through_digit (show M < node.level L by omega) hl, ← hg, hd, Nat.add_mul,
              Nat.add_mul, Nat.mul_assoc, Nat.mul_assoc, ← Nat.pow_add, ← Nat.pow_add, ← Nat.add_assoc,
              show node.level L - M + (M - 1) = node.level L - 1 by omega,
              show node.level L - 1 - M + (M - 1) = node.level L - 2 by omega]

end Expanse.Edge
