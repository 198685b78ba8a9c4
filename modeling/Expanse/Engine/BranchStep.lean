import Expanse.Engine.Insert
import Expanse.Engine.GetSpec

/-!
# One insert iteration at a branch

A restructured branch holds the same entries and lets the key pass at the next
look; a branch that lets the key pass has a slot for its digit.
-/

namespace Expanse

open Radix SortedAssoc

namespace Branch

variable {α : Type} [Nullable α]

theorem slots_eq_of_child {b b' : Branch α} (h : b.Ok) (hf : b.Filled) (h' : b'.Ok)
    (hf' : b'.Filled) (hc : ∀ x, b'.child x = b.child x) : b'.slots = b.slots := by
  apply (slots_sorted h').ext (slots_sorted h)
  intro k v
  rw [mem_slots_iff h' hf', mem_slots_iff h hf, hc]

theorem count_eq_of_child {b b' : Branch α} (h : b.Ok) (hf : b.Filled) (h' : b'.Ok)
    (hf' : b'.Filled) (hc : ∀ x, b'.child x = b.child x) : b'.count = b.count := by
  rw [count_eq_slots h', count_eq_slots h, slots_eq_of_child h hf h' hf' hc]

end Branch

namespace Edge

variable {V : Type} [Inhabited V] {fl : Flavour} {lo : ℕ → ℕ → ℕ} {L aux key d : ℕ}
    {node node' : Branch (Edge V)}

/-- `node'` is `node` in another layout. -/
structure Relaid (fl : Flavour) (lo : ℕ → ℕ → ℕ) (L : ℕ) (node node' : Branch (Edge V)) : Prop where
  shape : BranchShape fl lo L node'
  level : node'.level L = node.level L
  child : ∀ x, node'.child x = node.child x

theorem Relaid.entries (h : BranchShape fl lo L node) (r : Relaid fl lo L node node') (aux : ℕ) :
    entries L (branch aux node') = entries L (branch aux node) := by
  apply (shape_branch.mpr r.shape).sorted.ext (shape_branch.mpr h).sorted
  intro k v
  rw [mem_entries_branch r.shape, mem_entries_branch h, r.level, r.child]

theorem Relaid.exact (h : BranchShape fl lo L node) (r : Relaid fl lo L node node')
    (hx : Exact L (branch aux node)) : Exact L (branch aux node') := by
  intro h7
  rw [r.level] at h7 ⊢
  rw [r.entries h]
  exact hx h7

theorem Relaid.of_child (h : BranchShape fl lo L node) (hok : node'.Ok) (hf : node'.Filled)
    (hr : InRange node') (hl : node'.level L = node.level L)
    (hc : ∀ x, node'.child x = node.child x) : Relaid fl lo L node node' where
  shape := by
    refine ⟨h.le_eight, by rw [hl]; exact h.top, hok, hf, hr, by rw [hl]; exact h.two_le,
      by rw [hl]; exact h.le, ?_⟩
    intro d c hd
    have := hc d
    rw [Branch.child, hd] at this
    rw [hl, show c = node.child d from this]
    exact h.child d
  level := hl
  child := hc

section Layouts

variable {hdr : BranchHeader} {edges : List (Edge V)} {level : ℕ} {kids : Ranked (Edge V)}

theorem relaid_l3_l7 (h : BranchShape fl lo L (.linear .l3 hdr edges)) :
    Relaid fl lo L (.linear .l3 hdr edges) (.linear .l7 hdr edges) := by
  have hok := Branch.upgradeL3ToL7_ok h.ok
  have hfind := Branch.find_relabel h.ok hok
  exact .of_child h hok (Branch.filled_congr hfind rfl h.filled) trivial rfl
    (Branch.child_congr hfind)

theorem relaid_l7_b (h : BranchShape fl lo L (.linear .l7 hdr edges))
    (hn : hdr.digits.length = BRANCH_L7_CAP) :
    Relaid fl lo L (.linear .l7 hdr edges) (Branch.upgradeL7ToB (.linear .l7 hdr edges)) := by
  have hok := Branch.upgradeL7ToB_ok h.ok
  have hfind := Branch.find_upgradeL7ToB h.ok
  have hf := Branch.filled_congr hfind rfl h.filled
  have hcount := Branch.count_eq_of_child h.ok h.filled hok hf (Branch.child_congr hfind)
  refine .of_child h hok hf ?_ rfl (Branch.child_congr hfind)
  simp only [Branch.upgradeL7ToB, Branch.count, hn] at hcount
  simp only [Branch.upgradeL7ToB, InRange, hcount]
  decide

theorem relaid_b_u (h : BranchShape fl lo L (.bitmap level kids)) (hl : level = L)
    (hn : BRANCHB_UP ≤ Bitmap.count kids.bits) :
    Relaid fl lo L (.bitmap level kids) (Branch.upgradeBToU (.bitmap level kids)) := by
  have hok : (Branch.upgradeBToU (.bitmap level kids)).Ok := Branch.upgradeBToU_ok
  have hc := Branch.child_upgradeBToU h.ok
  have hcount := Branch.count_eq_of_child h.ok h.filled hok Branch.filled_uncompressed hc
  refine .of_child h hok Branch.filled_uncompressed ?_ (by simp [Branch.upgradeBToU, Branch.level, hl]) hc
  change BRANCHU_TO_B_DOWN < (Branch.upgradeBToU (.bitmap level kids)).count
  rw [hcount]
  exact lt_of_lt_of_le (by decide) hn

end Layouts

/-- The key passes through the slot of its digit. -/
structure Passes (L : ℕ) (aux : ℕ) (node opened : Branch (Edge V)) (key d : ℕ) : Prop where
  skip : slice key (node.level L) L = slice aux (node.level L) L
  digit : d = digit key (node.level L)
  opened : Opened L node opened d

omit [Inhabited V] in
theorem openSlot_linear {form : LinearForm} {hdr : BranchHeader} {edges : List (Edge V)}
    (hn : hdr.digits.length ≠ form.cap) : openSlot aux (.linear form hdr edges) L d =
      .descend (Branch.insertSlot d (.linear form hdr edges)) d := by
  cases form <;> exact if_neg hn

omit [Inhabited V] in
theorem openSlot_bitmap {bl : ℕ} {kids : Ranked (Edge V)}
    (hn : Bitmap.count kids.bits + 1 ≤ BRANCHB_UP) : openSlot aux (.bitmap bl kids) L d =
      .descend (Branch.insertSlot d (.bitmap bl kids)) d :=
  if_neg (by omega)

theorem openSlot_descend (h : BranchShape fl lo L node) (hnone : node.find d = none) (h256 : d < 256)
    {d' : ℕ} (hs : openSlot aux node L d = .descend node' d') : d' = d ∧ Opened L node node' d := by
  unfold openSlot at hs
  split at hs
  · split_ifs at hs with hn
    cases hs
    exact ⟨rfl, .insertSlot h hnone h256 (lt_of_le_of_ne h.ok.2.2.2.2 hn) (by intro _ _ he; cases he)⟩
  · split_ifs at hs with hn
    cases hs
    exact ⟨rfl, .insertSlot h hnone h256 (lt_of_le_of_ne h.ok.2.2.2.2 hn) (by intro _ _ he; cases he)⟩
  · split_ifs at hs with hn
    cases hs
    refine ⟨rfl, .insertSlot h hnone h256 trivial ?_⟩
    intro _ _ he
    cases he
    omega
  · have hlen := h.ok
    simp only [Branch.Ok] at hlen
    rw [Branch.find, List.getElem?_eq_none_iff, hlen] at hnone
    omega

theorem branchStep_match (h : BranchShape fl lo L node)
    (hg : slice key (node.level L) L = slice aux (node.level L) L) :
    branchStep aux node key L =
      match node.find (digit key (node.level L)) with
      | some _ => .descend node (digit key (node.level L))
      | none => openSlot aux node L (digit key (node.level L)) := by
  rw [← Aux.decode_guard h.le] at hg
  unfold branchStep
  dsimp only
  rewrite [hg]
  rfl

theorem branchStep_mismatch (h : BranchShape fl lo L node)
    (hg : slice key (node.level L) L ≠ slice aux (node.level L) L) :
    branchStep aux node key L =
      .retry (splitSkip (branch aux node) key L (Aux.pop0 aux (node.level L) + 1)) := by
  rw [Ne, ← Aux.decode_guard h.le, Bool.not_eq_false] at hg
  simp only [branchStep, hg, if_true]

theorem branchStep_descend (h : BranchShape fl lo L node)
    (hs : branchStep aux node key L = .descend node' d) : Passes L aux node node' key d := by
  by_cases hg : slice key (node.level L) L = slice aux (node.level L) L
  · rw [branchStep_match h hg] at hs
    split at hs
    · next c hc =>
      cases hs
      exact ⟨hg, rfl, .refl h (by simp [hc])⟩
    · next hnone =>
      obtain ⟨rfl, ho⟩ := openSlot_descend h hnone (digit_lt _ _) hs
      exact ⟨hg, rfl, ho⟩
  · rw [branchStep_mismatch h hg] at hs
    cases hs

theorem branchStep_passes (h : BranchShape fl lo L node)
    (hg : slice key (node.level L) L = slice aux (node.level L) L)
    (hroom : node.find (digit key (node.level L)) = none →
      ∃ node', openSlot aux node L (digit key (node.level L)) =
        .descend node' (digit key (node.level L))) :
    ∃ node', branchStep aux node key L = .descend node' (digit key (node.level L)) := by
  rw [branchStep_match h hg]
  split
  · exact ⟨_, rfl⟩
  · next hnone => exact hroom hnone

/-- A one-slot linear branch, as a split or a wrap leaves it, lets every matching key pass. -/
theorem branchStep_single {hdr : BranchHeader} {child : Edge V}
    (h : BranchShape fl lo L (.linear .l3 hdr [child]))
    (hg : slice key hdr.level L = slice aux hdr.level L) :
    ∃ node' d, branchStep aux (.linear .l3 hdr [child]) key L = .descend node' d := by
  obtain ⟨node', hn⟩ := branchStep_passes h hg (by
    intro _
    have hlen : hdr.digits.length = 1 := h.ok.1
    exact ⟨_, openSlot_linear (by rw [hlen]; decide)⟩)
  exact ⟨node', _, hn⟩

/-- Below a branch without a slot for the key's digit the descent ends at the null edge. -/
theorem terminal_absent (h : BranchShape fl lo L node)
    (hg : slice key (node.level L) L = slice aux (node.level L) L)
    (hc : node.child (digit key (node.level L)) = null) :
    (terminal L (branch aux node) key).2 = null := by
  rw [terminal_branch h hg, hc, terminal_null]

omit [Inhabited V] in
theorem child_single {hdr : BranchHeader} {child : Edge V} {t : ℕ} (hd : hdr.digits = [t])
    (hne : d ≠ t) : Branch.child (.linear .l3 hdr [child]) d = null := by
  have hn : d ∉ hdr.digits := by simp [hd, hne]
  simp [Branch.child, Branch.find, indexOf?_of_not_mem hn]

omit [Inhabited V] in
theorem child_single_self {hdr : BranchHeader} {child : Edge V} (hd : hdr.digits = [d]) :
    Branch.child (.linear .l3 hdr [child]) d = child := by
  simp [Branch.child, Branch.find, indexOf?, hd]

/-- Splitting a narrow pointer that the key leaves: same entries, and the key then passes into an
empty slot. -/
theorem splitSkip_spec {e : Edge V} (h : WF fl lo L e) (hn : e.isNode = true) (h7 : L ≤ 7)
    (h1 : 1 ≤ e.ownLevel L) (hle : e.ownLevel L ≤ L)
    (hg : slice key (e.ownLevel L) L ≠ slice e.aux (e.ownLevel L) L)
    (hfit : leafFits lo (splitLevel e.aux key L - 1) e) :
    ∃ aux' node', splitSkip e key L (Aux.pop0 e.aux (e.ownLevel L) + 1) = branch aux' node' ∧
      WF fl lo L (branch aux' node') ∧ entries L (branch aux' node') = entries L e ∧
      (terminal L (branch aux' node') key).2 = null ∧
      ∃ node'' d, branchStep aux' node' key L = .descend node'' d := by
  obtain ⟨hlt, hsl, hdig, hsli⟩ := splitLevel_spec hg hle
  obtain ⟨aux', hdr, child, he, hw, hent, hlev, hdg, haux, -⟩ := wrapSkipLevel_spec h hlt hsl h1 h7
    hfit (pop0_add_one h hn (by omega))
  rw [splitSkip]
  rw [he] at hw hent
  have hb := shape_branch.mp hw.1
  have hskip : slice key hdr.level L = slice aux' hdr.level L := by rw [hlev, hsli, haux]
  refine ⟨aux', _, he, hw, hent, terminal_absent hb hskip ?_, branchStep_single hb hskip⟩
  refine child_single hdg ?_
  change digit key hdr.level ≠ _
  rw [hlev]
  exact hdig

/-- A full layout makes way for a roomier one through which the key passes. -/
theorem openSlot_retry (h : BranchShape fl lo L node)
    (hg : slice key (node.level L) L = slice aux (node.level L) L)
    (hnone : node.find (digit key (node.level L)) = none)
    {e' : Edge V} (hs : openSlot aux node L (digit key (node.level L)) = .retry e')
    (hfull : ∀ bl kids, node = .bitmap bl kids → bl < L → Bitmap.count kids.bits < BRANCHB_UP) :
    ∃ node', e' = branch aux node' ∧ Relaid fl lo L node node' ∧
      ∃ node'' d, branchStep aux node' key L = .descend node'' d := by
  have hpass : ∀ {node' : Branch (Edge V)}, Relaid fl lo L node node' →
      (node'.find (digit key (node.level L)) = none →
        ∃ node'', openSlot aux node' L (digit key (node.level L)) =
          .descend node'' (digit key (node.level L))) →
      ∃ node'' d, branchStep aux node' key L = .descend node'' d := by
    intro node' hr hroom
    obtain ⟨node'', hn⟩ := branchStep_passes hr.shape
      (show slice key (node'.level L) L = slice aux (node'.level L) L by rw [hr.level]; exact hg)
        (by rw [hr.level]; exact hroom)
    exact ⟨node'', _, hn⟩
  unfold openSlot at hs
  split at hs
  · next hdr edges =>
    split_ifs at hs with hn
    cases hs
    have hr := relaid_l3_l7 h
    exact ⟨_, rfl, hr, hpass hr fun _ => ⟨_, openSlot_linear (by rw [hn]; decide)⟩⟩
  · next hdr edges =>
    split_ifs at hs with hn
    cases hs
    have hr := relaid_l7_b h hn
    have hcount := Branch.count_eq_of_child h.ok h.filled hr.shape.ok hr.shape.filled hr.child
    simp only [Branch.upgradeL7ToB, Branch.count, hn] at hcount
    exact ⟨_, rfl, hr, hpass hr fun _ => ⟨_, openSlot_bitmap (by rw [hcount]; decide)⟩⟩
  · next bl kids =>
    split_ifs at hs with hn hlt
    · have := hfull bl kids rfl hlt
      omega
    · cases hs
      have hle : bl ≤ L := h.le
      have hr := relaid_b_u h (show bl = L by omega) (by omega)
      exact ⟨_, rfl, hr, hpass hr fun _ => ⟨_, rfl⟩⟩
  · cases hs

/-- Every restructuring keeps the entries, and then the key passes into an empty slot. -/
theorem branchStep_retry (h : WF fl lo L (branch aux node)) {e' : Edge V}
    (hs : branchStep aux node key L = .retry e') :
    ∃ aux' node', e' = branch aux' node' ∧ WF fl lo L (branch aux' node') ∧
      entries L (branch aux' node') = entries L (branch aux node) ∧
      (terminal L (branch aux' node') key).2 = null ∧
      ∃ node'' d, branchStep aux' node' key L = .descend node'' d := by
  have hb := shape_branch.mp h.1
  have h2 := hb.two_le
  have hskip7 : node.level L < L → L ≤ 7 := by
    intro hlt
    have := hb.le_eight
    have := hb.top
    omega
  by_cases hg : slice key (node.level L) L = slice aux (node.level L) L
  · rw [branchStep_match hb hg] at hs
    split at hs
    · cases hs
    · next hnone =>
      by_cases hfull : ∀ bl kids, node = .bitmap bl kids → bl < L →
          Bitmap.count kids.bits < BRANCHB_UP
      · obtain ⟨node', rfl, hr, hp⟩ := openSlot_retry hb hg hnone hs hfull
        refine ⟨aux, node', rfl, ⟨shape_branch.mpr hr.shape, hr.exact hb h.2⟩, hr.entries hb aux,
          terminal_absent hr.shape (by rw [hr.level]; exact hg) ?_, hp⟩
        rw [hr.level, hr.child, Branch.child, hnone]
        rfl
      -- a full bitmap node that skips is wrapped one level up
      · push Not at hfull
        obtain ⟨bl, kids, rfl, hlt, hcount⟩ := hfull
        have h7 := hskip7 hlt
        simp only [openSlot] at hs
        rw [if_pos (by omega), if_pos hlt] at hs
        cases hs
        have hpop := pop0_add_one h rfl (show bl ≤ 7 by omega)
        obtain ⟨aux', hdr, child, he, hw, hent, hlev, hdg, haux, aux'', rfl⟩ := wrapSkipLevel_spec h
          (show (branch aux (.bitmap bl kids)).ownLevel L < bl + 1 from Nat.lt_succ_self bl)
          (show bl + 1 ≤ L from hlt) (show 1 ≤ bl by simp only [Branch.level] at h2; omega) h7 trivial hpop
        change wrapSkipLevel _ _ _ (Aux.pop0 aux bl + 1) = _ at he
        rw [he]
        change WF fl lo L (wrapSkipLevel _ _ _ (Aux.pop0 aux bl + 1)) at hw
        change entries L (wrapSkipLevel _ _ _ (Aux.pop0 aux bl + 1)) = _ at hent
        rw [he] at hw hent
        have hw' := shape_branch.mp hw.1
        obtain ⟨hup, hdig⟩ := (slice_eq_iff (Nat.le_succ bl) hlt key aux).mp hg
        have hskip : slice key hdr.level L = slice aux' hdr.level L := by
          rw [hlev, haux]
          exact hup
        refine ⟨aux', _, rfl, hw, hent, ?_, branchStep_single hw' hskip⟩
        -- the key follows the wrapped pointer and finds no slot in the full node
        have hdig' : digit key hdr.level = digit aux (bl + 1) := by
          rw [hlev, ← slice_digit (Nat.le_add_left 1 bl), ← slice_digit (Nat.le_add_left 1 bl)]
          exact hdig
        change hdr.digits = [digit aux (bl + 1)] at hdg
        have hkid := hw'.child (digit key hdr.level)
        rw [hdig', child_single_self hdg] at hkid
        rw [terminal_branch hw' hskip]
        change (terminal (hdr.level - 1) (Branch.child _ (digit key hdr.level)) key).2 = null
        rw [hdig', child_single_self hdg]
        change WF fl lo (hdr.level - 1) (branch aux'' (.bitmap bl kids)) at hkid
        rw [hlev] at hkid ⊢
        refine terminal_absent (shape_branch.mp hkid.1) ?_ ?_
        · change slice key bl bl = slice aux'' bl bl
          rw [slice_self, slice_self]
        · change (Branch.find (digit key bl) (.bitmap bl kids)).getD null = null
          rw [show Branch.find (digit key bl) (.bitmap bl kids) = none from hnone]
          rfl
  · rw [branchStep_mismatch hb hg] at hs
    cases hs
    have hlt : node.level L < L := by
      rcases Nat.eq_or_lt_of_le hb.le with he | hlt
      · rw [he] at hg
        simp [slice_self] at hg
      · exact hlt
    obtain ⟨aux', node', he, hw, hent, ht, hp⟩ := splitSkip_spec h rfl (hskip7 hlt)
      (show 1 ≤ node.level L by omega) hb.le hg trivial
    exact ⟨aux', node', he, hw, hent, ht, hp⟩

end Edge

end Expanse
