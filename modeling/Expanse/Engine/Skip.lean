import Expanse.Engine.Update

/-!
# Narrow pointers

An edge may refer to a node below its slot level; its decode bytes name the
digits it skips. `wrapSkipLevel` materialises one skipped level as a one-slot
branch, `splitSkip` does so at the highest level where an insert diverges. Both
leave the entries of the slot as they are.
-/

namespace Expanse

open Radix SortedAssoc

namespace Aux

theorem pop0_setPop0 {aux level p : ℕ} (hp : p < 256 ^ level) :
    pop0 (setPop0 aux level p) level = p := by
  unfold pop0 setPop0
  rw [setSlice_low (Nat.zero_le _)]
  simp [Nat.mod_one, Nat.mod_eq_of_lt hp]

theorem slice_setPop0 {aux level p a b : ℕ} (h : level ≤ a) :
    slice (setPop0 aux level p) a b = slice aux a b :=
  slice_setSlice_above (Nat.zero_le _) h

/-- Bump a population field by one; level 8 has none. -/
def incPop0 (aux level : ℕ) : ℕ :=
  if level ≤ 7 then setPop0 aux level (pop0 aux level + 1) else aux

def decPop0 (aux level : ℕ) : ℕ :=
  if level ≤ 7 then setPop0 aux level (pop0 aux level - 1) else aux

theorem slice_incPop0 {aux level a b : ℕ} (h : level ≤ a) :
    slice (incPop0 aux level) a b = slice aux a b := by
  unfold incPop0
  split_ifs
  · exact slice_setPop0 h
  · rfl

theorem slice_decPop0 {aux level a b : ℕ} (h : level ≤ a) :
    slice (decPop0 aux level) a b = slice aux a b := by
  unfold decPop0
  split_ifs
  · exact slice_setPop0 h
  · rfl

/-- The decode check of every descent: it runs on narrow pointers only. -/
theorem decode_guard {aux key kb level : ℕ} (h : kb ≤ level) :
    (decide (kb < level) && !decodeMatches aux key kb level) = false ↔
      slice key kb level = slice aux kb level := by
  unfold decodeMatches
  rcases Nat.eq_or_lt_of_le h with rfl | hlt
  · simp [slice_self]
  · simp [hlt]

end Aux

namespace Edge

variable {V : Type}

def aux : Edge V → ℕ
  | leaf _ aux _ => aux
  | leafB1 aux _ => aux
  | fullExpanse aux => aux
  | branch aux _ => aux
  | _ => 0

def setAux (aux : ℕ) : Edge V → Edge V
  | leaf kb _ cols => leaf kb aux cols
  | leafB1 _ node => leafB1 aux node
  | fullExpanse _ => fullExpanse aux
  | branch _ node => branch aux node
  | e => e

/-- The level of the node an edge refers to, under a slot at `L`. -/
def ownLevel (L : ℕ) : Edge V → ℕ
  | leaf kb _ _ => kb
  | leafB1 _ _ => 1
  | branch _ node => node.level L
  | _ => L

/-- One skipped level as a one-slot linear branch at `lvl`. -/
def wrapSkipLevel (e : Edge V) (lvl slotLevel subtreePop : ℕ) : Edge V :=
  let t := digit e.aux lvl
  let child := e.setAux (Aux.clearBytes e.aux (lvl - 1) (min slotLevel 7))
  let aux := if lvl < slotLevel then setSlice 0 lvl slotLevel (slice e.aux lvl slotLevel) else 0
  branch (Aux.setPop0 aux lvl (subtreePop - 1))
    (.linear .l3 ⟨lvl, BranchHeader.addPresence 0 t, [t]⟩ [child])

/-- The highest level at or below the slot where the key leaves the skipped digits. -/
def splitLevel (aux key : ℕ) : ℕ → ℕ
  | 0 => 0
  | l + 1 => if digit key (l + 1) = digit aux (l + 1) then splitLevel aux key l else l + 1

def splitSkip (e : Edge V) (key level subtreePop : ℕ) : Edge V :=
  wrapSkipLevel e (splitLevel e.aux key level) level subtreePop

theorem splitLevel_spec {aux key m L : ℕ} (h : slice key m L ≠ slice aux m L) (hm : m ≤ L) :
    m < splitLevel aux key L ∧ splitLevel aux key L ≤ L ∧
      digit key (splitLevel aux key L) ≠ digit aux (splitLevel aux key L) ∧
      slice key (splitLevel aux key L) L = slice aux (splitLevel aux key L) L := by
  induction L with
  | zero =>
    have : m = 0 := by omega
    subst this
    simp [slice_self] at h
  | succ l ih =>
    rw [splitLevel]
    by_cases hd : digit key (l + 1) = digit aux (l + 1)
    · rw [if_pos hd]
      by_cases hml : m ≤ l
      · have hl : slice key l (l + 1) = slice aux l (l + 1) := by
          have := slice_digit (show 1 ≤ l + 1 by omega)
          simp only [Nat.add_sub_cancel] at this
          rw [this, this, hd]
        have hne : slice key m l ≠ slice aux m l := by
          intro he
          exact h ((slice_eq_iff hml (Nat.le_succ l) _ _).mpr ⟨hl, he⟩)
        obtain ⟨h1, h2, h3, h4⟩ := ih hne hml
        exact ⟨h1, by omega, h3, (slice_eq_iff h2 (Nat.le_succ l) _ _).mpr ⟨hl, h4⟩⟩
      · have : m = l + 1 := by omega
        subst this
        simp [slice_self] at h
    · rw [if_neg hd]
      refine ⟨?_, le_rfl, hd, by rw [slice_self, slice_self]⟩
      rcases Nat.eq_or_lt_of_le hm with rfl | hlt
      · simp [slice_self] at h
      · exact hlt

theorem shift_shift (a b : ℕ) (l : List (ℕ × V)) : shift a (shift b l) = shift (a + b) l := by
  simp [shift, Nat.add_assoc]

theorem shift_flatMap {α : Type} (a : ℕ) (l : List α) (f : α → List (ℕ × V)) :
    shift a (l.flatMap f) = l.flatMap fun x => shift a (f x) := by
  simp [shift, List.map_flatMap]

def isNode : Edge V → Bool
  | leaf _ _ _ => true
  | leafB1 _ _ => true
  | branch _ _ => true
  | _ => false

theorem isNode_of_ownLevel_lt {L : ℕ} {e : Edge V} (h : e.ownLevel L < L) : e.isNode = true := by
  cases e <;> simp_all [ownLevel, isNode]

variable [Inhabited V] {fl : Flavour} {lo : ℕ → ℕ → ℕ} {P : Branch (Edge V) → Prop} {L : ℕ}
  {e : Edge V}

/-- The entries of the node an edge refers to, without the skipped bytes. -/
def core (m : ℕ) : Edge V → List (ℕ × V)
  | leaf _ _ cols => cols.entries
  | leafB1 _ node => node.entries
  | branch _ node => node.slots.flatMap fun s => shift (s.1 * 256 ^ (m - 1)) (entries (m - 1) s.2)
  | _ => []

theorem Readable.entries_eq_shift_core (h : Readable fl P L e) (hn : e.isNode = true) :
    entries L e = shift (slice e.aux (e.ownLevel L) L * 256 ^ e.ownLevel L)
      (core (e.ownLevel L) e) := by
  cases e with
  | null => simp [isNode] at hn
  | immed kb cols => simp [isNode] at hn
  | leaf kb aux cols => rw [entries]; rfl
  | leafB1 aux node => rw [entries]; rfl
  | fullExpanse aux => simp [isNode] at hn
  | branch aux node =>
    have hb := readable_branch.mp h
    have h2 := hb.two_le
    rw [entries_branch (by omega) hb.le]
    simp only [core, ownLevel, Edge.aux, shift_flatMap, shift_shift]

theorem entries_eq_shift_core (h : Shape fl lo L e) (hn : e.isNode = true) :
    entries L e = shift (slice e.aux (e.ownLevel L) L * 256 ^ e.ownLevel L)
      (core (e.ownLevel L) e) := h.readable.entries_eq_shift_core hn

/-- The population an insert or removal reads from an exact node edge. -/
theorem pop0_add_one (h : WF fl lo L e) (hn : e.isNode = true) (h7 : e.ownLevel L ≤ 7) :
    Aux.pop0 e.aux (e.ownLevel L) + 1 = (entries L e).length := by
  cases e with
  | null => simp [isNode] at hn
  | immed kb cols => simp [isNode] at hn
  | leaf kb aux cols =>
    have hs := h.1
    rw [Shape] at hs
    rw [entries, length_shift, Columns.length_entries]
    exact hs.2.2.2.2.2.2.1
  | leafB1 aux node =>
    have hs := h.1
    rw [Shape] at hs
    rw [entries, length_shift, ← List.length_map (f := Prod.fst), Ranked.entries_keys hs.2.2.1]
    exact hs.2.2.2.2
  | fullExpanse aux => simp [isNode] at hn
  | branch aux node => exact h.2 h7

/-- A leaf has the population that slots at level `L` ask for. -/
def leafFits (lo : ℕ → ℕ → ℕ) (L : ℕ) : Edge V → Prop
  | leaf kb _ cols => lo L kb ≤ cols.size
  | _ => True

/-- A skipping node serves as well in any lower slot that still covers it. -/
theorem relevel {L' aux' : ℕ} (h : WF fl lo L e) (hm : e.ownLevel L < L) (hL : e.ownLevel L ≤ L')
    (h7 : L' ≤ 7) (hfit : leafFits lo L' e) (haux : low aux' (e.ownLevel L) = low e.aux (e.ownLevel L)) :
    WF fl lo L' (e.setAux aux') ∧ (e.setAux aux').ownLevel L' = e.ownLevel L ∧
      core (e.ownLevel L) (e.setAux aux') = core (e.ownLevel L) e := by
  cases e with
  | null => simp [ownLevel] at hm
  | immed kb cols => simp [ownLevel] at hm
  | fullExpanse aux => simp [ownLevel] at hm
  | leaf kb aux cols =>
    obtain ⟨hs, -⟩ := h
    rw [Shape] at hs
    obtain ⟨h1, -, -, hp, hn, hc, hpop⟩ := hs
    refine ⟨⟨?_, trivial⟩, rfl, rfl⟩
    rw [setAux, Shape]
    refine ⟨h1, hL, h7, hp, hn, hc, ?_, hfit⟩
    rw [Aux.pop0, show low aux' kb = low aux kb from haux]
    exact hpop.1
  | leafB1 aux node =>
    obtain ⟨hs, -⟩ := h
    rw [Shape] at hs
    obtain ⟨h1, -, ho, hd, hpop⟩ := hs
    refine ⟨⟨?_, trivial⟩, rfl, rfl⟩
    rw [setAux, Shape]
    refine ⟨hL, h7, ho, hd, ?_⟩
    rw [Aux.pop0, show low aux' 1 = low aux 1 from haux]
    exact hpop
  | branch aux node =>
    have hb := shape_branch.mp h.1
    have hlev : node.level L' = node.level L := by
      cases node with
      | linear form hdr edges => rfl
      | bitmap level kids => rfl
      | uncompressed edges => simp [ownLevel, Branch.level] at hm
    have hbl : node.level L ≤ 7 := le_trans hL h7
    have hs : Shape fl lo L' (branch aux' node) := by
      rw [shape_branch]
      exact ⟨by omega, by omega, hb.ok, hb.filled, hb.range, by rw [hlev]; exact hb.two_le,
        by rw [hlev]; exact hL, by rw [hlev]; exact hb.kids⟩
    refine ⟨⟨hs, ?_⟩, hlev, rfl⟩
    intro _
    have hlen := h.2 hbl
    rw [entries_eq_shift_core h.1 rfl, length_shift] at hlen
    rw [entries_eq_shift_core hs rfl, length_shift, Aux.pop0]
    simp only [ownLevel, hlev, Edge.aux] at hlen haux ⊢
    rw [haux]
    exact hlen

omit [Inhabited V] in
theorem setAux_isNode (aux' : ℕ) (h : e.isNode = true) : (e.setAux aux').isNode = true := by
  cases e <;> simp_all [isNode, setAux]

omit [Inhabited V] in
theorem setAux_aux {aux' : ℕ} (h : e.isNode = true) : (e.setAux aux').aux = aux' := by
  cases e <;> simp_all [isNode, setAux, Edge.aux]

/-- Materialising a skipped level keeps the entries and the invariant. -/
theorem wrapSkipLevel_spec {lvl pop : ℕ} (h : WF fl lo L e) (hm : e.ownLevel L < lvl) (hl : lvl ≤ L)
    (h1 : 1 ≤ e.ownLevel L) (h7 : L ≤ 7) (hfit : leafFits lo (lvl - 1) e) (hpop : pop = (entries L e).length) :
    ∃ aux hdr child, wrapSkipLevel e lvl L pop = branch aux (.linear .l3 hdr [child]) ∧
      WF fl lo L (wrapSkipLevel e lvl L pop) ∧
      entries L (wrapSkipLevel e lvl L pop) = entries L e ∧
      hdr.level = lvl ∧ hdr.digits = [digit e.aux lvl] ∧
      slice aux lvl L = slice e.aux lvl L ∧ ∃ aux', child = e.setAux aux' := by
  have hnode := isNode_of_ownLevel_lt (hm.trans_le hl)
  have hmin : min L 7 = L := by omega
  set aux0 := if lvl < L then setSlice 0 lvl L (slice e.aux lvl L) else 0 with haux0
  set t := digit e.aux lvl with ht
  set child := e.setAux (Aux.clearBytes e.aux (lvl - 1) L) with hchild
  have hw : wrapSkipLevel e lvl L pop = branch (Aux.setPop0 aux0 lvl (pop - 1))
      (.linear .l3 ⟨lvl, BranchHeader.addPresence 0 t, [t]⟩ [child]) := by
    rw [wrapSkipLevel, hmin]
  have hclear : low (Aux.clearBytes e.aux (lvl - 1) L) (e.ownLevel L) =
      low e.aux (e.ownLevel L) := low_setSlice_below (by omega) (by omega)
  obtain ⟨hcw, hcl, hcc⟩ := relevel h (hm.trans_le hl) (show e.ownLevel L ≤ lvl - 1 by omega)
    (by omega) hfit hclear
  have hslice : slice (Aux.setPop0 aux0 lvl (pop - 1)) lvl L = slice e.aux lvl L := by
    rw [Aux.slice_setPop0 le_rfl, haux0]
    split_ifs with hlt
    · rw [slice_setSlice hl, Nat.mod_eq_of_lt (slice_lt _ _ _)]
    · have : lvl = L := by omega
      rw [this, slice_self, slice_self]
  have hnn : child ≠ null := by
    have := setAux_isNode (Aux.clearBytes e.aux (lvl - 1) L) hnode
    intro hc
    rw [← hchild, hc] at this
    simp [isNode] at this
  have hok : (Branch.linear .l3 ⟨lvl, BranchHeader.addPresence 0 t, [t]⟩ [child]).Ok := by
    refine ⟨rfl, by simp, ?_, ?_, by simp [LinearForm.cap, BRANCH_L3_CAP]⟩
    · intro d hd
      rw [List.mem_singleton.mp hd]
      exact digit_lt _ _
    · intro d hd
      rw [List.mem_singleton.mp hd]
      simp [BranchHeader.addPresence]
  have hfind : ∀ d c, Branch.find d (.linear .l3 ⟨lvl, BranchHeader.addPresence 0 t, [t]⟩ [child]) =
      some c → c = child := by
    intro d c hf
    rw [Branch.find_linear_iff hok] at hf
    simp at hf
    exact hf.2
  have hshape : Shape fl lo L (wrapSkipLevel e lvl L pop) := by
    rw [hw, shape_branch]
    refine ⟨by omega, by omega, hok, ?_, trivial, ?_, hl, ?_⟩
    · intro _ d c hf
      rw [hfind d c hf]
      exact hnn
    · change 2 ≤ lvl
      omega
    · intro d c hf
      rw [hfind d c hf]
      exact hcw
  have hent : entries L (wrapSkipLevel e lvl L pop) = entries L e := by
    rw [hw, entries_branch (by change 1 ≤ lvl; omega) (by change lvl ≤ L; exact hl),
      entries_eq_shift_core h.1 hnode]
    simp only [Branch.slots, Branch.level, List.zip_cons_cons, List.zip_nil_right,
      List.flatMap_singleton]
    rw [hslice, entries_eq_shift_core hcw.1 (setAux_isNode _ hnode), shift_shift, hcl, hcc,
      setAux_aux hnode, Aux.clearBytes, slice_setSlice_below (by omega) (by omega) le_rfl]
    congr 1
    -- the skipped bytes split into those above `lvl`, its digit, and those below
    have hd : slice e.aux (lvl - 1) lvl = t := slice_digit (by omega) e.aux
    rw [slice_add (show e.ownLevel L ≤ lvl - 1 by omega) (show lvl - 1 ≤ L by omega) e.aux,
      slice_add (show lvl - 1 ≤ lvl by omega) hl e.aux, hd,
      show lvl - (lvl - 1) = 1 by omega, pow_pred (show 1 ≤ lvl by omega),
      pow_split (show e.ownLevel L ≤ lvl - 1 by omega)]
    ring
  refine ⟨_, _, _, hw, ⟨hshape, ?_⟩, hent, rfl, rfl, hslice, _, rfl⟩
  rw [hw]
  intro _
  have hlen : (entries L e).length ≤ 256 ^ lvl := by
    refine h.1.sorted.length_le_of_mem_Ico (a := slice e.aux lvl L * 256 ^ lvl) ?_
    intro k hk
    obtain ⟨⟨k, v⟩, hkm, rfl⟩ := List.mem_map.mp hk
    rw [← hent, hw, mem_entries_branch (shape_branch.mp (hw ▸ hshape))] at hkm
    obtain ⟨hkb, hks, -⟩ := hkm
    change slice k lvl L = slice (Aux.setPop0 aux0 lvl (pop - 1)) lvl L at hks
    rw [hslice] at hks
    have := low_eq_slice hl k
    rw [low_of_lt hkb, hks] at this
    have hlt := low_lt k lvl
    simp only
    omega
  have hpos : 0 < (entries L e).length := by
    rw [← pop0_add_one h hnode (by omega)]
    omega
  rw [← hw, hent]
  change Aux.pop0 (Aux.setPop0 aux0 lvl (pop - 1)) lvl + 1 = _
  rw [Aux.pop0_setPop0 (by omega), hpop]
  omega

end Edge

end Expanse
