import Expanse.Engine.InsertSpec

/-!
# Splitting a narrow pointer

Where an insert leaves the skipped digits of a narrow pointer, the pointer is split at the
highest level at which the key and every key below it differ. The key then finds an empty
slot one level below, so that one insert splits at most once: on the way to the split it
only descends, and behind it only an empty slot is left.
-/

namespace Expanse.Edge

open Radix SortedAssoc

variable {V : Type} [Inhabited V] {fl : Flavour} {lo : ℕ → ℕ → ℕ} {L fuel key aux : ℕ} {keep : Bool}
  {val : V} {e : Edge V} {node : Branch (Edge V)}

/-- `divergenceLevel` is the level below which the suffixes may differ freely. -/
theorem divergenceLevel_eq {a b d : ℕ} (h1 : 1 ≤ d) (hd : d ≤ L) (hup : slice a d L = slice b d L)
    (hdig : digit a d ≠ digit b d) : divergenceLevel a b L = d := by
  have hpow : ∀ n, 256 ^ n = 2 ^ (8 * n) := fun n => by rw [Nat.pow_mul]
  have hxor : low (a ^^^ b) L = low a L ^^^ low b L := by
    rw [low, low, low, hpow, Nat.xor_mod_two_pow]
  have hlt : low a L ^^^ low b L < 2 ^ (8 * d) := by
    rw [xor_lt_iff, ← hpow, low_div hd, low_div hd]
    exact hup
  have hge : ¬ low a L ^^^ low b L < 2 ^ (8 * (d - 1)) := by
    rw [xor_lt_iff, ← hpow, low_div (by omega), low_div (by omega),
      slice_eq_iff (show d - 1 ≤ d by omega) hd, slice_digit h1, slice_digit h1]
    exact fun h => hdig h.2
  have hne : low a L ^^^ low b L ≠ 0 := by
    intro h0
    rw [h0] at hge
    exact hge (by positivity)
  have hlog := (Nat.log2_lt hne).mpr hlt
  have hlog' := (Nat.le_log2 hne).mpr (not_lt.mp hge)
  rw [divergenceLevel, hxor]
  omega

/-- The keys below a narrow pointer carry its skipped digits. -/
theorem slice_of_mem (h : Shape fl lo L e) (hn : e.isNode = true) {k : ℕ} {v : V}
    (hm : (k, v) ∈ entries L e) : slice k (e.ownLevel L) L = slice e.aux (e.ownLevel L) L := by
  have hs := h
  rw [Shape.eq_def] at hs
  cases e with
  | null => cases hn
  | immed kb cols => cases hn
  | fullExpanse aux => cases hn
  | leaf kb aux cols => exact ((mem_entries_leaf hs.2.1 hs.2.2.2.1).mp hm).2.1
  | leafB1 aux node => exact ((mem_entries_leafB1 hs.1 hs.2.2.1).mp hm).2.1
  | branch aux node => exact ((mem_entries_branch (shape_branch.mp h)).mp hm).2.1

theorem narrow_bounds (h : Shape fl lo L e) (hm : e.ownLevel L < L) : 1 ≤ e.ownLevel L ∧ L ≤ 7 := by
  have hs := h
  rw [Shape.eq_def] at hs
  cases e with
  | null => exact absurd hm (lt_irrefl L)
  | immed kb cols => exact absurd hm (lt_irrefl L)
  | fullExpanse aux => exact absurd hm (lt_irrefl L)
  | leaf kb aux cols => exact ⟨hs.1, hs.2.2.1⟩
  | leafB1 aux node => exact ⟨le_rfl, hs.2.1⟩
  | branch aux node =>
    have hb := shape_branch.mp h
    have h2 := hb.two_le
    have h8 := hb.le_eight
    have htop := hb.top
    change node.level L < L at hm
    change 1 ≤ node.level L ∧ L ≤ 7
    omega

/-- What a split leaves in the slot of `e`: the old entries and their number, below a branch at the
highest level at which the key differs from each of them, and an empty slot for the key. -/
structure SplitOff (fl : Flavour) (lo : ℕ → ℕ → ℕ) (L : ℕ) (e : Edge V) (key at' aux : ℕ)
    (node : Branch (Edge V)) : Prop where
  wf : WF fl lo L (branch aux node)
  level : node.level L = at'
  below : e.ownLevel L < at'
  le : at' ≤ L
  entries : entries L (branch aux node) = entries L e
  pop : Aux.pop0 aux at' + 1 = (Edge.entries L e).length
  highest : ∀ k v, (k, v) ∈ Edge.entries L e → slice k at' L = slice key at' L ∧
    digit k at' ≠ digit key at' ∧ divergenceLevel key k L = at'
  progress : ∃ opened, branchStep aux node key L = .descend opened (digit key at') ∧
    opened.child (digit key at') = null

/-- Splitting a narrow pointer at the digits that the key leaves. -/
theorem splitSkip_splitOff (h : WF fl lo L e) (hm : e.ownLevel L < L)
    (hg : slice key (e.ownLevel L) L ≠ slice e.aux (e.ownLevel L) L)
    (hfit : leafFits lo (splitLevel e.aux key L - 1) e) :
    ∃ aux' node', splitSkip e key L (Aux.pop0 e.aux (e.ownLevel L) + 1) = branch aux' node' ∧
      SplitOff fl lo L e key (splitLevel e.aux key L) aux' node' := by
  obtain ⟨h1, h7⟩ := narrow_bounds h.1 hm
  have hn := isNode_of_ownLevel_lt hm
  obtain ⟨hlt, hsl, hdig, hsli⟩ := splitLevel_spec hg hm.le
  obtain ⟨aux', hdr, child, he, hw, hent, hlev, hdg, haux, -⟩ := wrapSkipLevel_spec h hlt hsl h1 h7
    hfit (pop0_add_one h hn (by omega))
  rw [splitSkip]
  rw [he] at hw hent
  set at' := splitLevel e.aux key L
  have hb := shape_branch.mp hw.1
  have hskip : slice key hdr.level L = slice aux' hdr.level L := by rw [hlev, hsli, haux]
  refine ⟨aux', _, he, hw, hlev, hlt, hsl, hent, ?_, ?_, ?_⟩
  · have hpop := pop0_add_one hw rfl (show hdr.level ≤ 7 by omega)
    change Aux.pop0 aux' hdr.level + 1 = _ at hpop
    rw [hlev, hent] at hpop
    exact hpop
  · intro k v hk
    have hs := slice_of_mem h.1 hn hk
    obtain ⟨hup, hlow⟩ := (slice_eq_iff (show e.ownLevel L ≤ at' by omega) hsl k e.aux).mp hs
    obtain ⟨hkd, -⟩ := (slice_eq_iff (show e.ownLevel L ≤ at' - 1 by omega)
      (show at' - 1 ≤ at' by omega) k e.aux).mp hlow
    rw [slice_digit (by omega), slice_digit (by omega)] at hkd
    have hne : digit k at' ≠ digit key at' := fun hd => hdig (hd.symm.trans hkd)
    have heq : slice k at' L = slice key at' L := hup.trans hsli.symm
    exact ⟨heq, hne, divergenceLevel_eq (by omega) hsl heq.symm hne.symm⟩
  · obtain ⟨opened, d, hs⟩ := branchStep_single hb hskip
    obtain ⟨-, rfl, ho⟩ := branchStep_descend hb hs
    have hd : digit key (Branch.level L (.linear .l3 hdr [child])) = digit key at' := by
      change digit key hdr.level = _
      rw [hlev]
    rw [hd] at hs ho
    refine ⟨opened, hs, ?_⟩
    rw [ho.child]
    exact child_single hdg hdig

/-- A full bitmap node that skips: it is wrapped before it opens another slot. -/
def wrapsFirst (level : ℕ) : Branch (Edge V) → Bool
  | .bitmap bl kids => Bitmap.count kids.bits + 1 > BRANCHB_UP && bl < level
  | _ => false

/-- The retry at a branch materialises a skipped level: the key leaves the skipped digits, or finds no
slot in a node that is wrapped first. -/
def splitsHere (aux : ℕ) (node : Branch (Edge V)) (key level : ℕ) : Bool :=
  let bl := node.level level
  bl < level && !Aux.decodeMatches aux key bl level ||
    (node.find (digit key bl)).isNone && wrapsFirst level node

def insertAllSplits (insert : Edge V → ℕ → V → Except Fault (Inserted V))
    (splits : Edge V → ℕ → V → ℕ) : Edge V → List (ℕ × V) → ℕ
  | _, [] => 0
  | e, (k, v) :: rest =>
    splits e k v +
      match insert e k v with
      | .ok r => insertAllSplits insert splits r.edge rest
      | .error _ => 0

/-- The splits of `leafOverflow`: those of the inserts into its fresh branch. -/
def overflowSplits (insert : Edge V → ℕ → V → Except Fault (Inserted V))
    (splits : Edge V → ℕ → V → ℕ) (kb aux : ℕ) (cols : Columns V) (level : ℕ) : ℕ :=
  let all := absorbDecode aux kb level cols.entries
  let first := (all.head?.map Prod.fst).getD 0
  let last := (all.getLast?.map Prod.fst).getD 0
  let d := divergenceLevel first last level
  if all.length ≤ leafCap kb || kb = 1 || d = 1 then 0
  else
    let aux0 := if d < level then Aux.writeDecode 0 d level first else 0
    insertAllSplits insert splits (branch aux0 (Branch.newL3 d)) all

/-- The calls of `wrapSkipLevel` on the way of `insertFlat`. -/
def insertSplits (fl : Flavour) (keep : Bool) : ℕ → Edge V → ℕ → V → ℕ → ℕ
  | 0, _, _, _, _ => 0
  | fuel + 1, e, key, val, level =>
    match e with
    | null =>
      if level = 8 then insertSplits fl keep fuel (branch 0 (Branch.newL3 level)) key val level else 0
    | branch aux node =>
      match branchStep aux node key level with
      | .retry e' =>
        (if splitsHere aux node key level then 1 else 0) + insertSplits fl keep fuel e' key val level
      | .descend node' d => insertSplits fl keep fuel (node'.child d) key val (node.level level - 1)
    | leafB1 aux _ =>
      if 1 < level && !Aux.decodeMatches aux key 1 level then
        1 + insertSplits fl keep fuel (splitSkip e key level (Aux.pop0 aux 1 + 1)) key val level
      else 0
    | leaf kb aux cols =>
      let pop := Aux.pop0 aux kb + 1
      if kb < level && !Aux.decodeMatches aux key kb level then
        1 + insertSplits fl keep fuel (splitSkip e key level pop) key val level
      else
        let k := low key kb
        match leafPos cols.keys pop k with
        | .ok _ => 0
        | .error pos =>
          if pop < leafCap kb then 0
          else
            overflowSplits (fun e k v => insertFlat fl keep fuel e k v level)
              (fun e k v => insertSplits fl keep fuel e k v level) kb aux
              (cols.insertAt pos k val) level
    | fullExpanse _ => 0
    | immed _ _ => 0

theorem insertSplits_null (h : L ≤ 7) : insertSplits fl keep fuel (null : Edge V) key val L = 0 := by
  cases fuel with
  | zero => rfl
  | succ fuel => rw [insertSplits, if_neg (by omega)]

theorem insertSplits_descend_null {opened : Branch (Edge V)} {d : ℕ} (h : BranchShape fl lo L node)
    (hs : branchStep aux node key L = .descend opened d) (hc : node.child d = null) :
    insertSplits fl keep fuel (branch aux node) key val L = 0 := by
  cases fuel with
  | zero => rfl
  | succ fuel =>
    have hl := h.le
    have h8 := h.le_eight
    have h2 := h.two_le
    rw [insertSplits]
    simp only [hs, (branchStep_descend h hs).opened.child, hc]
    exact insertSplits_null (by omega)

theorem splitsHere_match (h : BranchShape fl lo L node)
    (hg : slice key (node.level L) L = slice aux (node.level L) L) :
    splitsHere aux node key L =
      ((node.find (digit key (node.level L))).isNone && wrapsFirst L node) := by
  rw [← Aux.decode_guard h.le] at hg
  simp only [splitsHere, hg, Bool.false_or]

omit [Inhabited V] in
theorem wrapsFirst_eq_false
    (hfull : ∀ bl kids, node = .bitmap bl kids → bl < L → Bitmap.count kids.bits < BRANCHB_UP) :
    wrapsFirst L node = false := by
  cases node with
  | bitmap bl kids =>
    rw [wrapsFirst, Bool.and_eq_false_iff, decide_eq_false_iff_not, decide_eq_false_iff_not]
    by_cases hbl : bl < L
    · have := hfull bl kids rfl hbl
      left
      omega
    · exact .inr hbl
  | linear form hdr edges => rfl
  | uncompressed edges => rfl

/-- Opening a slot in a node that need not be wrapped. -/
theorem insertSplits_absent (h : BranchShape fl lo L node)
    (hg : slice key (node.level L) L = slice aux (node.level L) L)
    (hnone : node.find (digit key (node.level L)) = none)
    (hfull : ∀ bl kids, node = .bitmap bl kids → bl < L → Bitmap.count kids.bits < BRANCHB_UP) :
    insertSplits fl keep fuel (branch aux node) key val L = 0 := by
  have hnull : node.child (digit key (node.level L)) = null := by
    rw [Branch.child, hnone]
    rfl
  cases hs : branchStep aux node key L with
  | descend opened d =>
    obtain ⟨-, rfl, -⟩ := branchStep_descend h hs
    exact insertSplits_descend_null h hs hnull
  | retry e' =>
    cases fuel with
    | zero => rfl
    | succ fuel =>
      have hopen := hs
      rw [branchStep_match h hg, hnone] at hopen
      obtain ⟨node', rfl, hr, opened, d, hd⟩ := openSlot_retry h hg hnone hopen hfull
      have hhere : splitsHere aux node key L = false := by
        rw [splitsHere_match h hg, wrapsFirst_eq_false hfull, Bool.and_false]
      have hd' := (branchStep_descend hr.shape hd).digit
      rw [hr.level] at hd'
      rw [insertSplits]
      simp only [hs, hhere, Bool.false_eq_true, if_false, Nat.zero_add]
      exact insertSplits_descend_null hr.shape hd (by rw [hr.child, hd', hnull])

/-- Behind a split the key goes into an empty slot. -/
theorem SplitOff.insertSplits {e : Edge V} {at' : ℕ} (h : SplitOff fl lo L e key at' aux node) :
    insertSplits fl keep fuel (branch aux node) key val L = 0 := by
  obtain ⟨opened, hs, hnull⟩ := h.progress
  have hb := shape_branch.mp h.wf.1
  refine insertSplits_descend_null hb hs ?_
  rw [← (branchStep_descend hb hs).opened.child]
  exact hnull

section Leaf

variable {kb : ℕ} {cols : Columns V}

theorem insertSplits_leaf (h : Shape fl lo L (leaf kb aux cols))
    (hg : slice key kb L = slice aux kb L) :
    insertSplits fl keep (fuel + 1) (leaf kb aux cols) key val L =
      match locate cols.keys (low key kb) with
      | .ok _ => 0
      | .error pos =>
        if cols.size < leafCap kb then 0
        else
          overflowSplits (fun e k v => insertFlat fl keep fuel e k v L)
            (fun e k v => insertSplits fl keep fuel e k v L) kb aux
            (cols.insertAt pos (low key kb) val) L := by
  rw [Shape] at h
  obtain ⟨-, hkl, -, hp, hn1, -, hpop, -⟩ := h
  rw [← Aux.decode_guard hkl] at hg
  rw [insertSplits]
  simp only [hg, Bool.false_eq_true, if_false, hpop]
  rw [show cols.size = cols.keys.length from rfl, leafPos_eq_locate hp.sorted hn1]

/-- A leaf that holds the key already, has room for it, or is byte-wide. -/
theorem insertSplits_leaf_eq_zero (h : Shape fl lo L (leaf kb aux cols))
    (hg : slice key kb L = slice aux kb L)
    (hroom : low key kb ∈ cols.keys ∨ cols.size < leafCap kb ∨ kb = 1) :
    insertSplits fl keep (fuel + 1) (leaf kb aux cols) key val L = 0 := by
  have hs := h
  rw [Shape] at hs
  rw [insertSplits_leaf h hg]
  by_cases hk : low key kb ∈ cols.keys
  · rw [locate_of_mem hs.2.2.2.1.sorted hk]
  · rw [locate_of_not_mem hk]
    rcases hroom.resolve_left hk with hlt | rfl
    · exact if_pos hlt
    · simp [overflowSplits]

end Leaf

/-- Among the forms that a run of inserts builds none is split. -/
theorem insertSplits_fresh {c : Edge V} {l : ℕ} (hw : Shape fl lo l c) (hf : Fresh fl l c)
    (hsmall : (entries l c).length ≤ 31) (h7 : l ≤ 7) :
    insertSplits fl keep fuel c key val l = 0 := by
  cases fuel with
  | zero => rfl
  | succ fuel =>
    cases c with
    | null => exact insertSplits_null h7
    | immed kb cols => rfl
    | fullExpanse aux => rfl
    | branch aux node => exact hf.elim
    | leafB1 aux node =>
      obtain ⟨rfl, -⟩ := hf
      simp [insertSplits]
    | leaf kb aux cols =>
      obtain ⟨rfl, -⟩ := hf
      have hg : slice key kb kb = slice aux kb kb := by rw [slice_self, slice_self]
      refine insertSplits_leaf_eq_zero hw hg (.inr ?_)
      rw [entries, length_shift, Columns.length_entries] at hsmall
      by_cases hk : kb = 1
      · exact .inr hk
      · have hcap : leafCap kb = 32 := if_neg hk
        left
        omega

section Run

variable {d P : ℕ} {done : List (ℕ × V)} {path : Option InsertPath} {k : ℕ} {v : V}

theorem insertSplits_cascading (h : Cascading fl lo L d P done aux node path)
    (hP : slice k d L = P) (hlen : done.length ≤ 32)
    (hsmall : (entries (d - 1) (node.child (digit k d))).length ≤ 31) :
    insertSplits fl keep fuel (branch aux node) k v L = 0 := by
  have hb := h.shape
  have hlev := h.level
  have hg : slice k (node.level L) L = slice aux (node.level L) L := by
    rw [hlev, hP, h.skip]
  cases hfind : node.find (digit k (node.level L)) with
  | none =>
    refine insertSplits_absent hb hg hfind ?_
    rintro bl kids rfl -
    have hcount := hb.count_le_length aux
    rw [h.content] at hcount
    exact lt_of_le_of_lt (hcount.trans hlen) (by decide)
  | some c =>
    cases fuel with
    | zero => rfl
    | succ fuel =>
      have hs : branchStep aux node k L = .descend node (digit k (node.level L)) := by
        rw [branchStep_match hb hg, hfind]
      have hl := hb.le
      have h8 := hb.le_eight
      have hchild := (hb.child (digit k d)).1
      rw [hlev] at hs hl hchild
      rw [insertSplits]
      simp only [hs, hlev]
      exact insertSplits_fresh hchild (h.fresh _) hsmall (by omega)

theorem insertAllSplits_cascading {all rest : List (ℕ × V)}
    (h : Cascading fl lo L d P done aux node path) (hall : all = done ++ rest)
    (hsort : KeySorted all) (hlen : all.length ≤ 33)
    (hkeys : ∀ k v, (k, v) ∈ all → k < 256 ^ L ∧ slice k d L = P)
    (hends : digit (firstKey all) d ≠ digit (lastKey all) d)
    (ha : Admits fl lo) (hV : fl = .set → ∀ v : V, v = default) (hfuel : d ≤ fuel) :
    insertAllSplits (fun e k v => insertFlat fl keep (fuel + 3) e k v L)
      (fun e k v => insertSplits fl keep (fuel + 3) e k v L) (branch aux node) rest = 0 := by
  induction rest generalizing done aux node path with
  | nil => rfl
  | cons e rest ih =>
    obtain ⟨k, v⟩ := e
    subst hall
    obtain ⟨hk, hP⟩ := hkeys k v (by simp)
    obtain ⟨hsd, -, hcross⟩ := List.pairwise_append.mp hsort
    have hsmall := h.child_small hlen hends
    have hdl : done.length ≤ 32 := by
      simp only [List.length_append, List.length_cons] at hlen
      omega
    obtain ⟨r, aux', node', hins, hedge, hc⟩ := cascading_step keep (v := v) h hk hP
      (fun e he => hcross e he (k, v) (by simp)) hsd hdl hsmall ha hV hfuel
    rw [insertAllSplits]
    simp only [hins, hedge, insertSplits_cascading h hP hdl hsmall, Nat.zero_add]
    exact ih hc (by simp)

end Run

theorem overflowSplits_eq_zero {kb : ℕ} {cols : Columns V} (h : Shape fl lo L (leaf kb aux cols))
    (h2 : 2 ≤ kb) (hg : slice key kb L = slice aux kb L) (hn : low key kb ∉ cols.keys)
    (hfull : cols.size = leafCap kb) (ha : Admits fl lo) (hV : fl = .set → ∀ v : V, v = default)
    (hfuel : L ≤ fuel) :
    overflowSplits (fun e k v => insertFlat fl keep (fuel + 3) e k v L)
      (fun e k v => insertSplits fl keep (fuel + 3) e k v L) kb aux
      (cols.insertAt (lowerBound cols.keys (low key kb)) (low key kb) val) L = 0 := by
  unfold overflowSplits
  simp only
  rw [← overflowEntries, ← firstKey, ← lastKey]
  split
  · rfl
  · rename_i hstop
    simp only [Bool.or_eq_true, decide_eq_true_eq, not_or] at hstop
    obtain ⟨-, hdL, hsort, hlen, hdig, hkeys, hstart⟩ :=
      cascading_start val h h2 hg hn hfull rfl rfl hstop.2
    exact insertAllSplits_cascading hstart (List.nil_append _).symm hsort hlen.le hkeys hdig ha hV
      (hdL.trans hfuel)

theorem insertSplits_split (keep : Bool) (fuel : ℕ) (val : V) (h : WF fl lo L e)
    (hle : e.ownLevel L ≤ L)
    (hg : slice key (e.ownLevel L) L ≠ slice e.aux (e.ownLevel L) L)
    (hfit : leafFits lo (splitLevel e.aux key L - 1) e) :
    insertSplits fl keep fuel (splitSkip e key L (Aux.pop0 e.aux (e.ownLevel L) + 1)) key val L = 0 := by
  have hm : e.ownLevel L < L := by
    rcases Nat.eq_or_lt_of_le hle with he | hlt
    · rw [he, slice_self, slice_self] at hg
      exact absurd rfl hg
    · exact hlt
  obtain ⟨aux', node', he, hoff⟩ := splitSkip_splitOff h hm hg hfit
  rw [he]
  exact hoff.insertSplits

/-- A full bitmap node that skips: it is wrapped, and behind the wrap becomes an uncompressed node. -/
theorem insertSplits_wrap {bl : ℕ} {kids : Ranked (Edge V)}
    (h : WF fl lo L (branch aux (.bitmap bl kids))) (hlt : bl < L)
    (hg : slice key bl L = slice aux bl L) (hnone : Branch.find (digit key bl) (.bitmap bl kids) = none) :
    insertSplits fl keep fuel
      (wrapSkipLevel (branch aux (.bitmap bl kids)) (bl + 1) L (Aux.pop0 aux bl + 1)) key val L = 0 := by
  obtain ⟨h1, h7⟩ := narrow_bounds h.1 hlt
  have hpop := pop0_add_one h rfl (show bl ≤ 7 by omega)
  obtain ⟨aux', hdr, child, he, hw, -, hlev, hdg, haux, aux'', rfl⟩ := wrapSkipLevel_spec h
    (show (branch aux (.bitmap bl kids)).ownLevel L < bl + 1 from Nat.lt_succ_self bl)
    (show bl + 1 ≤ L from hlt) h1 h7 trivial hpop
  change wrapSkipLevel _ _ _ (Aux.pop0 aux bl + 1) =
    branch aux' (.linear .l3 hdr [branch aux'' (.bitmap bl kids)]) at he
  change WF fl lo L (wrapSkipLevel _ _ _ (Aux.pop0 aux bl + 1)) at hw
  change hdr.digits = [digit aux (bl + 1)] at hdg
  rw [he] at hw ⊢
  have hb := shape_branch.mp hw.1
  obtain ⟨hup, hdig⟩ := (slice_eq_iff (Nat.le_succ bl) hlt key aux).mp hg
  have hdig' : digit key (bl + 1) = digit aux (bl + 1) := by
    rw [← slice_digit (Nat.le_add_left 1 bl), ← slice_digit (Nat.le_add_left 1 bl)]
    exact hdig
  have hskip : slice key hdr.level L = slice aux' hdr.level L := by
    rw [hlev, haux]
    exact hup
  cases fuel with
  | zero => rfl
  | succ fuel =>
    obtain ⟨opened, d, hs⟩ := branchStep_single hb hskip
    obtain ⟨-, hd, ho⟩ := branchStep_descend hb hs
    change d = digit key hdr.level at hd
    rw [hlev, hdig'] at hd
    have hchild := ho.child d
    rw [hd, child_single_self hdg] at hchild
    have hkid := (hb.child (digit aux (bl + 1))).1
    rw [child_single_self hdg] at hkid
    change Shape fl lo (hdr.level - 1) _ at hkid
    rw [hlev] at hkid
    rw [insertSplits]
    simp only [hs, hd, hchild, Branch.level, hlev]
    refine insertSplits_absent (shape_branch.mp hkid) ?_ hnone ?_
    · change slice key bl bl = slice aux'' bl bl
      rw [slice_self, slice_self]
    · rintro bl' kids' heq hlt'
      cases heq
      exact absurd hlt' (lt_irrefl bl)

variable (keep val) in
theorem insertSplits_le_one (h : WF fl lo L e) (h1 : 1 ≤ L) (hfit : ¬ SplitsLow lo L e key)
    (ha : Admits fl lo) (hV : fl = .set → ∀ v : V, v = default) (hfuel : 2 * L + 4 ≤ fuel) :
    insertSplits fl keep fuel e key val L ≤ 1 := by
  induction L using Nat.strong_induction_on generalizing e fuel with
  | _ L ih =>
    obtain ⟨f, rfl⟩ := Nat.exists_eq_add_of_le' (show 4 ≤ fuel by omega)
    cases e with
    | null =>
      by_cases hL : L = 8
      · subst hL
        have hb : BranchShape fl lo 8 (Branch.newL3 8 : Branch (Edge V)) :=
          branchShape_newL3 le_rfl (fun _ => rfl) (by decide) le_rfl
        rw [insertSplits, if_pos rfl, insertSplits_absent hb]
        · exact Nat.zero_le 1
        · exact (slice_self _ _).trans (slice_self _ _).symm
        · rfl
        · rintro bl kids heq
          cases heq
      · rw [insertSplits, if_neg hL]
        exact Nat.zero_le 1
    | immed kb cols => exact Nat.zero_le 1
    | fullExpanse aux => exact Nat.zero_le 1
    | leafB1 aux node =>
      by_cases hg : slice key 1 L = slice aux 1 L
      · rw [← Aux.decode_guard h1] at hg
        rw [insertSplits, hg]
        exact Nat.zero_le 1
      · have hsplit := insertSplits_split keep (f + 3) val h h1 hg trivial
        rw [← Aux.decode_guard h1, Bool.not_eq_false] at hg
        rw [insertSplits, hg, if_pos rfl]
        exact (congrArg (1 + ·) hsplit).le
    | leaf kb aux cols =>
      have hs := h.1
      rw [Shape] at hs
      obtain ⟨hk1, hkl, h7, hp, -, hcap, hpop, -⟩ := hs
      by_cases hg : slice key kb L = slice aux kb L
      · by_cases hroom : low key kb ∈ cols.keys ∨ cols.size < leafCap kb ∨ kb = 1
        · rw [insertSplits_leaf_eq_zero h.1 hg hroom]
          exact Nat.zero_le 1
        · push Not at hroom
          obtain ⟨hn, hge, hne⟩ := hroom
          rw [insertSplits_leaf h.1 hg, locate_of_not_mem hn]
          simp only [if_neg (show ¬ cols.size < leafCap kb by omega)]
          rw [overflowSplits_eq_zero h.1 (by omega) hg hn (by omega) ha hV (show L ≤ f by omega)]
          exact Nat.zero_le 1
      · have hfit' : leafFits lo (splitLevel aux key L - 1) (leaf kb aux cols) := by
          rw [SplitsLow] at hfit
          push Not at hfit
          exact hfit L kb aux cols terminal_leaf hg
        have hsplit := insertSplits_split keep (f + 3) val h hkl hg hfit'
        rw [← Aux.decode_guard hkl, Bool.not_eq_false] at hg
        rw [insertSplits]
        simp only [hg, if_true]
        exact (congrArg (1 + ·) hsplit).le
    | branch aux node =>
      have hb := shape_branch.mp h.1
      have h2 := hb.two_le
      have hl := hb.le
      by_cases hg : slice key (node.level L) L = slice aux (node.level L) L
      · cases hfind : node.find (digit key (node.level L)) with
        | some c =>
          have hs : branchStep aux node key L = .descend node (digit key (node.level L)) := by
            rw [branchStep_match hb hg, hfind]
          rw [insertSplits]
          simp only [hs]
          refine ih _ (by omega) (hb.child _) (by omega) ?_ (by omega)
          rw [SplitsLow, ← terminal_branch hb hg]
          exact hfit
        | none =>
          by_cases hfull : ∀ bl kids, node = .bitmap bl kids → bl < L →
              Bitmap.count kids.bits < BRANCHB_UP
          · rw [insertSplits_absent hb hg hfind hfull]
            exact Nat.zero_le 1
          -- a full bitmap node that skips is wrapped one level up
          · push Not at hfull
            obtain ⟨bl, kids, rfl, hlt, hcount⟩ := hfull
            have hs : branchStep aux (.bitmap bl kids) key L = .retry
                (wrapSkipLevel (branch aux (.bitmap bl kids)) (bl + 1) L (Aux.pop0 aux bl + 1)) := by
              rw [branchStep_match hb hg, hfind]
              simp only [openSlot]
              rw [if_pos (by omega), if_pos hlt]
            rw [insertSplits]
            simp only [hs, insertSplits_wrap h hlt hg hfind]
            split <;> omega
      · have hsplit := insertSplits_split keep (f + 3) val h hl hg trivial
        rw [insertSplits]
        simp only [branchStep_mismatch hb hg]
        change _ + insertSplits fl keep (f + 3) (splitSkip (branch aux node) key L
          (Aux.pop0 (branch aux node).aux ((branch aux node).ownLevel L) + 1)) key val L ≤ 1
        rw [hsplit]
        split <;> omega

end Expanse.Edge
