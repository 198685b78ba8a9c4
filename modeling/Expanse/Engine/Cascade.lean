import Expanse.Engine.Overflow

/-!
# The cascade of an overflowing leaf

The keys of the leaf go one by one into a fresh branch, through the same insert
path as every key. The children of that branch are the forms such a run builds:
small groups stay immediates, larger ones are leaves of the slot's own width, and
only a byte-wide group can promote. So no insert of the run overflows again, and
the path it leaves belongs to the group of the last key.
-/

namespace Expanse.Edge

open Radix SortedAssoc

variable {V : Type} [Inhabited V] {fl : Flavour} {lo : ℕ → ℕ → ℕ} {L l fuel key kb aux : ℕ}
  {keep : Bool} {val : V} {c : Edge V}

/-- The forms a run of inserts into a null slot at level `l` builds. -/
def Fresh (fl : Flavour) (l : ℕ) : Edge V → Prop
  | null => True
  | immed _ _ => True
  | leaf kb _ cols => kb = l ∧ fl.immedMax l < cols.size
  | leafB1 _ node => l = 1 ∧ LEAF1_CAP < Bitmap.count node.bits
  | fullExpanse _ => l = 1
  | branch _ _ => False

/-- A path is armed only once the group has outgrown an immediate and then taken another key. -/
def ArmedLate (fl : Flavour) (l : ℕ) (r : Inserted V) : Prop :=
  ∀ w, r.path = some w → l = 1 ∧ fl.immedMax 1 + 2 ≤ (entries l r.edge).length ∧
    (fl = .map → (entries l r.edge).length ≠ LEAF1_CAP + 1)

theorem fresh_immed {cols : Columns V} {r : Inserted V} (hs : Shape fl lo l (immed kb cols))
    (hr : insertFlat fl keep (fuel + 1) (immed kb cols) key val l = .ok r) :
    Fresh fl l r.edge ∧ r.path = none := by
  rw [Shape] at hs
  obtain ⟨rfl, -, -, -, -, hmax⟩ := hs
  rw [insertFlat] at hr
  cases hl : locate cols.keys (low key kb) with
  | ok pos =>
    simp only [hl, Except.ok.injEq] at hr
    subst hr
    refine ⟨?_, rfl⟩
    cases keep <;> trivial
  | error pos =>
    simp only [hl] at hr
    split_ifs at hr with hlt
    · cases hr
      exact ⟨trivial, rfl⟩
    · cases hr
      refine ⟨⟨rfl, ?_⟩, rfl⟩
      have hpos : pos ≤ cols.size := by
        unfold locate at hl
        split_ifs at hl
        cases hl
        exact lowerBound_le _ _
      rw [Columns.size, Columns.insertAt, List.length_insertIdx_of_le_length hpos]
      change _ < cols.size + 1
      omega

theorem fresh_leafB1 {node : Ranked V} {r : Inserted V} (hs : Shape fl lo 1 (leafB1 aux node))
    (hf : LEAF1_CAP < Bitmap.count node.bits) (hsp : InsertSpec fl lo keep 1 (leafB1 aux node) key val r)
    (hr : insertFlat fl keep (fuel + 1) (leafB1 aux node) key val 1 = .ok r) :
    Fresh fl 1 r.edge ∧ ArmedLate fl 1 r := by
  have hlen := hsp.content.length hs.sorted hsp.shape.sorted
  have hpop := pop0_add_one (show WF fl lo 1 (leafB1 aux node) from ⟨hs, trivial⟩) rfl
    (show 1 ≤ 7 by omega)
  rw [Shape] at hs
  obtain ⟨-, -, hok, -, hp⟩ := hs
  change Aux.pop0 aux 1 + 1 = _ at hpop
  have him : fl.immedMax 1 ≤ 15 := by cases fl <;> decide
  simp only [LEAF1_CAP] at hf
  rw [insertFlat] at hr
  simp only [lt_irrefl, decide_false, Bool.false_and, Bool.false_eq_true, if_false] at hr
  cases hg : node.get (digit key 1) with
  | some old =>
    simp only [hg, Except.ok.injEq] at hr
    subst hr
    refine ⟨?_, by simp [ArmedLate]⟩
    cases keep
    · exact ⟨rfl, hf⟩
    · exact ⟨rfl, hf⟩
  | none =>
    simp only [hg] at hr
    split_ifs at hr with hfull
    · cases hr
      exact ⟨rfl, by simp [ArmedLate]⟩
    · cases hr
      have hb : node.bits.testBit (digit key 1) = false := by
        rw [← Bool.not_eq_true, ← Ranked.get_isSome hok, hg]
        simp
      have hcount : Bitmap.count (node.insert (digit key 1) val).bits =
          Bitmap.count node.bits + 1 := Bitmap.count_set hb (digit_lt key 1)
      refine ⟨⟨rfl, by simp only [LEAF1_CAP]; omega⟩, ?_⟩
      intro w _
      have hge : 27 ≤ (entries 1 (leafB1 (Aux.setPop0 aux 1 (Aux.pop0 aux 1 + 2 - 1))
          (node.insert (digit key 1) val))).length := by
        have hkey : ¬ low key 1 ∈ (entries 1 (leafB1 aux node)).map Prod.fst := by
          intro hm
          obtain ⟨⟨k, v⟩, hm, rfl⟩ := List.mem_map.mp hm
          cases (hsp.old v).mpr hm
        rw [if_neg hkey] at hlen
        dsimp only at hlen
        omega
      refine ⟨rfl, ?_, ?_⟩
      · dsimp only
        omega
      · simp only [LEAF1_CAP]
        omega

variable (key keep val) in
/-- One insert of the run: the contract, and again a form the run builds. -/
theorem fresh_step (hw : WF fl lo l c) (hf : Fresh fl l c) (hsmall : (entries l c).length ≤ 31)
    (h1 : 1 ≤ l) (h7 : l ≤ 7) (ha : Admits fl lo) (hV : fl = .set → ∀ v : V, v = default)
    (hfuel : l ≤ fuel) :
    ∃ r, insertFlat fl keep (fuel + 1) c key val l = .ok r ∧
      InsertSpec fl lo keep l c key val r ∧ Fresh fl l r.edge ∧ ArmedLate fl l r := by
  cases c with
  | null =>
    obtain ⟨r, hr, hs⟩ := insert_null fl lo fuel key keep val h1 h7
    refine ⟨r, hr, hs, ?_⟩
    rw [insertFlat] at hr
    simp only [if_neg (show ¬ l = 8 by omega), Except.ok.injEq] at hr
    subst hr
    exact ⟨trivial, by simp [ArmedLate]⟩
  | immed kb cols =>
    obtain ⟨r, hr, hs⟩ := insert_immed fuel key keep val hw.1 ha
    obtain ⟨hfr, hp⟩ := fresh_immed hw.1 hr
    refine ⟨r, hr, hs, hfr, ?_⟩
    intro w hw'
    rw [hp] at hw'
    cases hw'
  | fullExpanse aux =>
    have hs := hw.1
    rw [Shape] at hs
    obtain ⟨rfl, rfl, -⟩ := hs
    rw [entries, List.length_map, List.length_range] at hsmall
    omega
  | branch aux node => exact hf.elim
  | leafB1 aux node =>
    obtain ⟨rfl, hcount⟩ := hf
    obtain ⟨r, hr, hs⟩ := insert_leafB1 fuel keep val hw.1
      (show slice key 1 1 = slice aux 1 1 by rw [slice_self, slice_self]) hV
    exact ⟨r, hr, hs, fresh_leafB1 hw.1 hcount hs hr⟩
  | leaf kb aux cols =>
    obtain ⟨rfl, hsize⟩ := hf
    have hs := hw.1
    rw [Shape] at hs
    obtain ⟨-, -, -, hp, -, hcap, -⟩ := hs
    have hg : slice key kb kb = slice aux kb kb := by rw [slice_self, slice_self]
    rw [entries, length_shift, Columns.length_entries] at hsmall
    by_cases hroom : low key kb ∈ cols.keys ∨ cols.size < leafCap kb
    · obtain ⟨r, hr, hsp⟩ := insert_leaf fuel keep val hw.1 hg hroom
      refine ⟨r, hr, hsp, ?_⟩
      rw [insertFlat_leaf hw.1 hg] at hr
      by_cases hk : low key kb ∈ cols.keys
      · rw [locate_of_mem hp.sorted hk] at hr
        simp only [Except.ok.injEq] at hr
        subst hr
        refine ⟨?_, by simp [ArmedLate]⟩
        cases keep
        · exact ⟨rfl, hsize⟩
        · exact ⟨rfl, hsize⟩
      · have hlt := hroom.resolve_left hk
        rw [locate_of_not_mem hk] at hr
        simp only [if_pos hlt, Except.ok.injEq] at hr
        subst hr
        have hsz := Columns.size_insertAt (c := cols) (k := low key kb) val
        refine ⟨⟨rfl, by omega⟩, ?_⟩
        intro w hw'
        by_cases hk1 : kb = 1
        · subst hk1
          have hcap1 : leafCap 1 = 25 := rfl
          rw [entries, length_shift, Columns.length_entries, hsz]
          refine ⟨rfl, by omega, ?_⟩
          simp only [LEAF1_CAP]
          omega
        · simp [hk1] at hw'
    -- only a byte-wide group can be full here
    · push Not at hroom
      obtain ⟨hk, hfull⟩ := hroom
      have hk1 : kb = 1 := by
        by_contra hne
        have : leafCap kb = 32 := if_neg hne
        omega
      subst hk1
      obtain ⟨aux', node, slot, path, hr, hpath, hsp⟩ := insert_leaf1_overflow keep val
        hw.1 hg hk (by omega) hfuel (fun _ => slice_self _ _)
      have hcap1 : leafCap 1 = 25 := rfl
      have hlen := hsp.content.length hw.1.sorted hsp.shape.sorted
      have hkey : ¬ low key 1 ∈ (entries 1 (leaf 1 aux cols)).map Prod.fst := by
        intro hm
        obtain ⟨⟨k, v⟩, hm, rfl⟩ := List.mem_map.mp hm
        cases (hsp.old v).mpr hm
      have hleaf : (entries 1 (leaf 1 aux cols)).length = cols.size := by
        rw [entries, length_shift, Columns.length_entries]
      rw [if_neg hkey, hleaf] at hlen
      dsimp only at hlen
      have hpop := pop0_add_one (show WF fl lo 1 (leafB1 aux' node) from ⟨hsp.shape, trivial⟩) rfl
        (show 1 ≤ 7 by omega)
      have hsh := hsp.shape
      rw [Shape] at hsh
      change Aux.pop0 aux' 1 + 1 = _ at hpop
      have him : fl.immedMax 1 ≤ 15 := by cases fl <;> decide
      refine ⟨_, hr, hsp, ⟨rfl, ?_⟩, ?_⟩
      · simp only [LEAF1_CAP]
        omega
      · intro w hw'
        refine ⟨rfl, by simp only; omega, ?_⟩
        intro hm
        rw [hpath hm] at hw'
        cases hw'

theorem BranchShape.filter_digit {node : Branch (Edge V)} (h : BranchShape fl lo L node) (aux : ℕ)
    {x : ℕ} (hx : x < 256) :
    (entries L (branch aux node)).filter (fun e => digit e.1 (node.level L) = x) =
      shift (slice aux (node.level L) L * 256 ^ node.level L + x * 256 ^ (node.level L - 1))
        (entries (node.level L - 1) (node.child x)) := by
  have h2 := h.two_le
  have hc := h.child x
  apply KeySorted.ext ((shape_branch.mpr h).sorted.sublist List.filter_sublist)
    (keySorted_shift hc.1.sorted)
  intro k v
  rw [List.mem_filter, mem_entries_branch h, mem_shift]
  constructor
  · rintro ⟨⟨hk, hsl, hm⟩, hd⟩
    rw [decide_eq_true_eq] at hd
    rw [hd] at hm
    refine ⟨_, hm, ?_⟩
    rw [← hsl, ← hd, ← low_eq_split (by omega) h.le, low_of_lt hk]
  · rintro ⟨y, hy, rfl⟩
    have hyb := hc.1.bound hy
    have hb := mul_add_lt h.le (slice_lt aux (node.level L) L)
      (mul_add_lt (Nat.sub_le (node.level L) 1) (x := x)
        (by rw [show node.level L - (node.level L - 1) = 1 by omega]; simpa using hx) hyb)
    rw [← Nat.add_assoc] at hb
    obtain ⟨hsl, hd, hlo⟩ := (eq_compose_iff (by omega) h.le hb hx hyb).mp rfl
    refine ⟨⟨hb, hsl, ?_⟩, by simpa using hd⟩
    rw [hd, hlo]
    exact hy

/-- The state of the run after the keys `done`: a branch at level `d` over the shared bytes `P`. -/
structure Cascading (fl : Flavour) (lo : ℕ → ℕ → ℕ) (L d P : ℕ) (done : List (ℕ × V)) (aux : ℕ)
    (node : Branch (Edge V)) (path : Option InsertPath) : Prop where
  shape : BranchShape fl lo L node
  level : node.level L = d
  skip : slice aux d L = P
  fresh : ∀ x, Fresh fl (d - 1) (node.child x)
  content : entries L (branch aux node) = done
  path : ∀ w, path = some w → w.pendingPop = 0 ∧ d = 2 ∧ fl.immedMax 1 + 2 ≤ lastGroup done ∧
    (fl = .map → lastGroup done ≠ LEAF1_CAP + 1) ∧
    ∃ t, resolve L (branch aux node) w.route = some (w.keyPrefix, t) ∧
      warmPop w.leaf t = some w.terminalPop

section Run

variable {d P : ℕ} {done : List (ℕ × V)} {node : Branch (Edge V)} {path : Option InsertPath}
  {k : ℕ} {v : V}

theorem lastGroup_eq (h : BranchShape fl lo L node) (h2 : node.level L = 2)
    (hc : entries L (branch aux node) = done ++ [(k, v)]) :
    lastGroup (done ++ [(k, v)]) = (entries 1 (node.child (digit k 2))).length := by
  have hf := congrArg List.length (h.filter_digit aux (digit_lt k 2))
  rw [length_shift, h2] at hf
  rw [lastGroup, lastKey_concat, ← hf, hc]
  congr 1
  apply List.filter_congr
  rintro ⟨x, w⟩ hx
  rw [← hc] at hx
  have hk : (k, v) ∈ entries L (branch aux node) := by simp [hc]
  obtain ⟨hxb, hxs, -⟩ := (mem_entries_branch h).mp hx
  obtain ⟨hkb, hks, -⟩ := (mem_entries_branch h).mp hk
  have hle := h.le
  rw [h2] at hxs hks hle
  rw [slice_eq_div hle hxb] at hxs
  rw [slice_eq_div hle hkb] at hks
  have h256 : (256 : ℕ) ^ (2 - 1) = 256 := rfl
  rw [decide_eq_decide, digit, digit, h256]
  omega

variable (keep) in
theorem cascading_descend {opened : Branch (Edge V)} {x : ℕ}
    (h : Cascading fl lo L d P done aux node path)
    (hs : branchStep aux node k L = .descend opened x) (hk : k < 256 ^ L)
    (hlt : ∀ e ∈ done, e.1 < k) (hsort : KeySorted done)
    (hsmall : (entries (d - 1) (node.child (digit k d))).length ≤ 31)
    (ha : Admits fl lo) (hV : fl = .set → ∀ v : V, v = default) (hfuel : d ≤ fuel) :
    ∃ r aux' node', insertFlat fl keep (fuel + 2) (branch aux node) k v L = .ok r ∧
      r.edge = branch aux' node' ∧
      Cascading fl lo L d P (done ++ [(k, v)]) aux' node' r.path := by
  have hb := h.shape
  obtain ⟨hg, hx, ho⟩ := branchStep_descend hb hs
  have h2 := hb.two_le
  have hle := hb.le
  have h8 := hb.le_eight
  have hlev := h.level
  rw [hlev] at h2 hle hx hg
  have hcw := hb.child x
  rw [hlev] at hcw
  obtain ⟨r, hr, hsp, hfr, hlate⟩ := fresh_step k keep v hcw (h.fresh x)
    (by rw [hx]; exact hsmall) (by omega) (by omega) ha hV (show d - 1 ≤ fuel by omega)
  obtain ⟨r', hr', hsp', hedge, hold, hpath⟩ := insert_descend hb hs
    (by rw [hlev]; exact hr) (by rw [hlev]; exact hsp)
  have hst := hsp'.shape
  rw [hedge, shape_branch] at hst
  have hlev' : (opened.setChild x r.edge).level L = d := by
    rw [Branch.level_setChild, ho.level, hlev]
  -- the key is new, so the entries grow at their end
  have hnew : r'.old = none := by
    cases hro : r'.old with
    | none => rfl
    | some w =>
      have := (hsp'.old w).mp hro
      rw [h.content, low_of_lt hk] at this
      exact absurd (hlt _ this) (lt_irrefl _)
  have hcontent : entries L r'.edge = done ++ [(k, v)] := by
    apply hsp'.shape.sorted.ext
    · rw [KeySorted, List.pairwise_append]
      exact ⟨hsort, by simp, fun e he f hf => by rw [List.mem_singleton.mp hf]; exact hlt e he⟩
    · intro y w
      rw [hsp'.content y w, hnew, stored_none, low_of_lt hk, h.content]
      simp only [List.mem_append, List.mem_singleton, Prod.mk.injEq]
      constructor
      · rintro (hy | ⟨-, hy⟩)
        · exact .inr hy
        · exact .inl hy
      · rintro (hy | hy)
        · exact .inr ⟨(hlt _ hy).ne, hy⟩
        · exact .inl hy
  refine ⟨r', _, _, hr', hedge, hst, hlev', ?_, ?_, ?_, ?_⟩
  · rw [← h.skip]
    split
    · exact Aux.slice_incPop0 hlev.le
    · rfl
  · intro y
    rw [child_store ho]
    split_ifs
    · exact hfr
    · exact h.fresh y
  · rw [← hedge]
    exact hcontent
  · intro w hw
    obtain ⟨hpend, u, t, hres, hpop, hpre⟩ := hsp'.path w hw
    rw [hpath] at hw
    obtain ⟨w', hw', -⟩ := Option.map_eq_some_iff.mp hw
    obtain ⟨hd1, hmin, hne⟩ := hlate w' hw'
    have hd2 : d = 2 := by omega
    rw [hd1] at hmin hne
    have hgroup : lastGroup (done ++ [(k, v)]) = (entries 1 r.edge).length := by
      rw [lastGroup_eq hst (hlev'.trans hd2) (hedge ▸ hcontent), child_store ho,
        if_pos (by rw [hx, hd2])]
    refine ⟨hpend, hd2, ?_, ?_, t, ?_, hpop⟩
    · rw [hgroup]
      exact hmin
    · rw [hgroup]
      exact hne
    · rw [← hedge, hres]
      rcases hpre with ⟨hu, hkp⟩ | ⟨M, ⟨kb, a, cols, hterm, -, -, hfull, -⟩, -⟩
      · rw [hu, hkp, low_of_lt hk]
      -- the child has fewer keys than a leaf that overflows
      · exfalso
        rw [terminal_branch hb (by rw [hlev]; exact hg), hlev] at hterm
        have hcf := h.fresh (digit k d)
        cases hc : node.child (digit k d) with
        | branch a' n' =>
          rw [hc] at hcf
          exact hcf
        | leaf kb' a' cols' =>
          rw [hc, terminal_leaf] at hterm
          cases hterm
          rw [hc, entries, length_shift, Columns.length_entries, hfull] at hsmall
          exact absurd hsmall (by decide)
        | _ =>
          rw [hc] at hterm
          simp [terminal] at hterm

variable (keep) in
theorem cascading_step (h : Cascading fl lo L d P done aux node path) (hk : k < 256 ^ L)
    (hP : slice k d L = P) (hlt : ∀ e ∈ done, e.1 < k) (hsort : KeySorted done)
    (hlen : done.length ≤ 32)
    (hsmall : (entries (d - 1) (node.child (digit k d))).length ≤ 31)
    (ha : Admits fl lo) (hV : fl = .set → ∀ v : V, v = default) (hfuel : d ≤ fuel) :
    ∃ r aux' node', insertFlat fl keep (fuel + 3) (branch aux node) k v L = .ok r ∧
      r.edge = branch aux' node' ∧
      Cascading fl lo L d P (done ++ [(k, v)]) aux' node' r.path := by
  cases hs : branchStep aux node k L with
  | descend opened x =>
    exact cascading_descend keep h hs hk hlt hsort hsmall ha hV (by omega)
  | retry e' =>
    have hb := h.shape
    have hg : slice k (node.level L) L = slice aux (node.level L) L := by
      rw [h.level, hP, h.skip]
    have hcount := hb.count_le_length aux
    rw [h.content] at hcount
    have hstep := hs
    rw [branchStep_match hb hg] at hs
    split at hs
    · cases hs
    · next hnone =>
      obtain ⟨node2, rfl, hr, opened, x, hd⟩ := openSlot_retry hb hg hnone hs (by
        rintro bl kids rfl -
        exact lt_of_le_of_lt (hcount.trans hlen) (by decide))
      have h' : Cascading fl lo L d P done aux node2 none :=
        { shape := hr.shape
          level := hr.level.trans h.level
          skip := h.skip
          fresh := fun y => by rw [hr.child]; exact h.fresh y
          content := (hr.entries hb aux).trans h.content
          path := by simp }
      obtain ⟨r, aux', node', hins, hrest⟩ := cascading_descend keep (v := v) h' hd hk hlt
        hsort (by rw [hr.child]; exact hsmall) ha hV hfuel
      refine ⟨r, aux', node', ?_, hrest⟩
      rw [insertFlat]
      simp only [hstep]
      exact hins

omit [Inhabited V] in
/-- Keys that part at level `d` leave room in every group until the last key comes. -/
theorem group_small {rest : List (ℕ × V)} (hlen : (done ++ (k, v) :: rest).length ≤ 33)
    (hends : digit (firstKey (done ++ (k, v) :: rest)) d ≠
      digit (lastKey (done ++ (k, v) :: rest)) d) :
    (done.filter fun e => digit e.1 d = digit k d).length ≤ 31 := by
  have hle := List.length_filter_le (fun e : ℕ × V => decide (digit e.1 d = digit k d)) done
  simp only [List.length_append, List.length_cons] at hlen
  cases rest with
  | cons r rs =>
    simp only [List.length_cons] at hlen
    omega
  | nil =>
    rw [lastKey_concat] at hends
    cases done with
    | nil => exact absurd rfl hends
    | cons e es =>
      rw [List.cons_append, firstKey_cons] at hends
      have := List.length_filter_le (fun e : ℕ × V => decide (digit e.1 d = digit k d)) es
      rw [List.filter_cons_of_neg (by simpa using hends)]
      simp only [List.length_cons, List.length_nil] at hlen
      omega

theorem Cascading.child_small {rest : List (ℕ × V)} (h : Cascading fl lo L d P done aux node path)
    (hlen : (done ++ (k, v) :: rest).length ≤ 33)
    (hends : digit (firstKey (done ++ (k, v) :: rest)) d ≠
      digit (lastKey (done ++ (k, v) :: rest)) d) :
    (entries (d - 1) (node.child (digit k d))).length ≤ 31 := by
  have hf := congrArg List.length (h.shape.filter_digit aux (digit_lt k d))
  rw [length_shift, h.level, h.content] at hf
  rw [← hf]
  exact group_small hlen hends

variable (keep) in
theorem cascading_run {all rest : List (ℕ × V)} (h : Cascading fl lo L d P done aux node path)
    (hall : all = done ++ rest) (hsort : KeySorted all) (hlen : all.length ≤ 33)
    (hkeys : ∀ k v, (k, v) ∈ all → k < 256 ^ L ∧ slice k d L = P)
    (hends : digit (firstKey all) d ≠ digit (lastKey all) d)
    (ha : Admits fl lo) (hV : fl = .set → ∀ v : V, v = default) (hfuel : d ≤ fuel) :
    ∃ aux' node' path', insertAll (fun e k v => insertFlat fl keep (fuel + 3) e k v L)
        (branch aux node) path rest = .ok (branch aux' node', path') ∧
      Cascading fl lo L d P all aux' node' path' := by
  induction rest generalizing done aux node path with
  | nil =>
    rw [List.append_nil] at hall
    subst hall
    exact ⟨aux, node, path, rfl, h⟩
  | cons e rest ih =>
    obtain ⟨k, v⟩ := e
    subst hall
    obtain ⟨hk, hP⟩ := hkeys k v (by simp)
    obtain ⟨hsd, -, hcross⟩ := List.pairwise_append.mp hsort
    have hsmall := h.child_small hlen hends
    have hdl : done.length ≤ 32 := by
      simp only [List.length_append, List.length_cons] at hlen
      omega
    obtain ⟨r, aux', node', hins, hedge, hc⟩ := cascading_step keep (v := v) h hk hP
      (fun e he => hcross e he (k, v) (by simp)) hsd hdl hsmall ha hV hfuel
    rw [insertAll]
    simp only [hins, hedge]
    exact ih hc (by simp)

end Run

theorem branchShape_newL3 {d : ℕ} (h8 : L ≤ 8) (htop : L = 8 → d = 8) (h2 : 2 ≤ d) (hd : d ≤ L) :
    BranchShape fl lo L (Branch.newL3 d : Branch (Edge V)) where
  le_eight := h8
  top := htop
  ok := ⟨rfl, List.Pairwise.nil, by simp [BranchHeader.new], by simp [BranchHeader.new],
    Nat.zero_le _⟩
  filled := by
    intro _ x c hf
    simp [Branch.newL3, Branch.find, BranchHeader.new, indexOf?] at hf
  range := trivial
  two_le := h2
  le := hd
  kids := by
    intro x c hf
    simp [Branch.newL3, Branch.find, BranchHeader.new, indexOf?] at hf

omit [Inhabited V] in
theorem child_newL3 (d x : ℕ) : (Branch.newL3 d : Branch (Edge V)).child x = null := by
  simp [Branch.child, Branch.newL3, Branch.find, BranchHeader.new, indexOf?]

theorem entries_newL3 {d : ℕ} (h1 : 1 ≤ d) (hd : d ≤ L) :
    entries L (branch aux (Branch.newL3 d : Branch (Edge V))) = [] := by
  rw [entries, dif_pos ⟨h1, hd⟩]
  rfl

omit [Inhabited V] in
theorem resolve_aux {node : Branch (Edge V)} {aux' u : ℕ} {t : Edge V} {route : List ℕ} (h2 : 2 ≤ L)
    (h : slice aux' (node.level L) L = slice aux (node.level L) L)
    (hr : resolve L (branch aux node) route = some (u, t)) :
    resolve L (branch aux' node) route = some (u, t) := by
  cases route with
  | nil => simp [resolve, show L ≠ 1 by omega] at hr
  | cons x xs =>
    rw [resolve] at hr ⊢
    rw [h]
    exact hr

variable (val) in
/-- The run starts at an empty branch at the level where the first and the last key part. -/
theorem cascading_start {cols : Columns V} (h : Shape fl lo L (leaf kb aux cols)) (h2 : 2 ≤ kb)
    (hg : slice key kb L = slice aux kb L) (hn : low key kb ∉ cols.keys)
    (hfull : cols.size = leafCap kb) {E : List (ℕ × V)} (hE : E = overflowEntries kb aux L key val cols)
    {d : ℕ} (hdd : d = divergenceLevel (firstKey E) (lastKey E) L) (hd : d ≠ 1) :
    2 ≤ d ∧ d ≤ L ∧ KeySorted E ∧ E.length = 33 ∧
      digit (firstKey E) d ≠ digit (lastKey E) d ∧
      (∀ k v, (k, v) ∈ E → k < 256 ^ L ∧ slice k d L = slice (firstKey E) d L) ∧
      Cascading fl lo L d (slice (firstKey E) d L) ([] : List (ℕ × V))
        (if d < L then Aux.writeDecode 0 d L (firstKey E) else 0) (Branch.newL3 d) none := by
  obtain ⟨hsort, hmem, hlen, -⟩ := overflowEntries_spec val h hg hn
  rw [← hE] at hsort hmem hlen
  have hs := h
  rw [Shape] at hs
  obtain ⟨-, hkl, h7, -⟩ := hs
  have hcap : leafCap kb = 32 := if_neg (by omega)
  have hbound : ∀ k ∈ E.map Prod.fst, k < 256 ^ L := by
    intro k hk
    obtain ⟨⟨k, v⟩, hm, rfl⟩ := List.mem_map.mp hk
    exact (hmem k v hm).1
  have hne : E ≠ [] := List.ne_nil_of_length_pos (by omega)
  have hfirst := hbound _ (firstKey_mem hne)
  have hne' : firstKey E ≠ lastKey E := by
    intro heq
    have hone : E.length ≤ 1 := hsort.length_le_of_mem_Ico (a := firstKey E) fun k hk => by
      have h1 := firstKey_le hsort hk
      have h2 := le_lastKey hsort hk
      omega
    omega
  obtain ⟨hd1, hdL, hup, hdig⟩ := divergenceLevel_spec hfirst (hbound _ (lastKey_mem hne)) hne'
  rw [← hdd] at hd1 hdL hup hdig
  refine ⟨by omega, hdL, hsort, by omega, hdig, ?_, ?_⟩
  · intro k v hm
    have hk := List.mem_map_of_mem (f := Prod.fst) hm
    refine ⟨hbound _ hk, ?_⟩
    rw [slice_eq_div hdL (hbound _ hk), slice_eq_div hdL hfirst]
    exact div_eq_of_ends hsort hk hup
  · exact
      { shape := branchShape_newL3 (by omega) (by omega) (by omega) hdL
        level := rfl
        skip := by
          split_ifs with hlt
          · rw [Aux.writeDecode, slice_setSlice hdL, Nat.mod_eq_of_lt (slice_lt _ _ _)]
          · have : d = L := by omega
            rw [this, slice_self, slice_self]
        fresh := fun x => by rw [child_newL3]; trivial
        content := entries_newL3 hd1 hdL
        path := by simp }

/-- A full wide leaf whose keys part above the last byte becomes a branch. -/
theorem insert_leaf_cascade {cols : Columns V} (h : Shape fl lo L (leaf kb aux cols)) (h2 : 2 ≤ kb)
    (hg : slice key kb L = slice aux kb L) (hn : low key kb ∉ cols.keys)
    (hfull : cols.size = leafCap kb) (hfuel : L ≤ fuel)
    (hd : divergenceLevel (firstKey (overflowEntries kb aux L key val cols))
      (lastKey (overflowEntries kb aux L key val cols)) L ≠ 1)
    (ha : Admits fl lo) (hV : fl = .set → ∀ v : V, v = default) :
    ∃ r, insertFlat fl keep (fuel + 4) (leaf kb aux cols) key val L = .ok r ∧
      InsertSpec fl lo keep L (leaf kb aux cols) key val r := by
  obtain ⟨hd2, hdL, hsort, hlen, hdig, hkeys, hstart⟩ :=
    cascading_start val h h2 hg hn hfull rfl rfl hd
  have hcap : leafCap kb = 32 := if_neg (by omega)
  set E := overflowEntries kb aux L key val cols with hE
  set d := divergenceLevel (firstKey E) (lastKey E) L with hdd
  set aux0 := if d < L then Aux.writeDecode 0 d L (firstKey E) else 0 with haux0
  obtain ⟨aux', node', path', hrun, hc⟩ := cascading_run keep hstart
    (List.nil_append E).symm hsort (by omega) hkeys hdig ha hV (show d ≤ fuel by omega)
  have hpow : E.length - 1 < 256 ^ d := small_lt_pow (by omega) (by omega)
  have hslice : slice (Aux.setPop0 aux' d (E.length - 1)) (node'.level L) L =
      slice aux' (node'.level L) L := Aux.slice_setPop0 hc.level.ge
  have hent : entries L (branch (Aux.setPop0 aux' d (E.length - 1)) node') = E := by
    rw [entries_branch_aux hslice, hc.content]
  have ho : leafOverflow fl (fun e k v => insertFlat fl keep (fuel + 3) e k v L) kb aux
      (cols.insertAt (lowerBound cols.keys (low key kb)) (low key kb) val) key L =
        .ok (branch (Aux.setPop0 aux' d (E.length - 1)) node', path') := by
    unfold leafOverflow
    simp only
    rw [← overflowEntries, ← hE, if_neg (by omega), if_neg (by omega)]
    rw [← firstKey, ← lastKey, ← hdd, if_neg hd]
    simp only [← haux0, hrun]
  have hexact : Exact L (branch (Aux.setPop0 aux' d (E.length - 1)) node') := by
    intro _
    rw [hent, hc.level, Aux.pop0_setPop0 hpow]
    omega
  have harmed : ∀ w, path' = some w → Armed fl L (leaf kb aux cols) key val
      (branch (Aux.setPop0 aux' d (E.length - 1)) node') w := by
    intro w hw
    obtain ⟨hpend, hd2', hmin, hne26, t, hres, hpop⟩ := hc.path w hw
    refine ⟨hpend, w.keyPrefix, t, resolve_aux (by omega) hslice hres, hpop, .inr ⟨L, ?_, ?_⟩⟩
    · exact ⟨kb, aux, cols, terminal_leaf, h2, hg, hfull.trans hcap, hn, hd2', hmin, hne26⟩
    · rw [slice_self, Nat.zero_mul, Nat.zero_add]
  obtain ⟨slot, hins, hspec⟩ := insert_overflow h hg hn hfull (show L ≤ fuel + 3 by omega) ho
    ⟨shape_branch.mpr hc.shape, hexact⟩ (by simp) hent harmed
  exact ⟨_, hins, hspec⟩

end Expanse.Edge
