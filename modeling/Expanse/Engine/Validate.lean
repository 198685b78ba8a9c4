import Expanse.Engine.Content

/-!
# The structural validator

`walk` checks an edge in a slot at `level` and everything below it, and returns the
number of keys it has counted. It trusts no population field: the counts come from
the keys and the bitmaps, and every stored population is compared with them. The
first argument is what is left of the depth limit.

Pointers and their alignment are not part of the model, nor are the statistics the
source gathers on the way.
-/

namespace Expanse

namespace Edge

/-- `windows(2).all(|w| w[0] < w[1])`. -/
def ascending (l : List ℕ) : Bool := (l.zip l.tail).all fun w => decide (w.1 < w.2)

theorem ascending_of_pairwise {l : List ℕ} (h : l.Pairwise (· < ·)) : ascending l = true := by
  induction l with
  | nil => rfl
  | cons x xs ih =>
    cases xs with
    | nil => rfl
    | cons y ys =>
      obtain ⟨hx, hp⟩ := List.pairwise_cons.mp h
      have htail := ih hp
      unfold ascending at htail ⊢
      rw [List.tail_cons, List.zip_cons_cons, List.all_cons]
      simp only [List.tail_cons] at htail
      rw [htail, Bool.and_true]
      exact decide_eq_true (hx y (List.mem_cons_self ..))

section

variable {α : Type}

/-- Visit the items in order, with their positions, and add up what the visits count. -/
def tally (visit : ℕ → α → Except String ℕ) : ℕ → ℕ → List α → Except String ℕ
  | _, pop, [] => .ok pop
  | i, pop, a :: as =>
    match visit i a with
    | .ok n => tally visit (i + 1) (pop + n) as
    | .error e => .error e

theorem tally_eq {visit : ℕ → α → Except String ℕ} {f : α → ℕ} {l : List α}
    (h : ∀ i, ∀ a ∈ l, visit i a = .ok (f a)) (i pop : ℕ) :
    tally visit i pop l = .ok (pop + (l.map f).sum) := by
  induction l generalizing i pop with
  | nil => rfl
  | cons a as ih =>
    rw [tally, h i a (List.mem_cons_self ..)]
    simp only
    rw [ih fun j b hb => h j b (List.mem_cons_of_mem _ hb), List.map_cons, List.sum_cons,
      Nat.add_assoc]

end

variable {V : Type}

def visitKid (walk : Edge V → Except String ℕ) (holdsNull : String) (c : Edge V) :
    Except String ℕ :=
  if c.isNull then .error holdsNull else walk c

/-- One subexpanse of a bitmap branch: its rank cache, its subarray and its children. -/
def visitSub (walk : Edge V → Except String ℕ) (kids : Ranked (Edge V)) (sub : ℕ) :
    Except String ℕ :=
  let cached := (kids.sub sub).length
  let expected := (Bitmap.subDigits kids.bits sub).length
  if cached ≠ expected then
    .error s!"bitmap-branch rank cache {cached} disagrees with bitmap {expected}"
  else
    tally (fun i => visitKid walk s!"bitmap branch subarray {sub} index {i} holds a null child") 0 0
      (kids.sub sub)

/-- The children of a branch: population range of the form, order of the digits, no null child. -/
def walkBranch (walk : Edge V → Except String ℕ) : Branch (Edge V) → Except String ℕ
  | .linear form hdr edges =>
    let num := hdr.digits.length
    let cap := form.cap
    if num < 1 ∨ cap < num then .error s!"linear branch count {num} out of range (1..={cap})"
    else if ¬ ascending hdr.digits then .error "linear branch digits unsorted"
    else
      tally (fun _ => visitKid walk "linear branch holds a null child") 0 0 (edges.take num)
  | .bitmap _ kids =>
    let digits := Bitmap.count kids.bits
    if digits ≤ BRANCHB_TO_L7_DOWN then
      .error s!"bitmap branch population {digits} at or below demotion threshold {BRANCHB_TO_L7_DOWN}"
    else if BRANCHB_UP < digits then
      .error s!"bitmap branch population {digits} above uncompressed threshold {BRANCHB_UP}"
    else tally (fun _ => visitSub walk kids) 0 0 (List.range 8)
  | .uncompressed edges =>
    let digits := (Branch.uncompressed edges).count
    if digits ≤ BRANCHU_TO_B_DOWN then
      .error s!"uncompressed branch population {digits} at or below demotion threshold {BRANCHU_TO_B_DOWN}"
    else
      tally (fun _ c => if c.isNull then .ok 0 else walk c) 0 0 edges

def isUncompressed : Branch (Edge V) → Bool
  | .uncompressed _ => true
  | _ => false

/-- The checks on one edge in a slot at `level`; `walk` checks a child in its slot. -/
def walkEdge (fl : Flavour) (checkBranchPop0 : Bool) (walk : Edge V → ℕ → Except String ℕ)
    (e : Edge V) (level : ℕ) : Except String ℕ :=
  if ¬ (1 ≤ level ∧ level ≤ 8) then .error s!"level {level} out of range"
  else
    match e with
    | null => .ok 0
    | immed kb cols =>
      if kb ≠ level then .error s!"immediate key size {kb} must equal level {level}"
      else if fl = .map ∧ fl.immedMax kb < cols.size then
        .error "map immediate above aux capacity"
      else if ¬ ascending cols.keys then .error "immediate keys unsorted"
      else .ok cols.size
    | leaf kb aux cols =>
      let pop := Aux.pop0 aux kb + 1
      let cap := leafCap kb
      let floor := fl.immedMax level
      if level < kb then .error "leaf key size above its slot level"
      else if cap < pop then .error s!"linear leaf population {pop} above capacity {cap}"
      else if pop < floor then
        .error s!"leaf population {pop} below immediate hysteresis floor {floor}"
      else if ¬ ascending (cols.keys.take pop) then .error "leaf keys unsorted"
      else .ok pop
    | leafB1 aux node =>
      let count := Bitmap.count node.bits
      let pop := Aux.pop0 aux 1 + 1
      if fl = .map ∧ ¬ (List.range 8).all fun i =>
          (node.sub i).isEmpty == (Bitmap.subDigits node.bits i).isEmpty then
        .error "value subarray/bitmap disagreement in LeafBitmapL"
      else if pop ≠ count then
        .error s!"bitmap-leaf pop0 {pop} disagrees with bitmap count {count}"
      else if count < LEAFB1_DOWN then
        .error s!"bitmap leaf population {count} below hysteresis floor {LEAFB1_DOWN}"
      else .ok count
    | fullExpanse _ =>
      if fl = .map then .error "full-expanse edges are set-flavor only" else .ok (256 ^ level)
    | branch aux node =>
      let bl := node.level level
      if bl < 2 then .error "branch below level 2"
      else if level < bl then .error "branch form level above its slot level"
      else if level = 8 ∧ bl ≠ level then .error "level-8 slots cannot skip"
      else if isUncompressed node ∧ bl ≠ level then .error "uncompressed branches never skip"
      else
        match walkBranch (fun c => walk c (bl - 1)) node with
        | .error e => .error e
        | .ok pop =>
          let stored := Aux.pop0 aux bl + 1
          if checkBranchPop0 ∧ bl ≤ 7 ∧ stored ≠ pop then
            .error s!"branch pop0 disagrees with subtree: {stored} != {pop}"
          else .ok pop

/-- `walk`: the keys below an edge in a slot at `level`, once everything has been checked. -/
def walkValid (fl : Flavour) (checkBranchPop0 : Bool) : ℕ → Edge V → ℕ → Except String ℕ
  | 0 => fun _ _ => .error "depth limit exceeded (possible cycle)"
  | n + 1 => walkEdge fl checkBranchPop0 (walkValid fl checkBranchPop0 n)

/-- The population a linear leaf in a slot at level `L` must have for the validator. -/
def floor (fl : Flavour) (L _kb : ℕ) : ℕ := fl.immedMax L

section Kids

variable [Inhabited V] {walk : Edge V → Except String ℕ} {m : ℕ}

theorem visitKid_eq {c : Edge V} {holdsNull : String} (hn : c ≠ null)
    (hw : walk c = .ok (entries m c).length) :
    visitKid walk holdsNull c = .ok (entries m c).length := by
  have hnull : ¬ c.isNull = true := by
    intro h
    exact hn ((Nullable.isNull_iff c).mp h)
  rw [visitKid, if_neg hnull, hw]

theorem visitSub_eq {kids : Ranked (Edge V)} {sub : ℕ} (hok : kids.Ok) (hsub : sub < 8)
    (hk : ∀ c ∈ kids.sub sub, c ≠ null ∧ walk c = .ok (entries m c).length) :
    visitSub walk kids sub = .ok ((kids.sub sub).map fun c => (entries m c).length).sum := by
  unfold visitSub
  simp only
  rw [if_neg (not_not.mpr (hok.fit sub hsub))]
  refine (tally_eq (f := fun c => (entries m c).length) (fun i c hc => ?_) 0 0).trans ?_
  · exact visitKid_eq (hk c hc).1 (hk c hc).2
  · rw [Nat.zero_add]

/-- The children of a well-formed branch that holds a key are accepted and counted. -/
theorem walkBranch_eq {fl : Flavour} {lo : ℕ → ℕ → ℕ} {L : ℕ} {node : Branch (Edge V)}
    (h : BranchShape fl lo L node) (h1 : 1 ≤ node.slots.length)
    (hw : ∀ d c, (d, c) ∈ node.slots → walk c = .ok (entries m c).length) :
    walkBranch walk node = .ok (node.slots.map fun s => (entries m s.2).length).sum := by
  have hcount := Branch.count_eq_slots h.ok
  have hkid : ∀ d c, (d, c) ∈ node.slots → c ≠ null ∧ walk c = .ok (entries m c).length :=
    fun d c hm => ⟨((Branch.mem_slots_iff h.ok h.filled).mp hm).2, hw d c hm⟩
  cases node with
  | linear form hdr edges =>
    obtain ⟨hlen, hs, -, -, hcap⟩ := h.ok
    have hedges : (hdr.digits.zip edges).map Prod.snd = edges := List.map_snd_zip (by omega)
    have hnum : ¬ (hdr.digits.length < 1 ∨ form.cap < hdr.digits.length) := by
      rw [← hcount] at h1
      rw [Branch.count] at h1
      omega
    unfold walkBranch
    simp only
    rw [if_neg hnum, if_neg (by simp [ascending_of_pairwise hs]), hlen, List.take_length]
    refine (tally_eq (f := fun c => (entries m c).length) (fun i c hc => ?_) 0 0).trans ?_
    · rw [← hedges] at hc
      obtain ⟨⟨d, c⟩, hm, rfl⟩ := List.mem_map.mp hc
      exact visitKid_eq (hkid d c hm).1 (hkid d c hm).2
    · conv_lhs => rw [← hedges, List.map_map]
      rw [Nat.zero_add]
      rfl
  | bitmap level kids =>
    have hok : kids.Ok := h.ok
    obtain ⟨hlow, hup⟩ := h.range
    unfold walkBranch
    simp only
    rw [if_neg (by unfold BRANCH_L7_CAP at hlow; unfold BRANCHB_TO_L7_DOWN; omega),
      if_neg (by omega)]
    have hrow : ∀ i < 8, (kids.row i).map Prod.snd = kids.sub i := fun i hi =>
      List.map_snd_zip (le_of_eq (hok.fit i hi))
    refine (tally_eq (f := fun i => ((kids.sub i).map fun c => (entries m c).length).sum)
      (fun _ i hi => ?_) 0 0).trans ?_
    · have hi8 := List.mem_range.mp hi
      refine visitSub_eq hok hi8 fun c hc => ?_
      rw [← hrow i hi8] at hc
      obtain ⟨⟨d, c⟩, hm, rfl⟩ := List.mem_map.mp hc
      exact hkid d c (List.mem_flatMap.mpr ⟨i, hi, hm⟩)
    · rw [Nat.zero_add, Branch.slots, Ranked.entries, List.map_flatMap, List.flatMap_def,
        List.sum_flatten, List.map_map]
      congr 2
      refine List.map_congr_left fun i hi => ?_
      rw [← hrow i (List.mem_range.mp hi), List.map_map]
      rfl
  | uncompressed edges =>
    have hlen : edges.length = 256 := h.ok
    have hrange : BRANCHU_TO_B_DOWN < (Branch.uncompressed edges).count := h.range
    unfold walkBranch
    simp only
    rw [if_neg (by omega)]
    have hedges : ((List.range 256).zip edges).map Prod.snd = edges :=
      List.map_snd_zip (by simp [hlen])
    refine (tally_eq (f := fun c => (entries m c).length) (fun i c hc => ?_) 0 0).trans ?_
    · rw [← hedges] at hc
      obtain ⟨⟨d, c⟩, hm, rfl⟩ := List.mem_map.mp hc
      by_cases hn : c.isNull = true
      · rw [if_pos hn, (Nullable.isNull_iff c).mp hn]
        simp [entries]
      · rw [if_neg hn]
        refine hw d c (List.mem_filter.mpr ⟨hm, ?_⟩)
        rw [Bool.not_eq_true', ← Bool.not_eq_true]
        exact hn
    -- a null slot holds no key, so leaving it out does not change the sum
    · conv_lhs => rw [← hedges, List.map_map]
      rw [Nat.zero_add, Branch.slots]
      congr 1
      generalize (List.range 256).zip edges = l
      induction l with
      | nil => rfl
      | cons s l ih =>
        rw [List.map_cons, List.sum_cons, ih, List.filter_cons]
        by_cases hn : Nullable.isNull s.2 = true
        · rw [if_neg (by simp [hn]), Function.comp, (Nullable.isNull_iff s.2).mp hn]
          simp [entries]
        · rw [if_pos (by simp [hn]), List.map_cons, List.sum_cons]
          rfl

end Kids

variable [Inhabited V] {fl : Flavour} {L : ℕ} {e : Edge V}

theorem length_entries_branch {aux : ℕ} {node : Branch (Edge V)} (h1 : 1 ≤ node.level L)
    (h2 : node.level L ≤ L) : (entries L (branch aux node)).length =
      (node.slots.map fun s => (entries (node.level L - 1) s.2).length).sum := by
  rw [entries_branch h1 h2, List.length_flatMap]
  simp only [length_shift]

/-- One edge of a well-formed tree is accepted when its children are. -/
theorem walkEdge_eq {walk : Edge V → ℕ → Except String ℕ} (h : WF fl (floor fl) L e) (h1 : 1 ≤ L)
    (h8 : L ≤ 8) (hpos : L = 8 → 1 ≤ (entries L e).length)
    (hw : ∀ m c, m < L → 1 ≤ m → WF fl (floor fl) m c → walk c m = .ok (entries m c).length) :
    walkEdge fl true walk e L = .ok (entries L e).length := by
  obtain ⟨hs, hx⟩ := h
  unfold walkEdge
  rw [if_neg (not_not.mpr ⟨h1, h8⟩)]
  cases e with
  | null => simp [entries]
  | immed kb cols =>
    rw [Shape] at hs
    obtain ⟨rfl, -, -, hp, -, hmax⟩ := hs
    simp only
    rw [if_neg (by simp), if_neg (by omega), if_neg (by simp [ascending_of_pairwise hp.sorted]),
      entries, Columns.length_entries]
  | leaf kb aux cols =>
    rw [Shape] at hs
    obtain ⟨-, hkb, -, hp, -, hcap, hpop, hlo⟩ := hs
    unfold floor at hlo
    have htake : cols.keys.take cols.size = cols.keys := List.take_length
    simp only
    rw [hpop, if_neg (by omega), if_neg (by omega), if_neg (by omega), htake,
      if_neg (by simp [ascending_of_pairwise hp.sorted]), entries, length_shift,
      Columns.length_entries]
  | leafB1 aux node =>
    rw [Shape] at hs
    obtain ⟨-, -, hok, hdown, hpop⟩ := hs
    have hrows : (List.range 8).all (fun i =>
        (node.sub i).isEmpty == (Bitmap.subDigits node.bits i).isEmpty) = true := by
      rw [List.all_eq_true]
      intro i hi
      have := hok.fit i (List.mem_range.mp hi)
      rw [beq_iff_eq, Bool.eq_iff_iff, List.isEmpty_iff_length_eq_zero,
        List.isEmpty_iff_length_eq_zero, this]
    simp only
    rw [if_neg (by simp [hrows]), if_neg (not_not.mpr hpop), if_neg (by omega), entries,
      length_shift, ← List.length_map (f := Prod.fst), Ranked.entries_keys hok]
    rfl
  | fullExpanse aux =>
    rw [Shape] at hs
    simp only
    rw [if_neg (by simp [hs.1]), entries, List.length_map, List.length_range]
  | branch aux node =>
    have hb := shape_branch.mp hs
    have h2 := hb.two_le
    have hl := hb.le
    have hcount : (entries L (branch aux node)).length = _ := length_entries_branch (by omega) hl
    have hslots : 1 ≤ node.slots.length := by
      by_contra hn
      have hnil : node.slots = [] := List.length_eq_zero_iff.mp (by omega)
      rw [hnil] at hcount
      by_cases h7 : node.level L ≤ 7
      · have := hx h7
        rw [hcount] at this
        simp at this
      · have := hpos (by omega)
        rw [hcount] at this
        simp at this
    have hlev : isUncompressed node = true → node.level L = L := by
      cases node <;> simp [isUncompressed, Branch.level]
    simp only
    rw [if_neg (by omega), if_neg (by omega), if_neg (by have := hb.top; omega),
      if_neg (by tauto), walkBranch_eq hb hslots
        (fun d c hm => hw _ c (by omega) (by omega) (hb.slot hm).2)]
    simp only
    rw [if_neg, hcount]
    rintro ⟨-, h7, hne⟩
    exact hne ((hx h7).trans hcount)

/-- The validator accepts a well-formed tree and counts its keys. -/
theorem walkValid_eq {n : ℕ} (h : WF fl (floor fl) L e) (h1 : 1 ≤ L) (h8 : L ≤ 8)
    (hpos : L = 8 → 1 ≤ (entries L e).length) (hn : L < n) :
    walkValid fl true n e L = .ok (entries L e).length := by
  induction n generalizing L e with
  | zero => omega
  | succ n ih =>
    rw [walkValid]
    exact walkEdge_eq h h1 h8 hpos fun m c hm h1m hc => ih hc h1m (by omega) (by omega) (by omega)

end Edge

end Expanse
