import Expanse.Engine.Build

/-!
# What the builders return

A built edge is well formed, and its entries are the suffixes of the entries it was
built from. The step from the runs of a branch to the branch is one lemma; the
recursion then follows the levels.
-/

namespace Expanse

open Radix SortedAssoc Grouping

namespace Branch

variable {α : Type} [Nullable α] {kids : List (ℕ × α)} {level : ℕ}

omit [Nullable α] in
theorem getElem?_foldl_set {edges : List α} (hs : KeySorted kids) (hb : ∀ k ∈ kids, k.1 < edges.length)
    {d : ℕ} {c : α} : (kids.foldl (fun edges k => edges.set k.1 k.2) edges)[d]? = some c ↔
      (d, c) ∈ kids ∨ d ∉ kids.map Prod.fst ∧ edges[d]? = some c := by
  induction kids generalizing edges with
  | nil => simp
  | cons k kids ih =>
    obtain ⟨hk, hs'⟩ := List.pairwise_cons.mp hs
    have hlt := hb k List.mem_cons_self
    rw [List.foldl_cons, ih hs' fun x hx => by
      rw [List.length_set]
      exact hb x (List.mem_cons_of_mem _ hx)]
    simp only [List.mem_cons, List.map_cons, not_or]
    by_cases hd : d = k.1
    · have hnot : ∀ x, (k.1, x) ∉ kids := fun x hx => absurd (hk _ hx) (lt_irrefl _)
      have hkeys : k.1 ∉ kids.map Prod.fst := by
        intro hm
        obtain ⟨⟨a, x⟩, hx, ha⟩ := List.mem_map.mp hm
        cases ha
        exact hnot x hx
      subst hd
      simp only [hnot, hkeys, List.getElem?_set_self hlt, not_false_eq_true, true_and, false_or,
        not_true, false_and, or_false, Option.some.injEq]
      obtain ⟨a, x⟩ := k
      simp [eq_comm]
    · have hne : (d, c) ≠ k := by
        rintro rfl
        exact hd rfl
      simp [hd, hne, List.getElem?_set_ne (Ne.symm hd)]

omit [Nullable α] in
theorem length_foldl_set (edges : List α) :
    (kids.foldl (fun edges k => edges.set k.1 k.2) edges).length = edges.length := by
  induction kids generalizing edges with
  | nil => rfl
  | cons k kids ih => rw [List.foldl_cons, ih, List.length_set]

omit [Nullable α] in
theorem linear_ok {form : LinearForm} (hs : KeySorted kids) (hb : ∀ k ∈ kids, k.1 < 256)
    (hn : kids.length ≤ form.cap) :
    (linear form ⟨level, BranchHeader.refreshPresence (kids.map Prod.fst), kids.map Prod.fst⟩
      (kids.map Prod.snd)).Ok := by
  refine ⟨by simp, keySorted_iff.mp hs, ?_, ?_, by simpa using hn⟩
  · intro d hd
    obtain ⟨k, hk, rfl⟩ := List.mem_map.mp hd
    exact hb k hk
  · intro d hd
    exact (BranchHeader.testBit_foldl_addPresence _ 0 _).mpr (.inr ⟨d, hd, rfl⟩)

theorem slots_linear {form : LinearForm} {hdr : BranchHeader} (hd : hdr.digits = kids.map Prod.fst) :
    (linear form hdr (kids.map Prod.snd)).slots = kids := by
  rw [slots, hd, ← List.unzip_fst, ← List.unzip_snd, List.zip_unzip]

/-- A branch built from sorted children that are not null stores exactly those children. -/
theorem build_spec (level : ℕ) (hs : KeySorted kids) (hb : ∀ k ∈ kids, k.1 < 256)
    (hn : ∀ k ∈ kids, k.2 ≠ Nullable.null) :
    (build level kids).Ok ∧ (build level kids).slots = kids := by
  unfold build
  simp only
  split_ifs with h3 h7 h192
  · exact ⟨linear_ok hs hb h3, slots_linear rfl⟩
  · exact ⟨linear_ok hs hb h7, slots_linear rfl⟩
  · exact ⟨Ranked.ofEntries_ok hs hb, Ranked.entries_ofEntries hs hb⟩
  · set edges := kids.foldl (fun edges k => edges.set k.1 k.2)
      (List.replicate 256 (Nullable.null : α)) with hedges
    have hok : (uncompressed edges).Ok := by
      change edges.length = 256
      rw [hedges, length_foldl_set, List.length_replicate]
    refine ⟨hok, (slots_sorted hok).ext hs ?_⟩
    intro d c
    have hread : edges[d]? = some c ↔ (d, c) ∈ kids ∨ d ∉ kids.map Prod.fst ∧
        (List.replicate 256 (Nullable.null : α))[d]? = some c :=
      getElem?_foldl_set hs fun k hk => by
        rw [List.length_replicate]
        exact hb k hk
    rw [mem_slots hok]
    simp only [find, isSparse, forall_const, hread]
    constructor
    · rintro ⟨hm | ⟨-, hnull⟩, hc⟩
      · exact hm
      · rw [List.getElem?_replicate] at hnull
        split_ifs at hnull
        cases hnull
        exact absurd rfl hc
    · intro hm
      exact ⟨.inl hm, hn _ hm⟩

end Branch

namespace Edge

variable {V : Type} {l : List (ℕ × V)} {L bl : ℕ}

/-- Sorted entries that share their bytes above `L`. -/
structure Group (L : ℕ) (l : List (ℕ × V)) : Prop where
  ne_nil : l ≠ []
  sorted : KeySorted l
  same : ∀ e ∈ l, e.1 / 256 ^ L = firstKey l / 256 ^ L

@[simp] theorem length_suffix : (suffix L l).length = l.length := List.length_map _

theorem mem_suffix_lt {e : ℕ × V} (h : e ∈ suffix L l) : e.1 < 256 ^ L := by
  obtain ⟨x, -, rfl⟩ := List.mem_map.mp h
  exact low_lt x.1 L

theorem div_eq_slice {a b : ℕ} (h : a ≤ b) (k : ℕ) :
    k / 256 ^ a = k / 256 ^ b * 256 ^ (b - a) + slice k a b := by
  rw [slice, pow_split h, ← Nat.div_div_eq_div_mul, Nat.div_add_mod']

theorem low_lt_low_iff {a b : ℕ} (h : a / 256 ^ L = b / 256 ^ L) : low a L < low b L ↔ a < b := by
  have ha := low_div_add a L
  have hb := low_div_add b L
  rw [h] at ha
  omega

theorem Group.suffix_sorted (h : Group L l) : KeySorted (suffix L l) := by
  rw [KeySorted, suffix, List.pairwise_map]
  refine h.sorted.imp_of_mem fun ha hb hab => ?_
  exact (low_lt_low_iff ((h.same _ ha).trans (h.same _ hb).symm)).mpr hab

theorem Group.packed (h : Group L l) : (Columns.ofEntries (suffix L l)).Packed L :=
  .ofEntries h.suffix_sorted fun _ _ hm => mem_suffix_lt hm

theorem size_ofEntries (l : List (ℕ × V)) : (Columns.ofEntries l).size = l.length := by
  rw [← Columns.length_entries, Columns.entries_ofEntries]

theorem Group.length_le (h : Group L l) : l.length ≤ 256 ^ L := by
  rw [← length_suffix (L := L)]
  refine h.suffix_sorted.length_le fun x hx => ?_
  obtain ⟨e, he, rfl⟩ := List.mem_map.mp hx
  exact mem_suffix_lt he

theorem Group.one_le (h : Group L l) : 1 ≤ l.length := List.length_pos_iff.mpr h.ne_nil

theorem divergenceLevel_low (a b : ℕ) :
    divergenceLevel (low a L) (low b L) L = divergenceLevel a b L := by
  have hpow : 256 ^ L = 2 ^ (8 * L) := by rw [Nat.pow_mul]
  have hlow : low (low a L ^^^ low b L) L = low (a ^^^ b) L := by
    unfold low
    rw [hpow]
    apply Nat.eq_of_testBit_eq
    intro i
    simp only [Nat.testBit_mod_two_pow, Nat.testBit_xor]
    by_cases hi : i < 8 * L <;> simp [hi]
  rw [divergenceLevel, divergenceLevel, hlow]

/-- Where the keys of a group part: they share the bytes above that level. -/
theorem Group.diverge (h : Group L l) (h2 : 2 ≤ l.length) :
    1 ≤ divergenceLevel (firstKey l) (lastKey l) L ∧
      divergenceLevel (firstKey l) (lastKey l) L ≤ L ∧
      Group (divergenceLevel (firstKey l) (lastKey l) L) l := by
  set a := firstKey l with ha
  set b := lastKey l with hb
  set d := divergenceLevel a b L with hd
  have hab : a / 256 ^ L = b / 256 ^ L := by
    obtain ⟨e, he, hx⟩ := List.mem_map.mp (lastKey_mem h.ne_nil)
    rw [hb, ← hx, h.same e he]
  have hne : a ≠ b := by
    obtain ⟨x, y, rest, rfl⟩ : ∃ x y rest, l = x :: y :: rest := by
      match l, h2 with
      | x :: y :: rest, _ => exact ⟨x, y, rest, rfl⟩
    have hy := le_lastKey h.sorted (k := y.1) (by simp)
    have hxy := (List.pairwise_cons.mp h.sorted).1 y (by simp)
    rw [firstKey_cons] at ha
    omega
  have hlow : low a L ≠ low b L := by
    intro he
    have h1 := low_div_add a L
    have h2 := low_div_add b L
    rw [hab, he] at h1
    exact hne (h1.symm.trans h2)
  obtain ⟨h1, hle, hdiv, -⟩ := divergenceLevel_spec (low_lt a L) (low_lt b L) hlow
  rw [divergenceLevel_low, ← hd] at h1 hle hdiv
  have hends : a / 256 ^ d = b / 256 ^ d := by
    rw [low_div hle, low_div hle] at hdiv
    rw [div_eq_slice hle a, div_eq_slice hle b, hab, hdiv]
  exact ⟨h1, hle, h.ne_nil, h.sorted, fun e he => div_eq_of_ends h.sorted
    (List.mem_map.mpr ⟨e, he, rfl⟩) hends⟩

theorem Group.mono {M : ℕ} (h : Group M l) (hM : M ≤ L) : Group L l where
  ne_nil := h.ne_nil
  sorted := h.sorted
  same := fun e he => by
    rw [pow_split hM, ← Nat.div_div_eq_div_mul, ← Nat.div_div_eq_div_mul, h.same e he]

theorem Group.slice_eq (h : Group bl l) {e : ℕ × V} (he : e ∈ l) (b : ℕ) :
    slice e.1 bl b = slice (firstKey l) bl b := by
  rw [slice, slice, h.same e he]

theorem Group.digit_eq (h : Group bl l) {e : ℕ × V} (he : e ∈ l) :
    digit e.1 (bl + 1) = digit (firstKey l) (bl + 1) := by
  rw [digit, digit, Nat.add_sub_cancel, h.same e he]

theorem Group.runs (h : Group bl l) (h1 : 1 ≤ bl) :
    KeySorted (runsBy (fun e => digit e.1 bl) l) ∧
      ∀ d run, (d, run) ∈ runsBy (fun e => digit e.1 bl) l → d < 256 ∧ Group (bl - 1) run := by
  have hsplit : ∀ k, k / 256 ^ (bl - 1) = k / 256 ^ bl * 256 + digit k bl := by
    intro k
    rw [div_eq_slice (Nat.sub_le bl 1) k, slice_digit h1, show bl - (bl - 1) = 1 by omega, pow_one]
  have hmono : ∀ x ∈ l, ∀ y ∈ l, x.1 < y.1 → digit x.1 bl ≤ digit y.1 bl := by
    intro x hx y hy hxy
    have hle : x.1 / 256 ^ (bl - 1) ≤ y.1 / 256 ^ (bl - 1) := Nat.div_le_div_right hxy.le
    rw [hsplit, hsplit, h.same x hx, h.same y hy] at hle
    omega
  obtain ⟨hruns, hkeys⟩ := runsBy_sorted (fun e => digit e.1 bl) h.sorted hmono
  refine ⟨hkeys, fun d run hm => ?_⟩
  obtain ⟨hne, hd⟩ := mem_runsBy _ hm
  have hsame : ∀ e ∈ run, e.1 / 256 ^ (bl - 1) = firstKey l / 256 ^ bl * 256 + d := by
    intro e he
    rw [hsplit, h.same e (mem_of_mem_runsBy _ hm he), hd e he]
  constructor
  · obtain ⟨e, he⟩ := List.exists_mem_of_ne_nil run hne
    rw [← hd e he]
    exact digit_lt _ _
  · refine ⟨hne, hruns d run hm, fun e he => ?_⟩
    obtain ⟨x, hx, hfirst⟩ := List.mem_map.mp (firstKey_mem hne)
    rw [hsame e he, ← hfirst, hsame x hx]

variable [Inhabited V] {fl : Flavour} {lo : ℕ → ℕ → ℕ} {e : Edge V}

/-- A well-formed edge for the suffixes of `l`. -/
structure Built (fl : Flavour) (lo : ℕ → ℕ → ℕ) (L : ℕ) (l : List (ℕ × V)) (e : Edge V) :
    Prop where
  wf : WF fl lo L e
  content : entries L e = suffix L l

theorem Built.ne_null (h : Built fl lo L l e) (hl : l ≠ []) : e ≠ null := by
  rintro rfl
  have hnil : suffix L l = [] := by rw [← h.content, entries]
  exact hl (List.map_eq_nil_iff.mp hnil)

section Branches

variable {kids : List (ℕ × Edge V)}

theorem buildKids_spec {build : List (ℕ × V) → Except Fault (Edge V)}
    {runs : List (ℕ × List (ℕ × V))}
    (h : ∀ r ∈ runs, ∃ c, build r.2 = .ok c ∧ Built fl lo L r.2 c) :
    ∃ kids, buildKids build runs = .ok kids ∧
      List.Forall₂ (fun r k => k.1 = r.1 ∧ Built fl lo L r.2 k.2) runs kids := by
  induction runs with
  | nil => exact ⟨[], rfl, .nil⟩
  | cons r runs ih =>
    obtain ⟨c, hc, hb⟩ := h r List.mem_cons_self
    obtain ⟨kids, hk, hf⟩ := ih fun x hx => h x (List.mem_cons_of_mem _ hx)
    obtain ⟨d, run⟩ := r
    refine ⟨(d, c) :: kids, ?_, .cons ⟨rfl, hb⟩ hf⟩
    simp only [buildKids, hc, hk]

theorem exists_of_mem_forall₂ {α β : Type} {R : α → β → Prop} {l : List α} {l' : List β}
    (h : List.Forall₂ R l l') {b : β} (hb : b ∈ l') : ∃ a ∈ l, R a b := by
  induction h with
  | nil => cases hb
  | cons hab _ ih =>
    rcases List.mem_cons.mp hb with rfl | hb
    · exact ⟨_, List.mem_cons_self, hab⟩
    · obtain ⟨a, ha, hr⟩ := ih hb
      exact ⟨a, List.mem_cons_of_mem _ ha, hr⟩

omit [Inhabited V] in
theorem shift_suffix {run : List (ℕ × V)} {s d : ℕ} (h1 : 1 ≤ bl) (hle : bl ≤ L)
    (hs : ∀ e ∈ run, slice e.1 bl L = s) (hd : ∀ e ∈ run, digit e.1 bl = d) :
    shift (s * 256 ^ bl + d * 256 ^ (bl - 1)) (suffix (bl - 1) run) = suffix L run := by
  rw [shift, suffix, List.map_map, suffix]
  apply List.map_congr_left
  intro e he
  simp only [Function.comp, Prod.mk.injEq, and_true]
  rw [low_eq_split h1 hle, hs e he, hd e he]

theorem built_branch {node : Branch (Edge V)} {runs : List (ℕ × List (ℕ × V))}
    {aux : ℕ} (h : Group bl l) (h2 : 2 ≤ bl) (hle : bl ≤ L) (h8 : L ≤ 8)
    (htop : L = 8 → bl = 8) (hl : runs.flatMap Prod.snd = l)
    (hr : ∀ r ∈ runs, r.2 ≠ [] ∧ ∀ e ∈ r.2, digit e.1 bl = r.1)
    (hk : List.Forall₂ (fun r k => k.1 = r.1 ∧ Built fl lo (bl - 1) r.2 k.2) runs kids)
    (hok : node.Ok) (hslots : node.slots = kids) (hlev : node.level L = bl) (hrange : InRange node)
    (haux : slice aux bl L = slice (firstKey l) bl L)
    (hpop : bl ≤ 7 → Aux.pop0 aux bl + 1 = l.length) : Built fl lo L l (branch aux node) := by
  have hkid : ∀ k ∈ kids, k.2 ≠ null ∧ WF fl lo (bl - 1) k.2 := by
    intro k hm
    obtain ⟨r, hr', -, hb⟩ := exists_of_mem_forall₂ hk hm
    exact ⟨hb.ne_null (hr r hr').1, hb.wf⟩
  have hcontent : entries L (branch aux node) = suffix L l := by
    have hmem : ∀ r ∈ runs, ∀ e ∈ r.2, slice e.1 bl L = slice aux bl L := by
      intro r hm e he
      rw [haux]
      exact h.slice_eq (hl ▸ List.mem_flatMap.mpr ⟨r, hm, he⟩) L
    rw [entries_branch (by omega) (by omega), hslots, hlev, ← hl]
    clear hl hslots hkid
    induction hk with
    | nil => rfl
    | cons hb hrest ih =>
      obtain ⟨hd, hb⟩ := hb
      rw [List.flatMap_cons, List.flatMap_cons, ih (fun r hm => hr r (List.mem_cons_of_mem _ hm))
        (fun r hm => hmem r (List.mem_cons_of_mem _ hm)), hd, hb.content,
        shift_suffix (by omega) hle (hmem _ List.mem_cons_self) (hr _ List.mem_cons_self).2]
      rw [suffix, suffix, suffix, List.map_append]
  refine ⟨⟨shape_branch.mpr ?_, ?_⟩, hcontent⟩
  · refine ⟨h8, fun hL => by rw [hlev, htop hL], hok, ?_, hrange, by omega, by omega, ?_⟩
    · intro hsp d c hf
      have hm := (Branch.mem_slots hok).mpr ⟨hf, fun hn => by rw [hsp] at hn; cases hn⟩
      exact (hkid _ (hslots ▸ hm)).1
    · intro d c hf
      rw [hlev]
      by_cases hc : c = null
      · subst hc
        exact ⟨by simp [Shape], trivial⟩
      · have hm := (Branch.mem_slots hok).mpr ⟨hf, fun _ => hc⟩
        exact (hkid _ (hslots ▸ hm)).2
  · intro h7
    rw [hcontent, length_suffix, hlev]
    exact hpop (hlev ▸ h7)

omit [Inhabited V] in
theorem inRange_build (hs : KeySorted kids) (hb : ∀ k ∈ kids, k.1 < 256)
    (hn : ∀ k ∈ kids, k.2 ≠ Nullable.null) : InRange (Branch.build bl kids) := by
  obtain ⟨hok, hslots⟩ := Branch.build_spec bl hs hb hn
  have hcount : (Branch.build bl kids).count = kids.length := by rw [Branch.count_eq_slots hok, hslots]
  unfold Branch.build at hcount ⊢
  simp only at hcount ⊢
  split_ifs at hcount ⊢ with h3 h7 h192
  · trivial
  · trivial
  · have hbits : Bitmap.count (Ranked.ofEntries kids).bits = kids.length := hcount
    rw [InRange, hbits]
    omega
  · rw [InRange, hcount]
    have : BRANCHU_TO_B_DOWN < BRANCHB_UP := by decide
    omega

omit [Inhabited V] in
theorem level_build (bl : ℕ) (kids : List (ℕ × Edge V)) (L : ℕ) :
    (Branch.build bl kids).level L = bl ∨ ∃ edges, Branch.build bl kids = .uncompressed edges := by
  unfold Branch.build
  simp only
  split_ifs
  · exact .inl rfl
  · exact .inl rfl
  · exact .inl rfl
  · exact .inr ⟨_, rfl⟩

/-- The population of a fresh edge, read behind the skip that is written over it. -/
theorem stamp_pop0 {n w : ℕ} (hn : n < 256 ^ bl) (hle : bl ≤ L) :
    Aux.pop0 (Aux.writeDecode (Aux.setPop0 0 bl n) bl L w) bl = n := by
  rw [Aux.pop0, Aux.writeDecode, low_setSlice_below hle le_rfl]
  exact Aux.pop0_setPop0 hn

theorem slice_writeDecode {aux w : ℕ} (hle : bl ≤ L) :
    slice (Aux.writeDecode aux bl L w) bl L = slice w bl L := by
  rw [Aux.writeDecode, slice_setSlice hle, Nat.mod_eq_of_lt (slice_lt _ _ _)]

/-- An uncompressed branch below a narrow one that carries its skip. -/
theorem wrapUNarrow_spec (h : Group bl l) (h1 : 1 ≤ bl) (hlt : bl < L) (h7 : L ≤ 7)
    (hb : Built fl lo bl l e) : Built fl lo L l (wrapUNarrow e bl L (firstKey l) l.length) := by
  have hl := h.one_le
  have hg : Group (bl + 1) l := h.mono (Nat.le_succ bl)
  have hlen : l.length - 1 < 256 ^ (bl + 1) := by
    have := hg.length_le
    omega
  have hlen' : bl + 1 ≤ L := hlt
  unfold wrapUNarrow
  simp only
  rw [if_pos (by omega)]
  have hkids : List.Forall₂ (fun r k => k.1 = r.1 ∧ Built fl lo (bl + 1 - 1) r.2 k.2)
      [(digit (firstKey l) (bl + 1), l)] [(digit (firstKey l) (bl + 1), e)] :=
    .cons ⟨rfl, by rwa [Nat.add_sub_cancel]⟩ .nil
  have hok : (Branch.linear .l3 ⟨bl + 1, BranchHeader.refreshPresence [digit (firstKey l) (bl + 1)],
      [digit (firstKey l) (bl + 1)]⟩ [e]).Ok :=
    Branch.linear_ok (List.pairwise_singleton _ (digit (firstKey l) (bl + 1), e))
      (by simpa using digit_lt _ _) (Nat.le_of_lt (by decide : 1 < BRANCH_L3_CAP))
  refine built_branch hg (by omega) hlen' (by omega) (by omega) (by simp) ?_
    hkids hok rfl rfl trivial ?_ ?_
  · intro r hr
    rw [List.mem_singleton] at hr
    subst hr
    exact ⟨h.ne_nil, fun x hx => h.digit_eq hx⟩
  · rw [Aux.slice_setPop0 le_rfl]
    split_ifs with hs
    · exact slice_writeDecode hlen'
    · rw [show bl + 1 = L by omega, slice_self, slice_self]
  · intro _
    rw [Aux.pop0_setPop0 hlen]
    omega

theorem buildBranchFromKeys_spec {build : List (ℕ × V) → Except Fault (Edge V)} (h : Group bl l)
    (h2 : 2 ≤ bl) (hle : bl ≤ L) (h8 : L ≤ 8) (htop : L = 8 → bl = 8)
    (hb : ∀ run, Group (bl - 1) run → ∃ c, build run = .ok c ∧ Built fl lo (bl - 1) run c) :
    ∃ e, buildBranchFromKeys build l L bl = .ok e ∧ Built fl lo L l e := by
  obtain ⟨hkeys, hruns⟩ := h.runs (by omega)
  have hbuild : ∀ r ∈ runsBy (fun e => digit e.1 bl) l,
      ∃ c, build r.2 = .ok c ∧ Built fl lo (bl - 1) r.2 c :=
    fun r hr => hb r.2 (hruns r.1 r.2 hr).2
  obtain ⟨kids, hk, hf⟩ := buildKids_spec hbuild
  have hfst : kids.map Prod.fst = (runsBy (fun e => digit e.1 bl) l).map Prod.fst := by
    symm
    rw [← List.forall₂_eq_eq_eq, List.forall₂_map_left_iff, List.forall₂_map_right_iff]
    exact hf.imp fun r k hrk => hrk.1.symm
  have hsorted : KeySorted kids := by
    rw [keySorted_iff, hfst]
    exact keySorted_iff.mp hkeys
  have hkid : ∀ k ∈ kids, k.1 < 256 ∧ k.2 ≠ null := by
    intro k hm
    obtain ⟨r, hr, hd, hbuilt⟩ := exists_of_mem_forall₂ hf hm
    rw [hd]
    exact ⟨(hruns r.1 r.2 hr).1, hbuilt.ne_null (hruns r.1 r.2 hr).2.ne_nil⟩
  have hn : ∀ k ∈ kids, k.2 ≠ (Nullable.null : Edge V) := fun k hm => (hkid k hm).2
  obtain ⟨hok, hslots⟩ := Branch.build_spec bl hsorted (fun k hm => (hkid k hm).1) hn
  have hrange : InRange (Branch.build bl kids) := inRange_build hsorted (fun k hm => (hkid k hm).1) hn
  have hone := h.one_le
  have hlen : l.length - 1 < 256 ^ bl := by
    have := h.length_le
    omega
  -- the node under any slot whose level it fits, once the aux word is stamped
  have hbuilt : ∀ M aux, bl ≤ M → M ≤ 8 → (M = 8 → bl = 8) → (Branch.build bl kids).level M = bl →
      slice aux bl M = slice (firstKey l) bl M → (bl ≤ 7 → Aux.pop0 aux bl = l.length - 1) →
      Built fl lo M l (branch aux (Branch.build bl kids)) := by
    intro M aux hM hM8 hMtop hlev haux hpop
    refine built_branch h h2 hM hM8 hMtop (flatMap_runsBy _ l) (fun r hr => mem_runsBy _ hr) hf hok
      hslots hlev hrange haux fun h7 => ?_
    rw [hpop h7]
    omega
  refine ⟨stampBranch (Branch.build bl kids) bl L (firstKey l) l.length,
    by simp only [buildBranchFromKeys, hk], ?_⟩
  unfold stampBranch
  simp only
  by_cases hlt : bl < L
  · have h7 : bl ≤ 7 := by
      by_contra hbl
      have : L = 8 := by omega
      have := htop this
      omega
    have hL7 : L ≤ 7 := by
      by_contra hL
      have := htop (by omega)
      omega
    rw [if_pos hlt, if_pos h7]
    rcases level_build bl kids L with hlev | ⟨edges, hu⟩
    · have hnarrow := hbuilt L (Aux.writeDecode (Aux.setPop0 0 bl (l.length - 1)) bl L (firstKey l))
        hle h8 htop hlev (slice_writeDecode hle) fun _ => stamp_pop0 hlen hle
      split
      · rename_i edges hu
        rw [hu] at hlev
        exact absurd hlev (by simp only [Branch.level]; omega)
      · exact hnarrow
    · have hwide := hbuilt bl (Aux.setPop0 0 bl (l.length - 1)) le_rfl (by omega) (by omega)
        (by rw [hu, Branch.level]) (by rw [slice_self, slice_self]) fun _ => Aux.pop0_setPop0 hlen
      rw [hu] at hwide ⊢
      exact wrapUNarrow_spec h (by omega) hlt hL7 hwide
  · have hL : L = bl := by omega
    subst hL
    have hlev : (Branch.build L kids).level L = L := by
      rcases level_build L kids L with hlev | ⟨edges, hu⟩
      · exact hlev
      · rw [hu, Branch.level]
    rw [if_neg hlt]
    refine hbuilt L _ le_rfl h8 htop hlev (by rw [slice_self, slice_self]) fun h7 => ?_
    rw [if_pos h7]
    exact Aux.pop0_setPop0 hlen

end Branches

section Terminals

variable (hlo : ∀ L kb, lo L kb ≤ fl.immedMax L) (h : Group L l) (h1 : 1 ≤ L) (h7 : L ≤ 7)

include h h1 h7

theorem built_immed (hn : l.length ≤ fl.immedMax L) :
    Built fl lo L l (immed L (Columns.ofEntries (suffix L l))) := by
  refine ⟨⟨?_, trivial⟩, by rw [entries, Columns.entries_ofEntries]⟩
  rw [Shape, size_ofEntries, length_suffix]
  exact ⟨rfl, h1, h7, h.packed, h.one_le, hn⟩

include hlo

theorem built_leaf (hn : fl.immedMax L < l.length) (hc : l.length ≤ leafCap L) :
    Built fl lo L l (leaf L (Aux.setPop0 0 L (l.length - 1)) (Columns.ofEntries (suffix L l))) := by
  have hone := h.one_le
  have hpop : Aux.pop0 (Aux.setPop0 0 L (l.length - 1)) L = l.length - 1 := by
    apply Aux.pop0_setPop0
    have := h.length_le
    omega
  refine ⟨⟨?_, trivial⟩, ?_⟩
  · rw [Shape, size_ofEntries, length_suffix, hpop]
    exact ⟨h1, le_rfl, h7, h.packed, hone, hc, by omega, le_trans (hlo L L) hn.le⟩
  · rw [entries, Columns.entries_ofEntries, slice_self, Nat.zero_mul, shift_zero]

end Terminals

section SetTerminal

variable {bm dv : ℕ}

theorem setSkipDecode_spec {n : ℕ} (h1 : 1 ≤ L) (hdv : dv < 256 ^ (L - 1)) (hn : n < 256) :
    slice (setSkipDecode (Aux.setPop0 0 1 n) L dv) 1 L = dv ∧
      Aux.pop0 (setSkipDecode (Aux.setPop0 0 1 n) L dv) 1 = n := by
  have hpop : n < 256 ^ 1 := by simpa using hn
  unfold setSkipDecode
  split_ifs with hL
  · refine ⟨?_, stamp_pop0 hpop h1⟩
    rw [slice_writeDecode h1, slice, Nat.shiftLeft_eq, pow_one, show (2 : ℕ) ^ 8 = 256 by rfl,
      Nat.mul_div_cancel _ (by decide), Nat.mod_eq_of_lt hdv]
  · have hL1 : L = 1 := by omega
    subst hL1
    rw [slice_self]
    have : dv = 0 := by simpa using hdv
    exact ⟨this.symm, Aux.pop0_setPop0 hpop⟩

theorem buildLeafFromBitmap_spec (hlo : ∀ L kb, lo L kb ≤ Flavour.set.immedMax L) (h1 : 1 ≤ L)
    (h7 : L ≤ 7) (hdv : dv < 256 ^ (L - 1)) (hc : Bitmap.count bm ≠ 0) :
    ∃ e : Edge V, buildLeafFromBitmap bm L dv = some e ∧ WF .set lo L e ∧
      entries L e = (Bitmap.digits bm).map fun b => (dv * 256 + b, default) := by
  set finals : List (ℕ × V) := (Bitmap.digits bm).map fun b => (b, default) with hfinals
  have hlen : finals.length = Bitmap.count bm := by rw [hfinals, List.length_map, Bitmap.count]
  have hcount := Bitmap.count_le bm
  have hs : KeySorted finals := by
    rw [hfinals, KeySorted, List.pairwise_map]
    exact Bitmap.digits_sorted bm
  have hb : ∀ e ∈ finals, e.1 < 256 := by
    intro e he
    obtain ⟨b, hb, rfl⟩ := List.mem_map.mp he
    exact (Bitmap.mem_digits.mp hb).1
  have hpacked : (Columns.ofEntries finals).Packed 1 :=
    .ofEntries hs fun k v hm => by simpa using hb _ hm
  have hshift : shift (dv * 256 ^ 1) finals =
      (Bitmap.digits bm).map fun b => (dv * 256 + b, default) := by
    rw [hfinals, shift, List.map_map]
    rfl
  obtain ⟨hslice, hpop⟩ := setSkipDecode_spec (n := Bitmap.count bm - 1) h1 hdv (by omega)
  unfold buildLeafFromBitmap
  simp only [hc, if_false, ← hfinals]
  split_ifs with hfull himm hleaf
  · obtain ⟨h256, rfl⟩ := hfull
    have hdv0 : dv = 0 := by simpa using hdv
    refine ⟨_, rfl, ⟨?_, trivial⟩, ?_⟩
    · rw [fullEdge, Shape]
      exact ⟨rfl, rfl, Aux.pop0_setPop0 (by decide)⟩
    · have hall : Bitmap.digits bm = List.range 256 := by
        rw [Bitmap.digits, List.filter_eq_self]
        intro b hb
        exact Bitmap.testBit_of_count h256 (List.mem_range.mp hb)
      rw [fullEdge, entries, hall, hdv0]
      simp
  · have hmap : (finals.map fun e => (dv <<< 8 ||| e.1, e.2)) =
        (Bitmap.digits bm).map fun b => (dv * 256 + b, default) := by
      rw [← hshift, shift]
      apply List.map_congr_left
      intro e he
      rw [← Nat.shiftLeft_add_eq_or_of_lt (by simpa using hb e he), Nat.shiftLeft_eq]
      rfl
    refine ⟨_, rfl, ⟨?_, trivial⟩, by rw [entries, Columns.entries_ofEntries, hmap]⟩
    rw [Shape, size_ofEntries, List.length_map, hlen, hmap, ← hshift]
    refine ⟨rfl, h1, h7, .ofEntries (keySorted_shift hs) ?_, by omega, himm⟩
    intro k v hm
    obtain ⟨x, hx, rfl⟩ := mem_shift.mp hm
    exact mul_add_lt h1 hdv (by simpa using hb _ hx)
  · refine ⟨_, rfl, ⟨?_, trivial⟩, by rw [entries, Columns.entries_ofEntries, hslice, hshift]⟩
    rw [Shape, size_ofEntries, hlen, hpop]
    exact ⟨le_rfl, h1, h7, hpacked, by omega, hleaf, by omega, le_trans (hlo L 1) (by omega)⟩
  · have hok := Ranked.ofEntries_ok hs hb
    have hent := Ranked.entries_ofEntries hs hb
    have hbits : Bitmap.count (Ranked.ofEntries finals).bits = Bitmap.count bm := by
      rw [Bitmap.count, ← Ranked.entries_keys hok, List.length_map, hent, hlen]
    refine ⟨_, rfl, ⟨?_, trivial⟩, by rw [entries, hent, hslice, hshift]⟩
    have hdown : LEAFB1_DOWN ≤ LEAF1_CAP := by decide
    rw [Shape, hbits, hpop]
    exact ⟨h1, h7, hok, by omega, by omega⟩

omit [Inhabited V] in
theorem testBit_foldl_set (l : List (ℕ × V)) (bm i : ℕ) :
    (l.foldl (fun bm e => Bitmap.set bm (digit e.1 1)) bm).testBit i = true ↔
      bm.testBit i = true ∨ ∃ e ∈ l, digit e.1 1 = i := by
  induction l generalizing bm with
  | nil => simp
  | cons e l ih =>
    rw [List.foldl_cons, ih]
    simp only [Bitmap.testBit_set, Bool.or_eq_true, decide_eq_true_eq, List.mem_cons,
      exists_eq_or_imp, or_assoc]

theorem digit_one (k : ℕ) : digit k 1 = low k 1 := by
  rw [digit, low, Nat.sub_self, pow_zero, Nat.div_one, pow_one]

theorem buildTerminal_spec (hlo : ∀ L kb, lo L kb ≤ Flavour.set.immedMax L)
    (hV : ∀ v : V, v = default) (h : Group 1 l) (h1 : 1 ≤ L) (h7 : L ≤ 7) :
    ∃ e, buildTerminal l L = .ok e ∧ Built .set lo L l e := by
  set bm := l.foldl (fun bm e => Bitmap.set bm (digit e.1 1)) 0 with hbm
  have hdv : (if 1 < L then slice (firstKey l) 1 L else 0) = slice (firstKey l) 1 L := by
    split_ifs with hL
    · rfl
    · rw [show L = 1 by omega, slice_self]
  have hdigits : Bitmap.digits bm = l.map fun e => low e.1 1 := by
    apply pairwise_lt_ext (Bitmap.digits_sorted bm)
    · have hsorted := keySorted_iff.mp h.suffix_sorted
      rwa [suffix, List.map_map] at hsorted
    · intro b
      rw [Bitmap.mem_digits, hbm, testBit_foldl_set]
      simp only [Nat.zero_testBit, Bool.false_eq_true, false_or, List.mem_map, digit_one]
      constructor
      · rintro ⟨-, hb⟩
        exact hb
      · rintro ⟨e, he, rfl⟩
        exact ⟨low_lt e.1 1, e, he, rfl⟩
  have hcount : Bitmap.count bm ≠ 0 := by
    rw [Bitmap.count, hdigits, List.length_map]
    have := h.one_le
    omega
  obtain ⟨e, he, hw, hent⟩ := buildLeafFromBitmap_spec (V := V) hlo h1 h7
    (slice_lt (firstKey l) 1 L) hcount
  refine ⟨e, ?_, hw, ?_⟩
  · unfold buildTerminal
    simp only
    rw [hdv, ← hbm, he]
  · rw [hent, hdigits, List.map_map, suffix]
    apply List.map_congr_left
    intro x hx
    simp only [Function.comp, Prod.mk.injEq]
    refine ⟨?_, (hV x.2).symm⟩
    rw [low_eq_slice h1 x.1, h.slice_eq hx, pow_one]

end SetTerminal

theorem buildSubtree_spec (hlo : ∀ L kb, lo L kb ≤ Flavour.set.immedMax L)
    (hV : ∀ v : V, v = default) {fuel : ℕ} (h : Group L l) (h1 : 1 ≤ L) (h8 : L ≤ 8)
    (hfuel : L < fuel) : ∃ e, buildSubtree fuel l L = .ok e ∧ Built .set lo L l e := by
  induction fuel generalizing L l with
  | zero => omega
  | succ fuel ih =>
    rw [buildSubtree]
    simp only
    by_cases hL : L = 8
    · rw [if_pos hL]
      subst hL
      exact buildBranchFromKeys_spec h (by decide) le_rfl le_rfl (fun _ => rfl)
        fun run hr => ih hr (by decide) (by decide) (by omega)
    · have h7 : L ≤ 7 := by omega
      have himm := immedMax_pos .set h1 h7
      rw [if_neg hL]
      split_ifs with hone hn hcap hbl
      · exact ⟨_, rfl, built_immed h h1 h7 (by omega)⟩
      · exact ⟨_, rfl, built_immed h h1 h7 hn⟩
      · exact ⟨_, rfl, built_leaf hlo h h1 h7 (by omega) hcap⟩
      · obtain ⟨-, -, hg⟩ := h.diverge (by omega)
        rw [hbl] at hg
        exact buildTerminal_spec hlo hV hg h1 h7
      · obtain ⟨hd1, hdL, hg⟩ := h.diverge (by omega)
        exact buildBranchFromKeys_spec hg (by omega) hdL h8 (by omega)
          fun run hr => ih hr (by omega) (by omega) (by omega)

theorem buildMapSubtree_spec (hlo : ∀ L kb, lo L kb ≤ Flavour.map.immedMax L) {fuel : ℕ}
    (h : Group L l) (h1 : 1 ≤ L) (h8 : L ≤ 8) (hfuel : L < fuel) :
    ∃ e, buildMapSubtree fuel l L = .ok e ∧ Built .map lo L l e := by
  induction fuel generalizing L l with
  | zero => omega
  | succ fuel ih =>
    rw [buildMapSubtree]
    simp only
    by_cases hL : L = 8
    · rw [if_pos hL]
      subst hL
      exact buildBranchFromKeys_spec h (by decide) le_rfl le_rfl (fun _ => rfl)
        fun run hr => ih hr (by decide) (by decide) (by omega)
    · have h7 : L ≤ 7 := by omega
      have himm := immedMax_pos .map h1 h7
      rw [if_neg hL]
      by_cases hn : l.length ≤ Flavour.map.immedMax L
      · rw [if_pos hn]
        exact ⟨_, rfl, built_immed h h1 h7 hn⟩
      rw [if_neg hn]
      by_cases hcap : l.length ≤ leafCap L
      · rw [if_pos hcap]
        exact ⟨_, rfl, built_leaf hlo h h1 h7 (by omega) hcap⟩
      rw [if_neg hcap]
      -- at level 1 the keys part in their only byte
      have hbl : ∃ bl, (if L = 1 then 1 else divergenceLevel (firstKey l) (lastKey l) L) = bl ∧
          1 ≤ bl ∧ bl ≤ L ∧ Group bl l := by
        split_ifs with hone
        · exact ⟨1, rfl, le_rfl, h1, hone ▸ h⟩
        · exact ⟨_, rfl, h.diverge (by omega)⟩
      obtain ⟨bl, hbl, hd1, hdL, hg⟩ := hbl
      rw [hbl]
      by_cases hone : bl = 1
      · subst hone
        have hcap25 : LEAF1_CAP ≤ leafCap L := by
          unfold leafCap
          split_ifs <;> decide
        have hlen : l.length - 1 < 256 := by
          have := hg.length_le
          omega
        have hdown : LEAFB1_DOWN ≤ LEAF1_CAP := by decide
        rw [if_pos rfl, buildBitmapLeafMap_low]
        obtain ⟨hslice, hpop⟩ : slice (if 1 < L then Aux.writeDecode (Aux.setPop0 0 1 (l.length - 1)) 1 L
            (firstKey l) else Aux.setPop0 0 1 (l.length - 1)) 1 L = slice (firstKey l) 1 L ∧
            Aux.pop0 (if 1 < L then Aux.writeDecode (Aux.setPop0 0 1 (l.length - 1)) 1 L
              (firstKey l) else Aux.setPop0 0 1 (l.length - 1)) 1 = l.length - 1 := by
          split_ifs with hlt
          · exact ⟨slice_writeDecode h1, stamp_pop0 (by simpa using hlen) h1⟩
          · rw [show L = 1 by omega, slice_self, slice_self]
            exact ⟨rfl, Aux.pop0_setPop0 (by simpa using hlen)⟩
        obtain ⟨hshape, hent⟩ := bitmap_of_entries .map lo (p := slice (firstKey l) 1 L) (E := suffix L l)
          h.suffix_sorted h1 h7 (by
            intro k v hm
            obtain ⟨x, hx, hkx⟩ := List.mem_map.mp hm
            cases hkx
            rw [low_low h1, low_eq_slice h1 x.1, hg.slice_eq hx])
          (by rw [length_suffix]; omega) (by rw [length_suffix, hpop]; omega) hslice
        have hsame : buildBitmapLeafSet (suffix L l) = buildBitmapLeafSet l := by
          rw [buildBitmapLeafSet, buildBitmapLeafSet, suffix, List.map_map]
          congr 1
          apply List.map_congr_left
          intro x _
          simp only [Function.comp, low_low h1]
        rw [hsame] at hshape hent
        exact ⟨_, rfl, ⟨hshape, trivial⟩, hent⟩
      · rw [if_neg hone]
        exact buildBranchFromKeys_spec hg (by omega) hdL h8 (by omega)
          fun run hr => ih hr (by omega) (by omega) (by omega)

end Edge

end Expanse
