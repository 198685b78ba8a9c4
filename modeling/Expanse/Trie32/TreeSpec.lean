import Expanse.Trie32.Tree

/-!
# Trees answer as sorted lists

On a tree that keeps its forms, an insertion is `put` on the entries and a removal is `del`,
both answer with what the key was bound to, and both keep the forms.
-/

namespace Expanse.Trie32

open Radix SortedAssoc

variable {fl : Flavour} {kb rem val d : ℕ} {l l₁ l₂ : List (ℕ × ℕ)} {form : Form}
  {kids k₁ k₂ : List (ℕ × Tree)} {c c' t : Tree}

theorem digit_lt' (rem kb : ℕ) : digitAt rem kb < 256 := digit_lt rem kb

theorem eq_digit_child (h : rem < 256 ^ (kb + 1)) :
    rem = digitAt rem (kb + 1) * 256 ^ kb + childRem rem (kb + 1) := by
  have hd : digitAt rem (kb + 1) = rem / 256 ^ kb := by
    rw [digitAt, digit, Nat.add_sub_cancel, Nat.mod_eq_of_lt]
    rw [Nat.div_lt_iff_lt_mul (pow_pos' kb), Nat.mul_comm]
    exact lt_of_lt_of_eq h (by rw [Nat.pow_succ])
  rw [hd]
  exact (low_div_add rem kb).symm

theorem childRem_lt (rem kb : ℕ) : childRem rem (kb + 1) < 256 ^ kb := low_lt rem kb

namespace Held

theorem put (h : Held fl kb l) (hr : rem < 256 ^ kb) (hv : val < 256 ^ valueWidth fl) :
    Held fl kb (put rem val l) := by
  refine ⟨fun e he => ?_, h.sorted.put rem val⟩
  rcases (mem_put h.sorted).mp (show (e.1, e.2) ∈ _ from he) with ⟨h1, h2⟩ | ⟨-, hm⟩
  · rw [h1, h2]
    exact ⟨hr, hv⟩
  · exact h.fit _ hm

theorem del (h : Held fl kb l) (rem : ℕ) : Held fl kb (del rem l) :=
  ⟨fun e he => h.fit e (List.mem_filter.mp he).1, h.sorted.del rem⟩

theorem single (hr : rem < 256 ^ kb) (hv : val < 256 ^ valueWidth fl) : Held fl kb [(rem, val)] := by
  refine ⟨fun e he => ?_, by simp [KeySorted]⟩
  rw [List.mem_singleton.mp he]
  exact ⟨hr, hv⟩

end Held

theorem length_put_some (val : ℕ) (hs : KeySorted l) (h : (l.lookup rem).isSome) :
    (put rem val l).length = l.length := by
  rcases hs.cut_cases rem with ⟨l₁, w, l₂, rfl, hcut⟩ | ⟨l₁, l₂, rfl, hcut⟩
  · rw [put_cut_mem hcut]
    simp
  · rw [lookup_eq_none hs hcut.not_mem] at h
    cases h

theorem length_put_none (val : ℕ) (hs : KeySorted l) (h : l.lookup rem = none) :
    (put rem val l).length = l.length + 1 := by
  rcases hs.cut_cases rem with ⟨l₁, w, l₂, rfl, hcut⟩ | ⟨l₁, l₂, rfl, hcut⟩
  · rw [lookup_cut hs] at h
    cases h
  · rw [put_cut_new hcut]
    simp only [List.length_append, List.length_cons]
    omega

theorem length_del_some (hs : KeySorted l) (h : (l.lookup rem).isSome) :
    (del rem l).length + 1 = l.length := by
  rcases hs.cut_cases rem with ⟨l₁, w, l₂, rfl, hcut⟩ | ⟨l₁, l₂, rfl, hcut⟩
  · rw [del_cut_mem hcut]
    simp only [List.length_append, List.length_cons]
    omega
  · rw [lookup_eq_none hs hcut.not_mem] at h
    cases h

theorem del_none (hs : KeySorted l) (h : l.lookup rem = none) : del rem l = l :=
  del_of_not_mem fun v hv => by
    rw [lookup_of_mem hs hv] at h
    cases h

/-- An immediate that is full fits a leaf, with one entry more. -/
theorem immedCap_lt_leafTop (fl : Flavour) (kb : ℕ) :
    immedCap fl (kb + 1) + 1 ≤ leafTop fl (kb + 1) := by
  have h7 : setImmedCap (kb + 1) ≤ 7 := Nat.div_le_self 7 _
  unfold immedCap leafTop
  cases fl <;> simp only [bitmapEnter, leafMax, SET_BITMAP_ENTER, SET_LEAF_MAX, MAP_BITMAP_ENTER,
    MAP_LEAF_MAX] <;> split_ifs <;> omega

namespace Tree

@[simp] theorem isNull_iff : t.isNull = true ↔ t = null := by
  cases t <;> simp [isNull]

@[simp] theorem entries_null : entries kb null = [] := by cases kb <;> rfl

@[simp] theorem entries_immed : entries kb (immed l) = l := by cases kb <;> rfl

@[simp] theorem entries_leaf : entries kb (leaf l) = l := by cases kb <;> rfl

@[simp] theorem entries_bitmap : entries kb (bitmap l) = l := by cases kb <;> rfl

theorem entries_branch : entries (kb + 1) (branch form kids) = fanout (256 ^ kb) (entries kb) kids := rfl

theorem ok_null : Ok fl kb null := by cases kb <;> trivial

theorem ok_immed : Ok fl kb (immed l) ↔ Held fl kb l ∧ 1 ≤ l.length ∧ l.length ≤ immedCap fl kb := by
  cases kb <;> rfl

theorem ok_leaf : Ok fl kb (leaf l) ↔
    Held fl kb l ∧ immedCap fl kb < l.length ∧ l.length ≤ leafTop fl kb := by
  cases kb <;> rfl

theorem ok_bitmap : Ok fl kb (bitmap l) ↔ kb = 1 ∧ Held fl 1 l ∧ bitmapLeave fl < l.length := by
  cases kb <;> rfl

/-- The children of a branch, or of the empty one that a leaf is spread into. -/
structure Fork (fl : Flavour) (kb : ℕ) (form : Form) (kids : List (ℕ × Tree)) : Prop where
  one_le : 1 ≤ kb
  sorted : KeySorted kids
  down : form.downAt ≤ kids.length - 1
  cap : kids.length ≤ form.cap
  kids : ∀ c ∈ kids, c.1 < 256 ∧ c.2 ≠ null ∧ Ok fl kb c.2

theorem ok_branch : Ok fl (kb + 1) (branch form kids) ↔ Fork fl kb form kids ∧ kids ≠ [] := by
  constructor
  · rintro ⟨h1, h2, h3, h4, h5⟩
    exact ⟨⟨h1, h2, by omega, h4, h5⟩, List.ne_nil_of_length_pos (Nat.zero_lt_of_lt h3)⟩
  · rintro ⟨⟨h1, h2, h3, h4, h5⟩, hne⟩
    have := List.length_pos_of_ne_nil hne
    exact ⟨h1, h2, by omega, h4, h5⟩

/-- Entries fit the slot, ascend, and there are some unless the tree is null. -/
theorem Ok.held (h : Ok fl kb t) : Held fl kb (entries kb t) ∧ (t ≠ null → entries kb t ≠ []) := by
  induction kb generalizing t with
  | zero =>
    cases t with
    | null => exact ⟨⟨by simp [Fit], by simp [KeySorted]⟩, fun hn => absurd rfl hn⟩
    | immed l => exact ⟨(ok_immed.mp h).1, fun _ => List.ne_nil_of_length_pos (ok_immed.mp h).2.1⟩
    | leaf l =>
      exact ⟨(ok_leaf.mp h).1, fun _ => List.ne_nil_of_length_pos (Nat.zero_lt_of_lt (ok_leaf.mp h).2.1)⟩
    | bitmap l => exact absurd (ok_bitmap.mp h).1 (by decide)
    | branch form kids => exact absurd h id
  | succ kb ih =>
    cases t with
    | null => exact ⟨⟨by simp [Fit], by simp [KeySorted]⟩, fun hn => absurd rfl hn⟩
    | immed l => exact ⟨(ok_immed.mp h).1, fun _ => List.ne_nil_of_length_pos (ok_immed.mp h).2.1⟩
    | leaf l =>
      exact ⟨(ok_leaf.mp h).1, fun _ => List.ne_nil_of_length_pos (Nat.zero_lt_of_lt (ok_leaf.mp h).2.1)⟩
    | bitmap l =>
      obtain ⟨hkb, hl, hlen⟩ := ok_bitmap.mp h
      rw [hkb, entries_bitmap]
      exact ⟨hl, fun _ => List.ne_nil_of_length_pos (Nat.zero_lt_of_lt hlen)⟩
    | branch form kids =>
      obtain ⟨hb, hne⟩ := ok_branch.mp h
      have hn : Narrow (256 ^ kb) (entries kb) kids := fun c hc e he =>
        ((ih (hb.kids c hc).2.2).1.fit e he).1
      rw [entries_branch]
      refine ⟨⟨fun e he => ⟨?_, ?_⟩, ?_⟩, fun _ => ?_⟩
      · have := fanout_lt hn (fun a ha => (hb.kids a ha).1) e he
        rw [Nat.pow_succ, Nat.mul_comm]
        exact this
      · obtain ⟨a, ha, y, hy, -⟩ := mem_fanout.mp (show (e.1, e.2) ∈ _ from he)
        exact ((ih (hb.kids a ha).2.2).1.fit _ hy).2
      · exact keySorted_fanout hb.sorted hn fun a ha => (ih (hb.kids a ha).2.2).1.sorted
      · cases kids with
        | nil => exact absurd rfl hne
        | cons a kids =>
          obtain ⟨d, c⟩ := a
          obtain ⟨-, hlive, hc⟩ := hb.kids (d, c) List.mem_cons_self
          rw [fanout_cons]
          intro hnil
          exact (ih hc).2 hlive (List.map_eq_nil_iff.mp (List.append_eq_nil_iff.mp hnil).1)

theorem Ok.sorted (h : Ok fl kb t) : KeySorted (entries kb t) := h.held.1.sorted

theorem Fork.narrow (h : Fork fl kb form kids) : Narrow (256 ^ kb) (entries kb) kids :=
  fun c hc e he => ((h.kids c hc).2.2.held.1.fit e he).1

theorem find_eq (h : Ok fl kb t) (hr : rem < 256 ^ kb) : find kb t rem = (entries kb t).lookup rem := by
  induction kb generalizing t rem with
  | zero => cases t <;> rfl
  | succ kb ih =>
    cases t with
    | branch form kids =>
      have hb := (ok_branch.mp h).1
      have hn := hb.narrow
      have hcr := childRem_lt rem kb
      rw [entries_branch, find]
      rcases hb.sorted.cut_cases (digitAt rem (kb + 1)) with ⟨k₁, c, k₂, rfl, hcut⟩ | ⟨k₁, k₂, rfl, hcut⟩
      · have hlook := lookup_fanout_mem hcut hcr hn
        rw [← eq_digit_child hr] at hlook
        rw [lookup_cut hb.sorted, Option.bind_some, ih
          (hb.kids (digitAt rem (kb + 1), c) (by simp)).2.2 hcr, hlook]
      · have hlook := lookup_fanout_new hcut hcr hn
        rw [← eq_digit_child hr] at hlook
        rw [lookup_eq_none hb.sorted hcut.not_mem, hlook]
        rfl
    | _ => rfl

/-- The outcome of an insertion. -/
structure Puts (fl : Flavour) (kb : ℕ) (t : Tree) (rem val : ℕ) (r : Option ℕ × Tree) : Prop where
  prev : r.1 = (Tree.entries kb t).lookup rem
  ok : Ok fl kb r.2
  live : r.2 ≠ null
  entries : Tree.entries kb r.2 = put rem val (Tree.entries kb t)

theorem fork_start (h : 1 ≤ kb) : Fork fl kb .l2 [] where
  one_le := h
  sorted := List.Pairwise.nil
  down := le_rfl
  cap := by decide
  kids := by simp

theorem Fork.replace (h : Fork fl kb form (k₁ ++ (d, c) :: k₂)) (hc : c' ≠ null) (hok : Ok fl kb c') :
    Fork fl kb form (k₁ ++ (d, c') :: k₂) where
  one_le := h.one_le
  sorted := keySorted_cut h.sorted.of_cut.1 h.sorted.of_cut.2.1 h.sorted.of_cut.2.2 c'
  down := by simpa using h.down
  cap := by simpa using h.cap
  kids a ha := by
    rcases List.mem_append.mp ha with ha | ha
    · exact h.kids a (List.mem_append_left _ ha)
    · rcases List.mem_cons.mp ha with rfl | ha
      · exact ⟨(h.kids (d, c) (by simp)).1, hc, hok⟩
      · exact h.kids a (by simp [ha])

/-- A branch with a digit more is in a form that admits it. -/
theorem grown_bounds {n : ℕ} (hdown : form.downAt ≤ n - 1) (hcap : n ≤ form.cap) (h256 : n + 1 ≤ 256) :
    (form.grown (n + 1)).downAt ≤ n ∧ n + 1 ≤ (form.grown (n + 1)).cap := by
  unfold Form.grown
  split_ifs with hle
  · exact ⟨by omega, hle⟩
  · cases form with
    | u => exact absurd h256 hle
    | _ =>
      simp only [Form.up, Form.downAt, Form.cap, BRANCH_L2_CAP, BRANCH_L6_CAP, BRANCH_B_TO_UNCOMPRESSED,
        BRANCH_L6_DOWN, BRANCH_B_DOWN, BRANCH_U_DOWN] at *
      omega

theorem Fork.insert (h : Fork fl kb form (k₁ ++ k₂)) (hcut : CutAt d k₁ k₂) (hd : d < 256) (hc : c ≠ null)
    (hok : Ok fl kb c) : Fork fl kb (form.grown ((k₁ ++ k₂).length + 1)) (k₁ ++ (d, c) :: k₂) := by
  have hs := keySorted_cut h.sorted.of_append.1 h.sorted.of_append.2 hcut c
  have hkids : ∀ a ∈ k₁ ++ (d, c) :: k₂, a.1 < 256 ∧ a.2 ≠ null ∧ Ok fl kb a.2 := by
    intro a ha
    rcases List.mem_append.mp ha with ha | ha
    · exact h.kids a (List.mem_append_left _ ha)
    · rcases List.mem_cons.mp ha with rfl | ha
      · exact ⟨hd, hc, hok⟩
      · exact h.kids a (List.mem_append_right _ ha)
  have hlen : (k₁ ++ (d, c) :: k₂).length = (k₁ ++ k₂).length + 1 := by
    simp only [List.length_append, List.length_cons]
    omega
  have h256 : (k₁ ++ (d, c) :: k₂).length ≤ 256 := hs.length_le fun x hx => by
    obtain ⟨a, ha, rfl⟩ := List.mem_map.mp hx
    exact (hkids a ha).1
  obtain ⟨hdown, hcap⟩ := grown_bounds h.down h.cap (hlen ▸ h256)
  exact ⟨h.one_le, hs, by omega, by omega, hkids⟩

theorem intoBranch_spec (ins : Tree → ℕ → ℕ → Option ℕ × Tree) (h : Fork fl kb form kids)
    (hr : rem < 256 ^ (kb + 1))
    (ih : ∀ t rem, Ok fl kb t → rem < 256 ^ kb → Puts fl kb t rem val (ins t rem val)) :
    ∃ form' kids', intoBranch ins kb (branch form kids) rem val =
        ((fanout (256 ^ kb) (Tree.entries kb) kids).lookup rem, branch form' kids') ∧
      Fork fl kb form' kids' ∧
      fanout (256 ^ kb) (Tree.entries kb) kids' = put rem val (fanout (256 ^ kb) (Tree.entries kb) kids) := by
  have hcr := childRem_lt rem kb
  have hn := h.narrow
  unfold intoBranch
  dsimp only
  rcases h.sorted.cut_cases (digitAt rem (kb + 1)) with ⟨k₁, c, k₂, rfl, hcut⟩ | ⟨k₁, k₂, rfl, hcut⟩
  · obtain ⟨hprev, hok, hlive, hent⟩ := ih c _ (h.kids (digitAt rem (kb + 1), c) (by simp)).2.2 hcr
    have hlook := lookup_fanout_mem hcut hcr hn
    have hput := put_fanout_mem hcut hcr hn hent
    rw [← eq_digit_child hr] at hlook hput
    rw [lookup_cut h.sorted]
    dsimp only
    rw [put_cut_mem hcut, hlook, hput, hprev]
    exact ⟨form, _, rfl, h.replace hlive hok, rfl⟩
  · obtain ⟨-, hok, hlive, hent⟩ := ih null _ ok_null hcr
    have hlook := lookup_fanout_new hcut hcr hn
    have hput := put_fanout_new hcut hcr hn (c := (ins null (childRem rem (kb + 1)) val).2)
      (by rw [hent, entries_null]; rfl)
    rw [← eq_digit_child hr] at hlook hput
    rw [lookup_eq_none h.sorted hcut.not_mem, put_cut_new hcut, hlook, hput]
    exact ⟨_, _, rfl, h.insert hcut (digit_lt' rem (kb + 1)) hlive hok, rfl⟩

theorem spread_spec (ins : Tree → ℕ → ℕ → Option ℕ × Tree) {es : List (ℕ × ℕ)}
    (h : Fork fl kb form kids) (hes : Fit (valueWidth fl) (kb + 1) es)
    (ih : ∀ t rem val, Ok fl kb t → rem < 256 ^ kb → val < 256 ^ valueWidth fl →
      Puts fl kb t rem val (ins t rem val)) :
    ∃ form' kids', es.foldl (fun t e => (intoBranch ins kb t e.1 e.2).2) (branch form kids) =
        branch form' kids' ∧ Fork fl kb form' kids' ∧
      fanout (256 ^ kb) (Tree.entries kb) kids' =
        es.foldl (fun m e => put e.1 e.2 m) (fanout (256 ^ kb) (Tree.entries kb) kids) := by
  induction es generalizing form kids with
  | nil => exact ⟨form, kids, rfl, h, rfl⟩
  | cons e es hi =>
    obtain ⟨hk, hv⟩ := hes e List.mem_cons_self
    obtain ⟨form₁, kids₁, he, h₁, hput⟩ := intoBranch_spec ins h hk fun t rem ht hr => ih t rem e.2 ht hr hv
    obtain ⟨form₂, kids₂, he₂, h₂, hput₂⟩ := hi h₁ fun x hx => hes x (List.mem_cons_of_mem e hx)
    rw [List.foldl_cons, List.foldl_cons, he, ← hput]
    exact ⟨form₂, kids₂, he₂, h₂, hput₂⟩

theorem insert_spec (h : Ok fl kb t) (h1 : 1 ≤ kb) (hr : rem < 256 ^ kb) (hv : val < 256 ^ valueWidth fl) :
    Puts fl kb t rem val (insert fl kb t rem val) := by
  induction kb generalizing t rem val with
  | zero => omega
  | succ kb ih =>
    have hsingle : Held fl (kb + 1) [(rem, val)] := .single hr hv
    cases t with
    | null =>
      rw [insert]
      split_ifs with hcap
      · exact ⟨by simp, ok_immed.mpr ⟨hsingle, le_rfl, hcap⟩, by simp, by simp [put]⟩
      · refine ⟨by simp, ok_leaf.mpr ⟨hsingle, by simpa using hcap, ?_⟩, by simp, by simp [put]⟩
        exact le_trans (Nat.le_add_left 1 _) (immedCap_lt_leafTop fl kb)
    | immed l =>
      obtain ⟨hl, hone, hcap⟩ := ok_immed.mp h
      have hput := hl.put hr hv
      rw [insert]
      cases hlk : l.lookup rem with
      | some v =>
        have hlen := length_put_some val hl.sorted (by rw [hlk]; rfl)
        rw [if_pos (.inl rfl)]
        exact ⟨by simp [hlk], ok_immed.mpr ⟨hput, by omega, by omega⟩, by simp, by simp⟩
      | none =>
        have hlen := length_put_none val hl.sorted hlk
        by_cases hroom : l.length < immedCap fl (kb + 1)
        · rw [if_pos (.inr hroom)]
          exact ⟨by simp [hlk], ok_immed.mpr ⟨hput, by omega, by omega⟩, by simp, by simp⟩
        · rw [if_neg (by simpa using hroom)]
          refine ⟨by simp [hlk], ok_leaf.mpr ⟨hput, by omega, ?_⟩, by simp, by simp⟩
          have hcaps : immedCap fl (kb + 1) + 1 ≤ leafTop fl (kb + 1) := immedCap_lt_leafTop fl kb
          omega
    | leaf l =>
      obtain ⟨hl, hmin, hmax⟩ := ok_leaf.mp h
      have hput := hl.put hr hv
      rw [insert]
      cases hlk : l.lookup rem with
      | some v =>
        have hlen := length_put_some val hl.sorted (by rw [hlk]; rfl)
        exact ⟨by simp [hlk], ok_leaf.mpr ⟨hput, by omega, by omega⟩, by simp, by simp⟩
      | none =>
        have hlen := length_put_none val hl.sorted hlk
        simp only [Option.isSome_none, Bool.false_eq_true, if_false]
        split_ifs with hbit hover
        · refine ⟨by simp [hlk], ok_bitmap.mpr ⟨by omega, by simpa [hbit.1] using hput, ?_⟩, by simp, by simp⟩
          have : bitmapLeave fl ≤ bitmapEnter fl := by cases fl <;> decide
          omega
        · have hes : Fit (valueWidth fl) (kb + 1) (l ++ [(rem, val)]) := by
            intro e he
            rcases List.mem_append.mp he with he | he
            · exact hl.fit e he
            · rw [List.mem_singleton.mp he]
              exact ⟨hr, hv⟩
          obtain ⟨form', kids', he, hf, hfan⟩ := spread_spec (insert fl kb)
            (fork_start hover.1) hes fun t rem val ht hr hv => ih ht hover.1 hr hv
          have hent : fanout (256 ^ kb) (Tree.entries kb) kids' = put rem val l := by
            rw [hfan, fanout_nil, List.foldl_append, foldl_put (l := []) hl.sorted]
            rfl
          refine ⟨by simp [hlk], ?_, ?_, ?_⟩
          · rw [spread, he, ok_branch]
            refine ⟨hf, ?_⟩
            rintro rfl
            exact put_ne_nil hent.symm
          · rw [spread, he]
            simp
          · rw [spread, he, entries_branch, hent, entries_leaf]
        · refine ⟨by simp [hlk], ok_leaf.mpr ⟨hput, by omega, ?_⟩, by simp, by simp⟩
          unfold leafTop at hmax ⊢
          split_ifs at hmax ⊢ <;> omega
    | bitmap l =>
      obtain ⟨hkb, hl, hmin⟩ := ok_bitmap.mp h
      rw [hkb] at hr
      have hlen : l.length ≤ (put rem val l).length := by
        cases hlk : l.lookup rem with
        | some v => rw [length_put_some val hl.sorted (by rw [hlk]; rfl)]
        | none =>
          rw [length_put_none val hl.sorted hlk]
          omega
      rw [insert]
      exact ⟨by simp, ok_bitmap.mpr ⟨hkb, hl.put hr hv, by omega⟩, by simp, by simp⟩
    | branch form kids =>
      have hb := (ok_branch.mp h).1
      obtain ⟨form', kids', he, hf, hfan⟩ := intoBranch_spec (insert fl kb) hb hr
        fun t rem ht hr => ih ht hb.one_le hr hv
      rw [insert, he]
      refine ⟨rfl, ok_branch.mpr ⟨hf, ?_⟩, by simp, hfan⟩
      rintro rfl
      exact put_ne_nil hfan.symm

/-- An insertion overflows only below as many entries as a leaf holds. -/
theorem Overflows.large (ho : Overflows fl kb t rem) (h : Ok fl kb t) : leafMax fl ≤ (entries kb t).length := by
  induction kb generalizing t rem with
  | zero => exact absurd ho (by cases t <;> exact id)
  | succ kb ih =>
    cases t with
    | leaf l =>
      obtain ⟨-, hlt, -⟩ := ho
      rw [entries_leaf]
      omega
    | branch form kids =>
      obtain ⟨c, hc, hov⟩ := ho
      have hb := (ok_branch.mp h).1
      obtain ⟨k₁, k₂, rfl, -⟩ := exists_cut_of_mem hb.sorted ((lookup_eq_some_iff hb.sorted).mp hc)
      have hlarge := ih hov (hb.kids (_, c) (List.mem_append_right k₁ List.mem_cons_self)).2.2
      rw [entries_branch, length_fanout, List.map_append, List.map_cons, List.sum_append, List.sum_cons]
      dsimp only
      omega
    | _ => exact absurd ho id

theorem Fork.large (hb : Fork fl kb form kids) (h : Overflows fl (kb + 1) (branch form kids) rem) :
    leafMax fl ≤ (fanout (256 ^ kb) (entries kb) kids).length := by
  have hne : kids ≠ [] := by
    rintro rfl
    obtain ⟨c, hc, -⟩ := h
    cases hc
  exact h.large (ok_branch.mpr ⟨hb, hne⟩)

/-- The outcome of a removal. -/
structure Takes (fl : Flavour) (kb : ℕ) (t : Tree) (rem : ℕ) (r : Option ℕ × Tree) : Prop where
  prev : r.1 = (Tree.entries kb t).lookup rem
  ok : Ok fl kb r.2
  entries : Tree.entries kb r.2 = del rem (Tree.entries kb t)

theorem shrunkLeaf_spec (hl : Held fl kb l) (hmax : l.length ≤ leafTop fl kb) :
    Ok fl kb (shrunkLeaf fl kb l) ∧ entries kb (shrunkLeaf fl kb l) = l := by
  unfold shrunkLeaf
  split_ifs with hnil hcap
  · exact ⟨ok_null, by rw [entries_null, List.length_eq_zero_iff.mp hnil]⟩
  · exact ⟨ok_immed.mpr ⟨hl, by omega, hcap⟩, entries_immed⟩
  · exact ⟨ok_leaf.mpr ⟨hl, by omega, hmax⟩, entries_leaf⟩

theorem shrunk_bounds {n : ℕ} (hn : 1 ≤ n) (hdown : form.downAt ≤ n) (hcap : n + 1 ≤ form.cap) :
    (form.shrunk n).downAt ≤ n - 1 ∧ n ≤ (form.shrunk n).cap := by
  unfold Form.shrunk
  by_cases hle : n ≤ form.downAt
  · rw [if_pos hle]
    cases form <;> simp only [Form.down, Form.downAt, Form.cap, BRANCH_L2_CAP, BRANCH_L6_CAP,
      BRANCH_B_TO_UNCOMPRESSED, BRANCH_L6_DOWN, BRANCH_B_DOWN, BRANCH_U_DOWN] at * <;> omega
  · rw [if_neg hle]
    exact ⟨by omega, by omega⟩

theorem Fork.drop (h : Fork fl kb form (k₁ ++ (d, c) :: k₂)) (hne : k₁ ++ k₂ ≠ []) :
    Fork fl kb (form.shrunk (k₁ ++ k₂).length) (k₁ ++ k₂) := by
  have hlen : (k₁ ++ (d, c) :: k₂).length = (k₁ ++ k₂).length + 1 := by
    simp only [List.length_append, List.length_cons]
    omega
  have hdown := h.down
  have hcap := h.cap
  rw [hlen] at hdown hcap
  obtain ⟨hdown', hcap'⟩ := shrunk_bounds (List.length_pos_of_ne_nil hne) hdown hcap
  refine ⟨h.one_le, ?_, hdown', hcap', fun a ha => ?_⟩
  · exact h.sorted.sublist ((List.Sublist.refl k₁).append (List.sublist_cons_self _ k₂))
  · refine h.kids a ?_
    rcases List.mem_append.mp ha with ha | ha
    · exact List.mem_append_left _ ha
    · exact List.mem_append_right _ (List.mem_cons_of_mem _ ha)

theorem remove_spec (h : Ok fl kb t) (h1 : 1 ≤ kb) (hr : rem < 256 ^ kb) :
    Takes fl kb t rem (remove fl kb t rem) := by
  induction kb generalizing t rem with
  | zero => omega
  | succ kb ih =>
    cases t with
    | null => exact ⟨by simp [remove], ok_null, by simp [remove, del]⟩
    | immed l =>
      obtain ⟨hl, hone, hcap⟩ := ok_immed.mp h
      have hle : (del rem l).length ≤ l.length := List.length_filter_le _ _
      have hcaps := immedCap_lt_leafTop fl kb
      obtain ⟨hok, hent⟩ := shrunkLeaf_spec (hl.del rem) (by omega)
      rw [remove]
      exact ⟨by simp, hok, by simpa using hent⟩
    | leaf l =>
      obtain ⟨hl, hmin, hmax⟩ := ok_leaf.mp h
      have hle : (del rem l).length ≤ l.length := List.length_filter_le _ _
      rw [remove]
      cases hlk : l.lookup rem with
      | some v =>
        obtain ⟨hok, hent⟩ := shrunkLeaf_spec (hl.del rem) (by omega)
        exact ⟨by simp [hlk], hok, by simpa using hent⟩
      | none => exact ⟨by simp [hlk], h, by simp [del_none hl.sorted hlk]⟩
    | bitmap l =>
      obtain ⟨hkb, hl, hmin⟩ := ok_bitmap.mp h
      rw [hkb, remove]
      split_ifs with hlow
      · have htop : (del rem l).length ≤ leafTop fl 1 := le_trans hlow.2 (by cases fl <;> decide)
        obtain ⟨hok, hent⟩ := shrunkLeaf_spec (hl.del rem) htop
        exact ⟨by simp, hok, by simpa using hent⟩
      · refine ⟨by simp, ok_bitmap.mpr ⟨rfl, hl.del rem, ?_⟩, by simp⟩
        cases hlk : l.lookup rem with
        | some v =>
          rw [hlk] at hlow
          simpa using hlow
        | none => rwa [del_none hl.sorted hlk]
    | branch form kids =>
      obtain ⟨hb, hne⟩ := ok_branch.mp h
      have hcr := childRem_lt rem kb
      have hn := hb.narrow
      rw [remove]
      dsimp only
      rcases hb.sorted.cut_cases (digitAt rem (kb + 1)) with ⟨k₁, c, k₂, rfl, hcut⟩ | ⟨k₁, k₂, rfl, hcut⟩
      · obtain ⟨hprev, hok, hent⟩ := ih (hb.kids (digitAt rem (kb + 1), c) (by simp)).2.2 hb.one_le hcr
        have hlook := lookup_fanout_mem hcut hcr hn
        have hdel := del_fanout_mem hcut hcr hn hent
        rw [← eq_digit_child hr, ← hprev] at hlook
        rw [← eq_digit_child hr] at hdel
        rw [lookup_cut hb.sorted]
        dsimp only
        split_ifs with hmiss hnull hlast
        · refine ⟨hlook.symm, h, ?_⟩
          rw [entries_branch, del_none (keySorted_fanout hb.sorted hn fun a ha =>
            (hb.kids a ha).2.2.sorted) (by rw [hlook]; simpa using hmiss)]
        · rw [isNull_iff] at hnull
          rw [del_cut_mem hcut] at hlast
          refine ⟨hlook.symm, ok_null, ?_⟩
          rw [entries_branch, hdel, fanout_drop (by rw [hnull, entries_null]), hlast]
          exact entries_null
        · rw [isNull_iff] at hnull
          rw [del_cut_mem hcut] at hlast ⊢
          refine ⟨hlook.symm, ok_branch.mpr ⟨hb.drop hlast, hlast⟩, ?_⟩
          rw [entries_branch, entries_branch, hdel, fanout_drop (by rw [hnull, entries_null])]
        · rw [isNull_iff] at hnull
          rw [put_cut_mem hcut]
          exact ⟨hlook.symm, ok_branch.mpr ⟨hb.replace hnull hok, by simp⟩, by
            rw [entries_branch, entries_branch, hdel]⟩
      · have hlook := lookup_fanout_new hcut hcr hn
        rw [← eq_digit_child hr] at hlook
        rw [lookup_eq_none hb.sorted hcut.not_mem]
        refine ⟨hlook.symm, h, ?_⟩
        rw [entries_branch, del_none (keySorted_fanout hb.sorted hn fun a ha =>
          (hb.kids a ha).2.2.sorted) hlook]

end Tree

end Expanse.Trie32
