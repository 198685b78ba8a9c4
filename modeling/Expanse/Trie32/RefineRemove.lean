import Expanse.Trie32.RefineInsert

/-!
# Removals follow the trees

The removal of the arena does to the stored tree what `Tree.remove` does. Each level takes at most
one allocation and two retirements.
-/

namespace Expanse.Trie32

open Packed Radix SortedAssoc Trie32.Tree

variable {shared : Bool} {fl : Flavour} {kb rem d fuel h n : ℕ} {l l₁ l₂ : List (ℕ × ℕ)} {form : Form}
  {kids k₁ k₂ : List (ℕ × Tree)} {c c' t : Tree} {e e' : Edge32} {es es₁ es₂ : List (ℕ × Edge32)}
  {C C' C₁ C₂ F : Cells} {a a' : Arena} {p : Option ℕ × Tree}

namespace Tree

/-- A key that is absent leaves the tree as it is. -/
theorem remove_none (hok : Ok fl kb t) (h1 : 1 ≤ kb) (hr : rem < 256 ^ kb) (h : (remove fl kb t rem).1 = none) :
    (remove fl kb t rem).2 = t := by
  obtain ⟨kb, rfl⟩ : ∃ m, kb = m + 1 := ⟨kb - 1, by omega⟩
  cases t with
  | null => rfl
  | immed l =>
    obtain ⟨hl, hone, hcap⟩ := ok_immed.mp hok
    rw [remove] at h ⊢
    dsimp only at h ⊢
    rw [del_none hl.sorted h, shrunkLeaf, if_neg (by omega), if_pos hcap]
  | leaf l =>
    rw [remove] at h ⊢
    dsimp only at h ⊢
    rw [h, Option.isSome_none, if_neg Bool.false_ne_true]
  | bitmap l =>
    rw [remove] at h ⊢
    dsimp only at h ⊢
    rw [h, Option.isSome_none, if_neg (by simp), del_none (ok_bitmap.mp hok).2.1.sorted h]
  | branch form kids =>
    rw [remove] at h ⊢
    dsimp only at h ⊢
    cases hlk : kids.lookup (digitAt rem (kb + 1)) with
    | none => rfl
    | some c =>
      rw [hlk] at h
      dsimp only at h ⊢
      rw [h, Option.isNone_none, if_pos rfl]

end Tree

theorem bitmapRemoveAt_spec (shared : Bool) (hl : Held fl 1 l) (hd : d < 256)
    (ho : Owned a ((h, .node (bitmapNode fl l)) ::ₘ F)) (hr : Room a 0 1) :
    ∃ a', bitmapRemoveAt shared fl a h d = .ok ((l.lookup d).map fun w => (w, (del d l).length), a') ∧
      Owned a' ((h, .node (bitmapNode fl (del d l))) ::ₘ F) ∧ Spent a a' 0 1 := by
  cases fl with
  | set =>
    obtain ⟨a', ha, ho', hsp⟩ := setBitmapRemoveAt_spec shared hl.sorted ho d
    refine ⟨a', ?_, ho', hsp.mono le_rfl (by omega)⟩
    rw [bitmapRemoveAt, ha, ok_bind]
    cases hlk : l.lookup d with
    | none => rfl
    | some w =>
      dsimp only
      rw [Option.isSome_some, if_pos rfl, bitmap_eq ho', ok_bind, hl.zero_lookup hlk]
      rfl
  | map =>
    obtain ⟨a', ha, ho', hsp⟩ := mapBitmapRemoveAt_spec shared hl.sorted hd ho hr
    refine ⟨a', ?_, ho', hsp⟩
    rw [bitmapRemoveAt, ha]
    cases hlk : l.lookup d with
    | none => rfl
    | some w =>
      have := length_del_some hl.sorted (by rw [hlk]; rfl)
      rw [Option.map_some, Option.map_some, ← this, Nat.add_sub_cancel]

theorem readBitmap_spec (hl : Held fl 1 l) (ho : Owned a ((h, .node (bitmapNode fl l)) ::ₘ F)) :
    readBitmap fl a h = .ok l := by
  have hb : ∀ x ∈ l, x.1 < 256 := fun x hx => by simpa using (hl.fit x hx).1
  cases fl with
  | set =>
    rw [readBitmap, bitmap_eq ho, ok_bind, pure_eq_ok, bitmapKeys_eq hl.sorted hb hl.zero]
  | map =>
    rw [readBitmap, mapBitmap_eq ho, ok_bind, readMapBitmap_eq hl.sorted hb]

/-- What a removal leaves behind that should answer `p.1` and store `p.2`. -/
structure RemovesTo (fl : Flavour) (kb n : ℕ) (a : Arena) (F : Cells) (e : Edge32) (p : Option ℕ × Tree)
    (r : Removed) : Prop where
  prev : r.prev = p.1
  stored : ∃ C', Rep fl kb r.edge p.2 C' ∧ Owned r.arena (C' + F)
  spent : Spent a r.arena n (2 * n)
  kept : r.prev = none → r.edge = e

theorem Owned.shift (ho : Owned a F) : Owned a (0 + F) := by rwa [zero_add]

theorem removeMode_immed (ho : Owned a F) (hok : Ok fl (kb + 1) (immed l)) :
    ∃ r, removeMode shared fl (fuel + 1) a (immedEdge fl (kb + 1) l) (kb + 1) rem = .ok r ∧
      RemovesTo fl (kb + 1) 1 a F (immedEdge fl (kb + 1) l) (Tree.remove fl (kb + 1) (immed l) rem) r := by
  obtain ⟨hl, hone, hcap⟩ := ok_immed.mp hok
  have hs : Spent a a 1 2 := (Spent.refl a).mono (by omega) (by omega)
  rw [removeMode.eq_def, Tree.remove]
  dsimp only
  rw [kind_immed hl hone hcap]
  dsimp only
  rcases hl.sorted.cut_cases rem with ⟨l₁, w, l₂, rfl, hcut⟩ | ⟨l₁, l₂, rfl, hcut⟩
  · have hlen : (l₁ ++ (rem, w) :: l₂).length = (l₁ ++ l₂).length + 1 := by
      simp only [List.length_append, List.length_cons]
      omega
    rw [locate_cut_mem hcut, lookup_cut hl.sorted, del_cut_mem hcut]
    dsimp only
    rw [eraseIdx_cut, shrunkLeaf, hlen]
    by_cases hnil : (l₁ ++ l₂).length = 0
    · rw [if_pos (by omega), if_pos hnil]
      exact ⟨_, rfl, rfl, ⟨0, rep_null.mpr ⟨rfl, rfl⟩, ho.shift⟩, hs, fun hp => absurd hp (by simp)⟩
    · rw [if_neg (by omega), if_neg hnil, if_pos (by omega)]
      exact ⟨_, rfl, rfl, ⟨0, rep_immed.mpr ⟨rfl, rfl⟩, ho.shift⟩, hs, fun hp => absurd hp (by simp)⟩
  · rw [locate_cut_new hcut, lookup_eq_none hl.sorted hcut.not_mem, del_of_not_mem hcut.not_mem, shrunkLeaf,
      if_neg (by omega), if_pos hcap]
    exact ⟨_, rfl, rfl, ⟨0, rep_immed.mpr ⟨rfl, rfl⟩, ho.shift⟩, hs, fun _ => rfl⟩

theorem leafTop_mul (fl : Flavour) (h4 : kb + 1 ≤ 4) (hlen : l.length ≤ leafTop fl (kb + 1)) :
    l.length * (kb + 1) ≤ LEAF_KEYS_MAX := by
  have hmax : leafMax fl ≤ 24 := by cases fl <;> decide
  have henter : bitmapEnter fl = 64 := by cases fl <;> rfl
  unfold leafTop at hlen
  cases kb with
  | zero =>
    rw [if_pos rfl] at hlen
    unfold LEAF_KEYS_MAX
    omega
  | succ kb =>
    rw [if_neg (by omega)] at hlen
    calc l.length * (kb + 1 + 1) ≤ 24 * 4 := Nat.mul_le_mul (hlen.trans hmax) h4
      _ = LEAF_KEYS_MAX := rfl

theorem removeMode_leaf (h4 : kb + 1 ≤ 4) (ho : Owned a ((h, .leaf (valueWidth fl) (kb + 1) l) ::ₘ F))
    (hok : Ok fl (kb + 1) (leaf l)) (hroom : Room a 1 1) :
    ∃ r, removeMode shared fl (fuel + 1) a (leafEdge fl (kb + 1) h l.length) (kb + 1) rem = .ok r ∧
      RemovesTo fl (kb + 1) 1 a F (leafEdge fl (kb + 1) h l.length)
        (Tree.remove fl (kb + 1) (leaf l) rem) r := by
  obtain ⟨hl, hmin, hmax⟩ := ok_leaf.mp hok
  obtain ⟨buf, hn, hb⟩ := ho.find_leaf
  rw [removeMode.eq_def, Tree.remove]
  dsimp only
  rw [kind_leaf]
  dsimp only
  rw [leaf_eq hn hb.fits, ok_bind, leafLowerBound_eq hb hl.sorted, hb.readLeaf]
  rcases hl.sorted.cut_cases rem with ⟨l₁, w, l₂, rfl, hcut⟩ | ⟨l₁, l₂, rfl, hcut⟩
  · have hlen : (l₁ ++ (rem, w) :: l₂).length - 1 = (l₁ ++ l₂).length := by
      simp only [List.length_append, List.length_cons]
      omega
    rw [lowerBound_cut_mem hcut, if_pos (leaf_hit hb), hb.readVal getElem?_cut, lookup_cut hl.sorted,
      del_cut_mem hcut, hlen, eraseIdx_cut, Option.isSome_some, if_pos rfl, shrunkLeaf]
    by_cases hnil : (l₁ ++ l₂).length = 0
    · obtain ⟨a', ha, ho', hs⟩ := freeNode_spec ho (hroom.mono (by omega) le_rfl)
      rw [if_pos hnil, if_pos hnil, ha, ok_bind]
      exact ⟨_, rfl, rfl, ⟨0, rep_null.mpr ⟨rfl, rfl⟩, ho'.shift⟩, hs.mono (by omega) (by omega),
        fun hp => absurd hp (by simp)⟩
    · rw [if_neg hnil, if_neg hnil]
      by_cases hcap : (l₁ ++ l₂).length ≤ immedCap fl (kb + 1)
      · obtain ⟨a', ha, ho', hs⟩ := freeNode_spec ho (hroom.mono (by omega) le_rfl)
        rw [if_pos hcap, if_pos hcap, ha, ok_bind]
        exact ⟨_, rfl, rfl, ⟨0, rep_immed.mpr ⟨rfl, rfl⟩, ho'.shift⟩, hs.mono (by omega) (by omega),
          fun hp => absurd hp (by simp)⟩
      · obtain ⟨h', a', ha, ho', hs⟩ := leafRemoveSpan_spec shared ho hroom (Nat.lt_succ_self l₁.length)
          (by simp) (leafTop_mul fl h4 hmax)
        have hdrop : (l₁ ++ (rem, w) :: l₂).take l₁.length ++ (l₁ ++ (rem, w) :: l₂).drop (l₁.length + 1) =
            l₁ ++ l₂ := by simp
        have hlen' : (l₁ ++ (rem, w) :: l₂).length - (l₁.length + 1 - l₁.length) = (l₁ ++ l₂).length := by
          rw [← hlen]
          omega
        rw [hdrop] at ho'
        rw [hlen'] at ha
        rw [if_neg hcap, if_neg hcap, leafRemoveAt, ha, ok_bind]
        refine ⟨_, rfl, rfl, ⟨_, rep_leaf.mpr ⟨h', rfl, rfl⟩, ?_⟩, hs.mono le_rfl (by omega),
          fun hp => absurd hp (by simp)⟩
        rwa [cells_single]
  · rw [lowerBound_cut_new hcut, if_neg (leaf_miss hb hcut), lookup_eq_none hl.sorted hcut.not_mem,
      Option.isSome_none, if_neg Bool.false_ne_true]
    refine ⟨_, rfl, rfl, ⟨_, rep_leaf.mpr ⟨h, rfl, rfl⟩, ?_⟩, (Spent.refl a).mono (by omega) (by omega),
      fun _ => rfl⟩
    rwa [cells_single]

theorem removeMode_bitmap (ho : Owned a ((h, .node (bitmapNode fl l)) ::ₘ F)) (hok : Ok fl (kb + 1) (bitmap l))
    (hr : rem < 256 ^ (kb + 1)) (hroom : Room a 1 2) :
    ∃ r, removeMode shared fl (fuel + 1) a (bitmapEdge fl h) (kb + 1) rem = .ok r ∧
      RemovesTo fl (kb + 1) 1 a F (bitmapEdge fl h) (Tree.remove fl (kb + 1) (bitmap l) rem) r := by
  obtain ⟨hkb, hl, hmin⟩ := ok_bitmap.mp hok
  have h256 : rem < 256 := by simpa [hkb] using hr
  obtain rfl : kb = 0 := by omega
  have hdel := hl.del rem
  obtain ⟨a₁, ha, ho₁, hs₁⟩ := bitmapRemoveAt_spec shared hl h256 ho (hroom.mono (by omega) (by omega))
  have hroom₁ : Room a₁ 1 1 := hs₁.room hroom
  rw [removeMode.eq_def, Tree.remove]
  dsimp only
  rw [kind_bitmap]
  dsimp only
  rw [Nat.mod_eq_of_lt h256, ha, ok_bind]
  cases hlk : l.lookup rem with
  | none =>
    rw [Option.isSome_none, if_neg (by simp)]
    refine ⟨_, rfl, rfl, ⟨_, rep_bitmap.mpr ⟨h, rfl, rfl⟩, ?_⟩, hs₁.mono (by omega) (by omega), fun _ => rfl⟩
    rwa [cells_single]
  | some w =>
    rw [Option.isSome_some, Option.map_some]
    dsimp only
    by_cases hnil : (del rem l).length = 0
    · obtain ⟨a', hfree, ho', hs⟩ := freeNode_spec ho₁ (hroom₁.mono (by omega) le_rfl)
      rw [if_pos hnil, if_pos ⟨rfl, by omega⟩, shrunkLeaf, if_pos hnil, hfree, ok_bind]
      exact ⟨_, rfl, rfl, ⟨0, rep_null.mpr ⟨rfl, rfl⟩, ho'.shift⟩, (hs₁.trans hs).mono (by omega) (by omega),
        fun hp => absurd hp (by simp)⟩
    · rw [if_neg hnil]
      by_cases hleave : (del rem l).length ≤ bitmapLeave fl
      · rw [if_pos hleave, if_pos ⟨rfl, hleave⟩, shrunkLeaf, if_neg hnil, readBitmap_spec hdel ho₁, ok_bind]
        by_cases hcap : (del rem l).length ≤ immedCap fl (0 + 1)
        · obtain ⟨a', hfree, ho', hs⟩ := freeNode_spec ho₁ (hroom₁.mono (by omega) le_rfl)
          rw [if_pos hcap, if_pos hcap, hfree, ok_bind]
          exact ⟨_, rfl, rfl, ⟨0, rep_immed.mpr ⟨rfl, rfl⟩, ho'.shift⟩,
            (hs₁.trans hs).mono (by omega) (by omega),
            fun hp => absurd hp (by simp)⟩
        · obtain ⟨h', a₂, hmake, ho₂, hs₂⟩ := makeLeaf_spec ho₁ (hroom₁.mono le_rfl (by omega)) hdel.fit
          rw [Multiset.cons_swap] at ho₂
          obtain ⟨a', hfree, ho', hs⟩ := freeNode_spec ho₂ (hs₂.room hroom₁)
          rw [if_neg hcap, if_neg hcap, hmake, ok_bind]
          dsimp only
          rw [hfree, ok_bind]
          refine ⟨_, rfl, rfl, ⟨_, rep_leaf.mpr ⟨h', rfl, rfl⟩, ?_⟩,
            ((hs₁.trans hs₂).trans hs).mono (by omega) (by omega), fun hp => absurd hp (by simp)⟩
          rwa [cells_single]
      · rw [if_neg hleave, if_neg fun hc => hleave hc.2]
        refine ⟨_, rfl, rfl, ⟨_, rep_bitmap.mpr ⟨h, rfl, rfl⟩, ?_⟩, hs₁.mono (by omega) (by omega),
          fun hp => absurd hp (by simp)⟩
        rwa [cells_single]

/-- The removals below a slot of `kb` key bytes. -/
def RemovesAt (shared : Bool) (fl : Flavour) (fuel kb : ℕ) : Prop :=
  ∀ {a : Arena} {C F : Cells} {e : Edge32} {t : Tree} {rem : ℕ},
    Owned a (C + F) → Rep fl kb e t C → Ok fl kb t → rem < 256 ^ kb → Room a kb (2 * kb) →
    ∃ r, removeMode shared fl fuel a e kb rem = .ok r ∧ RemovesTo fl kb kb a F e (t.remove fl kb rem) r

/-- A branch counts one key less when the removal below it finds its key. -/
theorem length_fan_del (d : ℕ) (k₁ k₂ : List (ℕ × Tree)) (hs : KeySorted (entries kb c))
    (hent : entries kb c' = del rem (entries kb c)) (hfound : ((entries kb c).lookup rem).isSome) :
    ((fanout (256 ^ kb) (entries kb) (k₁ ++ (d, c') :: k₂)).length : ℤ) =
      (fanout (256 ^ kb) (entries kb) (k₁ ++ (d, c) :: k₂)).length + (-1) := by
  have := length_del_some hs hfound
  rw [length_fanout_cut, length_fanout_cut, hent]
  push_cast
  omega

theorem removeMode_digit (ih : RemovesAt shared fl fuel kb) (ho : Owned a (C + F))
    (hrep : Rep fl (kb + 1) e (branch form (k₁ ++ (digitAt rem (kb + 1), c) :: k₂)) C)
    (hb : Fork fl kb form (k₁ ++ (digitAt rem (kb + 1), c) :: k₂)) (hcut : CutAt (digitAt rem (kb + 1)) k₁ k₂)
    (hroom : Room a (kb + 1) (2 * (kb + 1))) :
    ∃ r, removeMode shared fl (fuel + 1) a e (kb + 1) rem = .ok r ∧
      RemovesTo fl (kb + 1) (kb + 1) a F e
        (Tree.remove fl (kb + 1) (branch form (k₁ ++ (digitAt rem (kb + 1), c) :: k₂)) rem) r := by
  have hcr := childRem_lt rem kb
  obtain ⟨h, es, Ck, rfl, hk, rfl⟩ := rep_branch.mp hrep
  have hedges := hk.edges hb
  have hcap := hb.cap
  rw [← hk.length] at hcap
  obtain ⟨es₁, ec, es₂, C₁, Cc, C₂, rfl, hk₁, hrc, hk₂, rfl⟩ := hk.cut
  have hchild := (hb.kids (digitAt rem (kb + 1), c) (by simp)).2.2
  obtain ⟨hp, hok, hent⟩ := Tree.remove_spec hchild hb.one_le hcr
  rw [removeMode.eq_def, Tree.remove]
  dsimp only
  rw [kind_branch]
  dsimp only
  rw [branchChild_cut (cells_branch _ ▸ ho) hedges hcap, ok_bind, lookup_cut hb.sorted, Nat.add_sub_cancel,
    del_cut_mem hcut]
  dsimp only
  rw [put_cut_mem hcut]
  rw [cells_child] at ho
  obtain ⟨r, hr, hprev, ⟨C', hrep', ho'⟩, hs, hkept⟩ := ih ho hrc hchild hcr (hroom.mono (by omega) (by omega))
  rw [hr, ok_bind, ← hprev]
  rw [cells_rotate] at ho'
  cases hq : r.prev with
  | none =>
    rw [Option.isSome_none, if_neg Bool.false_ne_true, Option.isNone_none, if_pos rfl]
    have hsame := Tree.remove_none hchild hb.one_le hcr (hprev ▸ hq)
    dsimp only at hsame
    rw [hsame, hkept hq] at hrep'
    refine ⟨_, rfl, rfl, ⟨_, rep_branch.mpr ⟨h, _, _, rfl, hk₁.join hrep' hk₂, rfl⟩, ?_⟩,
      hs.mono (by omega) (by omega), fun _ => rfl⟩
    rw [cells_branch]
    exact ho'
  | some w =>
    have hfound : ((entries kb c).lookup (childRem rem (kb + 1))).isSome := by
      dsimp only at hp
      rw [← hp, ← hprev, hq]
      rfl
    have hlen := length_fan_del (digitAt rem (kb + 1)) k₁ k₂ hchild.sorted hent hfound
    have hroom' : Room r.arena 1 2 := hs.room (hroom.mono (by omega) (by omega))
    rw [Option.isSome_some, if_pos rfl, Option.isNone_some, if_neg Bool.false_ne_true]
    by_cases hnull : (Tree.remove fl kb c (childRem rem (kb + 1))).2 = null
    · rw [hnull] at hlen hrep'
      obtain ⟨hedge, rfl⟩ := rep_null.mp hrep'
      obtain ⟨a₁, ha₁, ho₁, hs₁⟩ := branchCommit_none ho' (digitAt rem (kb + 1)) (-1)
      rw [fanout_drop entries_null] at hlen
      rw [branchCount, wrapCount_eq hlen, zero_add] at ho₁
      rw [if_pos hedge, ha₁, ok_bind, if_pos (isNull_iff.mpr hnull)]
      rcases branchRemoveDigit_spec shared ho₁ (hs₁.room hroom') hedges hcap with
        ⟨hnil, a₂, ha₂, ho₂, hs₂⟩ | ⟨hne, h', a₂, ha₂, ho₂, hs₂⟩
      · obtain ⟨hnil', hC⟩ := RepKids.nil (hnil ▸ hk₁.append hk₂)
        rw [hC, zero_add] at ho₂
        rw [ha₂, ok_bind, if_pos hnil']
        exact ⟨_, rfl, rfl, ⟨0, rep_null.mpr ⟨rfl, rfl⟩, ho₂.shift⟩,
          ((hs.trans hs₁).trans hs₂).mono (by omega) (by omega), fun hp => absurd hp (by simp)⟩
      · have hjoin := hk₁.append hk₂
        have hne' : k₁ ++ k₂ ≠ [] := fun hnil => hne (List.length_eq_zero_iff.mp (by
          rw [hjoin.length, hnil]
          rfl))
        rw [hjoin.length] at ha₂ ho₂
        rw [ha₂, ok_bind, if_neg hne']
        refine ⟨_, rfl, rfl, ⟨_, rep_branch.mpr ⟨h', _, _, rfl, hjoin, rfl⟩, ?_⟩,
          ((hs.trans hs₁).trans hs₂).mono (by omega) (by omega), fun hp => absurd hp (by simp)⟩
        rw [cells_branch]
        exact ho₂
    · have hne := hrep'.live hok hnull
      obtain ⟨a₁, ha₁, ho₁, hs₁⟩ := branchCommit_cut ho' hedges hcap hne (-1)
      rw [branchCount, wrapCount_eq hlen] at ho₁
      rw [if_neg hne, ha₁, ok_bind, if_neg (by simpa using hnull)]
      refine ⟨_, rfl, rfl, ⟨_, rep_branch.mpr ⟨h, _, _, rfl, hk₁.join hrep' hk₂, rfl⟩, ?_⟩,
        (hs.trans hs₁).mono (by omega) (by omega), fun hp => absurd hp (by simp)⟩
      rw [cells_branch]
      exact ho₁

theorem removeMode_absent (ho : Owned a (C + F)) (hrep : Rep fl (kb + 1) e (branch form (k₁ ++ k₂)) C)
    (hb : Fork fl kb form (k₁ ++ k₂)) (hcut : CutAt (digitAt rem (kb + 1)) k₁ k₂) :
    ∃ r, removeMode shared fl (fuel + 1) a e (kb + 1) rem = .ok r ∧
      RemovesTo fl (kb + 1) 1 a F e (Tree.remove fl (kb + 1) (branch form (k₁ ++ k₂)) rem) r := by
  have hrep₀ := hrep
  have ho₀ := ho
  obtain ⟨h, es, Ck, rfl, hk, rfl⟩ := rep_branch.mp hrep
  have hedges := hk.edges hb
  have hcap := hb.cap
  rw [← hk.length] at hcap
  obtain ⟨es₁, es₂, C₁, C₂, rfl, hk₁, hk₂, rfl⟩ := hk.split
  rw [cells_branch] at ho
  rw [removeMode.eq_def, Tree.remove]
  dsimp only
  rw [kind_branch]
  dsimp only
  rw [branchChild_absent ho hedges (hk₁.cutAt hk₂ hcut) (digit_lt' rem (kb + 1)) hcap, ok_bind,
    lookup_eq_none hb.sorted hcut.not_mem]
  exact ⟨_, rfl, rfl, ⟨_, hrep₀, ho₀⟩, (Spent.refl a).mono (by omega) (by omega), fun _ => rfl⟩

theorem removeMode_removes (shared : Bool) (fl : Flavour) (h1 : 1 ≤ kb) (h4 : kb ≤ 4) (hf : kb ≤ fuel) :
    RemovesAt shared fl fuel kb := by
  induction kb generalizing fuel with
  | zero => omega
  | succ kb ih =>
    intro a C F e t rem ho hrep hok hr hroom
    obtain ⟨fuel, rfl⟩ : ∃ m, fuel = m + 1 := ⟨fuel - 1, by omega⟩
    have wide : ∀ {p : Option ℕ × Tree}, (∃ r, removeMode shared fl (fuel + 1) a e (kb + 1) rem = .ok r ∧
        RemovesTo fl (kb + 1) 1 a F e p r) →
        ∃ r, removeMode shared fl (fuel + 1) a e (kb + 1) rem = .ok r ∧
          RemovesTo fl (kb + 1) (kb + 1) a F e p r := by
      rintro p ⟨r, hr, hprev, hst, hs, hk⟩
      exact ⟨r, hr, hprev, hst, hs.mono (by omega) (by omega), hk⟩
    cases t with
    | null =>
      obtain ⟨rfl, rfl⟩ := rep_null.mp hrep
      rw [removeMode.eq_def]
      dsimp only
      rw [kind_null]
      exact ⟨_, rfl, rfl, ⟨0, hrep, ho⟩, (Spent.refl a).mono (by omega) (by omega), fun _ => rfl⟩
    | immed l =>
      obtain ⟨rfl, rfl⟩ := rep_immed.mp hrep
      exact wide (removeMode_immed (zero_add F ▸ ho) hok)
    | leaf l =>
      obtain ⟨h, rfl, rfl⟩ := rep_leaf.mp hrep
      rw [cells_single] at ho
      exact wide (removeMode_leaf h4 ho hok (hroom.mono (by omega) (by omega)))
    | bitmap l =>
      obtain ⟨h, rfl, rfl⟩ := rep_bitmap.mp hrep
      rw [cells_single] at ho
      exact wide (removeMode_bitmap ho hok hr (hroom.mono (by omega) (by omega)))
    | branch form kids =>
      have hb := (ok_branch.mp hok).1
      have hn := hb.one_le
      rcases hb.sorted.cut_cases (digitAt rem (kb + 1)) with ⟨k₁, c, k₂, rfl, hcut⟩ | ⟨k₁, k₂, rfl, hcut⟩
      · exact removeMode_digit (ih hn (by omega) (by omega)) ho hrep hb hcut hroom
      · exact wide (removeMode_absent ho hrep hb hcut)

theorem removes (shared : Bool) (fl : Flavour) : RemovesAt shared fl FUEL KEY_BYTES :=
  removeMode_removes shared fl (by decide) (by decide) (by decide)

end Expanse.Trie32
