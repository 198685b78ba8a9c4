import Expanse.Library.Neighbours
import Expanse.Trie32.RefineRemove

/-!
# Removals one after the other

What a tree becomes when some of its entries are removed one by one: a terminal takes the form of
what stays, and a branch that loses entries of one child takes up that child, or drops its digit.
-/

namespace Expanse.Trie32

open SortedAssoc

variable {fl : Flavour} {kb rem d : ℕ} {l ks : List (ℕ × ℕ)} {form : Form} {kids k₁ k₂ : List (ℕ × Tree)}
    {c t : Tree}

def delAll (l ks : List (ℕ × ℕ)) : List (ℕ × ℕ) := ks.foldl (fun m e => del e.1 m) l

theorem delAll_eq (l ks : List (ℕ × ℕ)) : delAll l ks = l.filter fun x => ∀ e ∈ ks, x.1 ≠ e.1 := by
  induction ks generalizing l with
  | nil => simp [delAll]
  | cons e ks ih =>
    rw [delAll, List.foldl_cons]
    refine (ih (del e.1 l)).trans ?_
    rw [del, List.filter_filter]
    refine List.filter_congr fun x _ => ?_
    simp only [List.mem_cons, forall_eq_or_imp, ne_eq, Bool.decide_and, Bool.and_comm]

theorem delAll_filter (hs : KeySorted l) (p : ℕ × ℕ → Bool) :
    delAll l (l.filter p) = l.filter fun x => !p x := by
  rw [delAll_eq]
  refine List.filter_congr fun x hx => ?_
  cases hp : p x with
  | true => exact decide_eq_false fun h => h x (List.mem_filter.mpr ⟨hx, hp⟩) rfl
  | false =>
    refine decide_eq_true fun e he heq => ?_
    obtain ⟨hmem, hpe⟩ := List.mem_filter.mp he
    obtain ⟨k, v⟩ := x
    obtain ⟨k', w⟩ := e
    obtain rfl : k = k' := heq
    rw [hs.value_unique hx hmem] at hp
    exact Bool.false_ne_true (hp.symm.trans hpe)

theorem sublist_del {x : ℕ × ℕ} (hs : KeySorted l) (h : (x :: ks).Sublist l) : ks.Sublist (del x.1 l) := by
  have hcons := List.pairwise_cons.mp (hs.sublist h)
  have hfilter := h.filter fun e => decide (e.1 ≠ x.1)
  have hks : (x :: ks).filter (fun e => decide (e.1 ≠ x.1)) = ks := by
    rw [List.filter_cons_of_neg (by simp), List.filter_eq_self.mpr fun e he => decide_eq_true (hcons.1 e he).ne']
  rw [hks] at hfilter
  exact hfilter

namespace Tree

def removeAll (fl : Flavour) (kb : ℕ) (t : Tree) (ks : List (ℕ × ℕ)) : Tree :=
  ks.foldl (fun t e => (remove fl kb t e.1).2) t

theorem removeAll_cons {x : ℕ × ℕ} :
    removeAll fl kb t (x :: ks) = removeAll fl kb (remove fl kb t x.1).2 ks := rfl

theorem removeAll_append {ks₁ ks₂ : List (ℕ × ℕ)} :
    removeAll fl kb t (ks₁ ++ ks₂) = removeAll fl kb (removeAll fl kb t ks₁) ks₂ := List.foldl_append

theorem removeAll_spec (h : Ok fl kb t) (h1 : 1 ≤ kb) (hk : ∀ e ∈ ks, e.1 < 256 ^ kb) :
    Ok fl kb (removeAll fl kb t ks) ∧ entries kb (removeAll fl kb t ks) = delAll (entries kb t) ks := by
  induction ks generalizing t with
  | nil => exact ⟨h, rfl⟩
  | cons x ks ih =>
    obtain ⟨-, hok, hent⟩ := remove_spec h h1 (hk x List.mem_cons_self)
    obtain ⟨hok', hent'⟩ := ih hok fun e he => hk e (List.mem_cons_of_mem x he)
    refine ⟨hok', hent'.trans ?_⟩
    rw [hent]
    rfl

theorem removeAll_length (h : Ok fl kb t) (h1 : 1 ≤ kb) (hk : ∀ e ∈ ks, e.1 < 256 ^ kb)
    (hsub : ks.Sublist (entries kb t)) :
    (entries kb (removeAll fl kb t ks)).length + ks.length = (entries kb t).length := by
  induction ks generalizing t with
  | nil => rfl
  | cons x ks ih =>
    obtain ⟨-, hok, hent⟩ := remove_spec h h1 (hk x List.mem_cons_self)
    have hrest := sublist_del h.sorted hsub
    rw [← hent] at hrest
    have hlen := ih hok (fun e he => hk e (List.mem_cons_of_mem x he)) hrest
    have hfound : ((entries kb t).lookup x.1).isSome := by
      rw [lookup_of_mem h.sorted (hsub.subset List.mem_cons_self)]
      rfl
    have hdel := length_del_some h.sorted hfound
    rw [hent] at hlen
    rw [removeAll_cons, List.length_cons]
    omega

theorem remove_shrunkLeaf (hs : KeySorted l) (k : ℕ) :
    (remove fl (kb + 1) (shrunkLeaf fl (kb + 1) l) k).2 = shrunkLeaf fl (kb + 1) (del k l) := by
  by_cases h0 : l.length = 0
  · obtain rfl := List.length_eq_zero_iff.mp h0
    rfl
  rw [shrunkLeaf, if_neg h0]
  by_cases hcap : l.length ≤ immedCap fl (kb + 1)
  · rw [if_pos hcap]
    rfl
  · rw [if_neg hcap, remove]
    dsimp only
    cases hlk : l.lookup k with
    | some v => rfl
    | none => rw [del_none hs hlk, shrunkLeaf, if_neg h0, if_neg hcap, Option.isSome_none,
        if_neg Bool.false_ne_true]

theorem removeAll_shrunkLeaf (hs : KeySorted l) :
    removeAll fl (kb + 1) (shrunkLeaf fl (kb + 1) l) ks = shrunkLeaf fl (kb + 1) (delAll l ks) := by
  induction ks generalizing l with
  | nil => rfl
  | cons x ks ih =>
    rw [removeAll_cons, remove_shrunkLeaf hs, ih (hs.del x.1)]
    rfl

theorem immed_eq_shrunkLeaf (h : Ok fl kb (immed l)) : immed l = shrunkLeaf fl kb l := by
  obtain ⟨-, hone, hcap⟩ := ok_immed.mp h
  rw [shrunkLeaf, if_neg (by omega), if_pos hcap]

theorem leaf_eq_shrunkLeaf (h : Ok fl kb (leaf l)) : leaf l = shrunkLeaf fl kb l := by
  obtain ⟨-, hmin, -⟩ := ok_leaf.mp h
  rw [shrunkLeaf, if_neg (by omega), if_neg (by omega)]

theorem removeAll_immed (h : Ok fl (kb + 1) (immed l)) :
    removeAll fl (kb + 1) (immed l) ks = shrunkLeaf fl (kb + 1) (delAll l ks) := by
  rw [immed_eq_shrunkLeaf h, removeAll_shrunkLeaf (ok_immed.mp h).1.sorted]

theorem removeAll_leaf (h : Ok fl (kb + 1) (leaf l)) :
    removeAll fl (kb + 1) (leaf l) ks = shrunkLeaf fl (kb + 1) (delAll l ks) := by
  rw [leaf_eq_shrunkLeaf h, removeAll_shrunkLeaf (ok_leaf.mp h).1.sorted]

/-- What a bitmap leaf becomes that keeps `l`. -/
def shrunkBitmap (fl : Flavour) (l : List (ℕ × ℕ)) : Tree :=
  if l.length ≤ bitmapLeave fl then shrunkLeaf fl 1 l else bitmap l

theorem remove_shrunkBitmap (hs : KeySorted l) (k : ℕ) :
    (remove fl 1 (shrunkBitmap fl l) k).2 = shrunkBitmap fl (del k l) := by
  have hle : (del k l).length ≤ l.length := List.length_filter_le _ _
  by_cases hleave : l.length ≤ bitmapLeave fl
  · rw [shrunkBitmap, if_pos hleave, remove_shrunkLeaf hs, shrunkBitmap, if_pos (hle.trans hleave)]
  · rw [shrunkBitmap, if_neg hleave, remove]
    dsimp only
    cases hlk : l.lookup k with
    | some v =>
      rw [shrunkBitmap]
      simp only [Option.isSome_some, true_and]
    | none => rw [del_none hs hlk, shrunkBitmap, if_neg hleave, if_neg fun h => Bool.false_ne_true h.1]

theorem removeAll_bitmap (h : Ok fl (kb + 1) (bitmap l)) :
    removeAll fl (kb + 1) (bitmap l) ks = shrunkBitmap fl (delAll l ks) := by
  obtain ⟨hkb, hl, hmin⟩ := ok_bitmap.mp h
  obtain rfl : kb = 0 := by omega
  have hrun : ∀ {l}, KeySorted l → removeAll fl 1 (shrunkBitmap fl l) ks = shrunkBitmap fl (delAll l ks) := by
    induction ks with
    | nil => exact fun _ => rfl
    | cons x ks ih =>
      intro l hs
      rw [removeAll_cons, remove_shrunkBitmap hs, ih (hs.del x.1)]
      rfl
  rw [← hrun hl.sorted, shrunkBitmap, if_neg (by omega)]

/-- A branch that takes up `t` in place of a child. -/
def settled (form : Form) (k₁ k₂ : List (ℕ × Tree)) (d : ℕ) (t : Tree) : Tree :=
  if t.isNull then if k₁ ++ k₂ = [] then null else branch (form.shrunk (k₁ ++ k₂).length) (k₁ ++ k₂)
  else branch form (k₁ ++ (d, t) :: k₂)

theorem digitAt_moved {x : ℕ} (hd : d < 256) (hx : x < 256 ^ kb) : digitAt (d * 256 ^ kb + x) (kb + 1) = d := by
  rw [digitAt, Radix.digit, Nat.add_sub_cancel, Nat.mul_comm, Nat.mul_add_div (Nat.pow_pos (by decide)),
    Nat.div_eq_of_lt hx, Nat.add_zero, Nat.mod_eq_of_lt hd]

theorem childRem_moved {x : ℕ} (hx : x < 256 ^ kb) : childRem (d * 256 ^ kb + x) (kb + 1) = x := by
  rw [childRem, Radix.low, Nat.add_sub_cancel, Nat.mul_comm, Nat.mul_add_mod, Nat.mod_eq_of_lt hx]

theorem removeAll_digit (hb : Fork fl kb form (k₁ ++ (d, c) :: k₂)) (hsub : ks.Sublist (entries kb c))
    (hne : ks ≠ []) :
    removeAll fl (kb + 1) (branch form (k₁ ++ (d, c) :: k₂)) (ks.map (Direction.moved (256 ^ kb) d)) =
      settled form k₁ k₂ d (removeAll fl kb c ks) := by
  induction ks generalizing c with
  | nil => exact absurd rfl hne
  | cons x ks ih =>
    obtain ⟨-, -, hok⟩ := hb.kids (d, c) (by simp)
    have hx : x.1 < 256 ^ kb := hb.narrow (d, c) (by simp) x (hsub.subset List.mem_cons_self)
    have hmem : x ∈ entries kb c := hsub.subset List.mem_cons_self
    obtain ⟨hprev, hok', hent⟩ := remove_spec hok hb.one_le hx
    have hfound : (remove fl kb c x.1).1 = some x.2 := hprev.trans (lookup_of_mem hok.sorted hmem)
    have hdigit := digitAt_moved (hb.kids (d, c) (by simp)).1 hx
    have hchild := @childRem_moved kb d x.1 hx
    have hcut := hb.sorted.of_cut.2.2
    have hstep : (remove fl (kb + 1) (branch form (k₁ ++ (d, c) :: k₂)) (d * 256 ^ kb + x.1)).2 =
        settled form k₁ k₂ d (remove fl kb c x.1).2 := by
      rw [remove]
      dsimp only
      rw [hdigit, hchild, lookup_cut hb.sorted]
      dsimp only
      rw [hfound, del_cut_mem hcut, put_cut_mem hcut, settled]
      rw [Option.isNone_some, if_neg Bool.false_ne_true]
    rw [List.map_cons, removeAll_cons]
    dsimp only [Direction.moved]
    rw [hstep, removeAll_cons]
    have hrest := sublist_del hok.sorted hsub
    rw [← hent] at hrest
    cases hks : ks with
    | nil => rfl
    | cons y ys =>
      have hlive : (remove fl kb c x.1).2 ≠ null := by
        intro hnull
        rw [hnull, entries_null, hks] at hrest
        exact absurd (List.sublist_nil.mp hrest) (by simp)
      rw [← hks, settled, if_neg (by simpa using hlive)]
      exact ih (hb.replace hlive hok') hrest (by simp [hks])

end Tree

end Expanse.Trie32
