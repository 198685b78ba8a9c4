import Expanse.Trie32.TreeSpec

/-!
# The tree that entries grow

A removal shrinks a node later than an insertion has grown it, so one set of entries may be stored
by more than one tree. A tree that only grew has each form at the populations that insert into it.
Entries determine such a tree, whatever the order they came in.
-/

namespace Expanse.Trie32

open SortedAssoc

/-- The form that a branch with this number of children is built in. -/
def Form.built (n : ℕ) : Form :=
  if n ≤ BRANCH_L2_CAP then .l2
  else if n ≤ BRANCH_L6_CAP then .l6
  else if n ≤ BRANCH_B_TO_UNCOMPRESSED then .b
  else .u

theorem Form.grown_built (n : ℕ) : (Form.built n).grown (n + 1) = Form.built (n + 1) := by
  unfold Form.built Form.grown
  split_ifs <;> simp only [Form.cap, Form.up, BRANCH_L2_CAP, BRANCH_L6_CAP, BRANCH_B_TO_UNCOMPRESSED] at * <;>
    first | rfl | omega

namespace Tree

/-- Each form at the populations where an insertion makes it. -/
def Grown (fl : Flavour) : ℕ → Tree → Prop
  | _, bitmap l => bitmapEnter fl < l.length
  | kb + 1, branch form kids =>
    form = Form.built kids.length ∧ leafMax fl < (fanout (256 ^ kb) (entries kb) kids).length ∧
      ∀ c ∈ kids, Grown fl kb c.2
  | _, _ => True

variable {fl : Flavour} {kb rem val : ℕ} {l : List (ℕ × ℕ)} {form : Form} {kids kids' : List (ℕ × Tree)}
    {t t' : Tree}

theorem grown_null : Grown fl kb null := by cases kb <;> trivial

theorem grown_immed : Grown fl kb (immed l) := by cases kb <;> trivial

theorem grown_leaf : Grown fl kb (leaf l) := by cases kb <;> trivial

theorem grown_bitmap : Grown fl kb (bitmap l) ↔ bitmapEnter fl < l.length := by cases kb <;> rfl

/-- The form of a grown tree, by the number of its entries. -/
def FormOf (fl : Flavour) (kb : ℕ) (t : Tree) (l : List (ℕ × ℕ)) : Prop :=
  if l.length = 0 then t = null
  else if l.length ≤ immedCap fl kb then t = immed l
  else if l.length ≤ leafTop fl kb then t = leaf l
  else if kb = 1 then t = bitmap l
  else ∃ kids, t = branch (Form.built kids.length) kids

theorem Grown.formOf (hg : Grown fl (kb + 1) t) (h : Ok fl (kb + 1) t) :
    FormOf fl (kb + 1) t (entries (kb + 1) t) := by
  have hcaps := immedCap_lt_leafTop fl kb
  rw [FormOf]
  cases t with
  | null =>
    rw [entries_null, List.length_nil, if_pos rfl]
  | immed l =>
    obtain ⟨-, hone, hcap⟩ := ok_immed.mp h
    rw [entries_immed, if_neg (by omega), if_pos hcap]
  | leaf l =>
    obtain ⟨-, hmin, hmax⟩ := ok_leaf.mp h
    rw [entries_leaf, if_neg (by omega), if_neg (by omega), if_pos hmax]
  | bitmap l =>
    obtain ⟨hkb, -, -⟩ := ok_bitmap.mp h
    have hmin := grown_bitmap.mp hg
    have htop : leafTop fl (kb + 1) = bitmapEnter fl := if_pos hkb
    rw [entries_bitmap, if_neg (by omega), if_neg (by omega), if_neg (by omega), if_pos hkb]
  | branch form kids =>
    obtain ⟨rfl, hmin, -⟩ := hg
    have h1 := (ok_branch.mp h).1.one_le
    have htop : leafTop fl (kb + 1) = leafMax fl := if_neg (by omega)
    rw [entries_branch, if_neg (by omega), if_neg (by omega), if_neg (by omega), if_neg (by omega)]
    exact ⟨kids, rfl⟩

theorem eq_of_forall₂ {α : Type} {R : α → α → Prop} {l l' : List α} (h : List.Forall₂ R l l')
    (heq : ∀ a ∈ l, ∀ b ∈ l', R a b → a = b) : l = l' := by
  induction h with
  | nil => rfl
  | cons hab _ ih =>
    rw [heq _ List.mem_cons_self _ List.mem_cons_self hab,
      ih fun a ha b hb => heq a (List.mem_cons_of_mem _ ha) b (List.mem_cons_of_mem _ hb)]

theorem Grown.unique (h : Ok fl kb t) (h' : Ok fl kb t') (hg : Grown fl kb t) (hg' : Grown fl kb t')
    (he : entries kb t = entries kb t') (h1 : 1 ≤ kb) : t = t' := by
  induction kb generalizing t t' with
  | zero => omega
  | succ kb ih =>
    have hform := hg.formOf h
    have hform' := hg'.formOf h'
    rw [← he] at hform'
    unfold FormOf at hform hform'
    split_ifs at hform hform'
    · rw [hform, hform']
    · rw [hform, hform']
    · rw [hform, hform']
    · rw [hform, hform']
    · obtain ⟨kids, rfl⟩ := hform
      obtain ⟨kids', rfl⟩ := hform'
      have hb := (ok_branch.mp h).1
      have hb' := (ok_branch.mp h').1
      have hkids := fanout_inj hb.sorted hb'.sorted hb.narrow hb'.narrow
        (fun c hc => (hb.kids c hc).2.2.held.2 (hb.kids c hc).2.1)
        (fun c hc => (hb'.kids c hc).2.2.held.2 (hb'.kids c hc).2.1) he
      rw [eq_of_forall₂ hkids fun a ha b hmem hab => Prod.ext hab.1 (ih (hb.kids a ha).2.2 (hb'.kids b hmem).2.2
        (hg.2.2 a ha) (hg'.2.2 b hmem) hab.2 hb.one_le)]

/-- The children of a branch that grew. -/
structure GrownKids (fl : Flavour) (kb : ℕ) (form : Form) (kids : List (ℕ × Tree)) : Prop where
  form : form = Form.built kids.length
  kids : ∀ c ∈ kids, Grown fl kb c.2

theorem intoBranch_grown {ins : Tree → ℕ → ℕ → Option ℕ × Tree} (h : GrownKids fl kb form kids)
    (hs : KeySorted kids)
    (hins : ∀ t rem, Grown fl kb t → (t = null ∨ ∃ d, (d, t) ∈ kids) → rem < 256 ^ kb →
      Grown fl kb (ins t rem val).2) :
    ∃ form' kids', (intoBranch ins kb (branch form kids) rem val).2 = branch form' kids' ∧
      GrownKids fl kb form' kids' := by
  have hcr := childRem_lt rem kb
  unfold intoBranch
  dsimp only
  rcases hs.cut_cases (digitAt rem (kb + 1)) with ⟨k₁, c, k₂, rfl, hcut⟩ | ⟨k₁, k₂, rfl, hcut⟩
  · rw [lookup_cut hs]
    dsimp only
    rw [put_cut_mem hcut]
    refine ⟨form, _, rfl, by rw [h.form]; simp, fun a ha => ?_⟩
    rcases List.mem_append.mp ha with ha | ha
    · exact h.kids a (List.mem_append_left _ ha)
    · rcases List.mem_cons.mp ha with rfl | ha
      · have hmem : (digitAt rem (kb + 1), c) ∈ k₁ ++ (digitAt rem (kb + 1), c) :: k₂ := by simp
        exact hins c _ (h.kids _ hmem) (.inr ⟨_, hmem⟩) hcr
      · exact h.kids a (by simp [ha])
  · rw [lookup_eq_none hs hcut.not_mem]
    dsimp only
    rw [put_cut_new hcut]
    refine ⟨_, _, rfl, ?_, fun a ha => ?_⟩
    · have hlen : (k₁ ++ (digitAt rem (kb + 1), (ins null (childRem rem (kb + 1)) val).2) :: k₂).length =
          (k₁ ++ k₂).length + 1 := by
        simp only [List.length_append, List.length_cons]
        omega
      rw [hlen, h.form, Form.grown_built]
    · rcases List.mem_append.mp ha with ha | ha
      · exact h.kids a (List.mem_append_left _ ha)
      · rcases List.mem_cons.mp ha with rfl | ha
        · exact hins null _ grown_null (.inl rfl) hcr
        · exact h.kids a (List.mem_append_right _ ha)

theorem ok_child (hb : Fork fl kb form kids) (h : t = null ∨ ∃ d, (d, t) ∈ kids) : Ok fl kb t := by
  rcases h with rfl | ⟨d, hmem⟩
  · exact ok_null
  · exact (hb.kids _ hmem).2.2

theorem spread_grown {es : List (ℕ × ℕ)} (hes : Fit (valueWidth fl) (kb + 1) es) (h1 : 1 ≤ kb)
    (hins : ∀ t rem val, Ok fl kb t → Grown fl kb t → rem < 256 ^ kb → val < 256 ^ valueWidth fl →
      Grown fl kb (insert fl kb t rem val).2) :
    ∃ form kids, spread (insert fl kb) kb es = branch form kids ∧ Fork fl kb form kids ∧
      fanout (256 ^ kb) (entries kb) kids = es.foldl (fun m e => put e.1 e.2 m) [] ∧
        GrownKids fl kb form kids := by
  have hrun : ∀ {form kids}, Fork fl kb form kids → GrownKids fl kb form kids →
      ∃ form' kids', es.foldl (fun t e => (intoBranch (insert fl kb) kb t e.1 e.2).2) (branch form kids) =
        branch form' kids' ∧ Fork fl kb form' kids' ∧ fanout (256 ^ kb) (entries kb) kids' =
          es.foldl (fun m e => put e.1 e.2 m) (fanout (256 ^ kb) (entries kb) kids) ∧
            GrownKids fl kb form' kids' := by
    induction es with
    | nil => exact fun {form kids} hf hg => ⟨form, kids, rfl, hf, rfl, hg⟩
    | cons e es ih =>
      intro form kids hf hg
      obtain ⟨hk, hv⟩ := hes e List.mem_cons_self
      obtain ⟨form₁, kids₁, he, hf₁, hput⟩ := intoBranch_spec (insert fl kb) hf hk
        fun t rem ht hr => insert_spec ht h1 hr hv
      obtain ⟨form₂, kids₂, he₂, hg₂⟩ := intoBranch_grown hg hf.sorted
        fun t rem hg ht hr => hins t rem e.2 (ok_child hf ht) hg hr hv
      rw [he] at he₂
      obtain ⟨rfl, rfl⟩ := branch.inj he₂
      rw [List.foldl_cons, List.foldl_cons, he, ← hput]
      exact ih (fun x hx => hes x (List.mem_cons_of_mem e hx)) hf₁ hg₂
  exact hrun (fork_start h1) ⟨rfl, by simp⟩

theorem le_length_put (hs : KeySorted l) : l.length ≤ (put rem val l).length := by
  cases hlk : l.lookup rem with
  | some v => rw [length_put_some val hs (by rw [hlk]; rfl)]
  | none =>
    rw [length_put_none val hs hlk]
    exact Nat.le_succ _

theorem insert_grown (h : Ok fl kb t) (hg : Grown fl kb t) (h1 : 1 ≤ kb) (hr : rem < 256 ^ kb)
    (hv : val < 256 ^ valueWidth fl) : Grown fl kb (insert fl kb t rem val).2 := by
  induction kb generalizing t rem val with
  | zero => omega
  | succ kb ih =>
    cases t with
    | null =>
      rw [insert]
      dsimp only
      split_ifs
      · exact grown_immed
      · exact grown_leaf
    | immed l =>
      rw [insert]
      dsimp only
      split_ifs
      · exact grown_immed
      · exact grown_leaf
    | leaf l =>
      obtain ⟨hl, -, -⟩ := ok_leaf.mp h
      rw [insert]
      dsimp only
      split_ifs with hsome hbit hover
      · exact grown_leaf
      · have hlk : l.lookup rem = none := Option.not_isSome_iff_eq_none.mp hsome
        refine grown_bitmap.mpr ?_
        rw [length_put_none val hl.sorted hlk]
        exact hbit.2
      · have hlk : l.lookup rem = none := Option.not_isSome_iff_eq_none.mp hsome
        have hes : Fit (valueWidth fl) (kb + 1) (l ++ [(rem, val)]) := by
          intro e he
          rcases List.mem_append.mp he with he | he
          · exact hl.fit e he
          · rw [List.mem_singleton.mp he]
            exact ⟨hr, hv⟩
        obtain ⟨form', kids', he, hf, hfan, hgk⟩ := spread_grown hes hover.1 fun t rem val ht hg hr hv =>
          ih ht hg hover.1 hr hv
        rw [he]
        refine ⟨hgk.form, ?_, hgk.kids⟩
        rw [hfan, List.foldl_append, foldl_put (l := []) hl.sorted, List.nil_append, List.foldl_cons,
          List.foldl_nil, length_put_none val hl.sorted hlk]
        exact hover.2
      · exact grown_leaf
    | bitmap l =>
      obtain ⟨-, hl, -⟩ := ok_bitmap.mp h
      have hmin := grown_bitmap.mp hg
      rw [insert]
      exact grown_bitmap.mpr (lt_of_lt_of_le hmin (le_length_put hl.sorted))
    | branch form kids =>
      have hb := (ok_branch.mp h).1
      obtain ⟨hform, hmin, hkids⟩ := hg
      obtain ⟨form', kids', he, hgk⟩ := intoBranch_grown ⟨hform, hkids⟩ hb.sorted
        fun t rem hg ht hr => ih (ok_child hb ht) hg hb.one_le hr hv
      obtain ⟨form'', kids'', he', -, hfan⟩ := intoBranch_spec (insert fl kb) hb hr
        fun t rem ht hr => insert_spec ht hb.one_le hr hv
      rw [he'] at he
      obtain ⟨rfl, rfl⟩ := branch.inj he
      rw [insert, he']
      refine ⟨hgk.form, ?_, hgk.kids⟩
      rw [hfan]
      exact lt_of_lt_of_le hmin (le_length_put h.sorted)

end Tree

end Expanse.Trie32
