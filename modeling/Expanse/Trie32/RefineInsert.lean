import Expanse.Trie32.Refine

/-!
# Insertions follow the trees

The insertion of the arena does to the stored tree what `Tree.insert` does, forms included. It
takes at most one allocation and one retirement for each level, unless it turns a leaf into a
branch: then it inserts the entries of that leaf again. `Leads` says what the finger may be
trusted with after it.
-/

namespace Expanse.Trie32

open Packed Radix SortedAssoc Trie32.Tree

variable {shared : Bool} {fl : Flavour} {kb rem val d fuel h n : ℕ} {l l₁ l₂ : List (ℕ × ℕ)} {form : Form}
  {kids k₁ k₂ : List (ℕ × Tree)} {c c' t : Tree} {e e' : Edge32} {es es₁ es₂ : List (ℕ × Edge32)}
  {C C' C₁ C₂ F : Cells} {a a' : Arena} {f : Finger} {anc : List Edge32} {p : Option ℕ × Tree}

/-- The digits of `rem` lead through the branches `anc`, the nearest first, to the bitmap leaf `h`. -/
def Leads (fl : Flavour) (C : Cells) : ℕ → Edge32 → ℕ → ℕ → List Edge32 → Prop
  | 0, _, _, _, _ => False
  | 1, e, _, h, anc => e = bitmapEdge fl h ∧ anc = [] ∧ ∃ l, (h, .node (bitmapNode fl l)) ∈ C
  | kb + 2, e, rem, h, anc => ∃ form hb count es c anc', e = .branch form hb ∧ anc = anc' ++ [e] ∧
      (hb, .node (branchNode form (kb + 2) count es)) ∈ C ∧ Kids es ∧ es.length ≤ form.cap ∧
      (digitAt rem (kb + 2), c) ∈ es ∧ Leads fl C (kb + 1) c (childRem rem (kb + 2)) h anc'

theorem Leads.mono (hp : Leads fl C kb e rem h anc) (hC : ∀ x ∈ C, x ∈ C') : Leads fl C' kb e rem h anc := by
  induction kb generalizing e rem anc with
  | zero => exact hp
  | succ kb ih =>
    cases kb with
    | zero =>
      obtain ⟨he, hanc, l, hl⟩ := hp
      exact ⟨he, hanc, l, hC _ hl⟩
    | succ kb =>
      obtain ⟨form, hb, count, es, c, anc', he, hanc, hm, hk, hcap, hc, hp⟩ := hp
      exact ⟨form, hb, count, es, c, anc', he, hanc, hC _ hm, hk, hcap, hc, ih hp⟩

theorem Leads.length (hp : Leads fl C kb e rem h anc) : anc.length + 1 = kb := by
  induction kb generalizing e rem anc with
  | zero => exact absurd hp id
  | succ kb ih =>
    cases kb with
    | zero =>
      obtain ⟨-, rfl, -⟩ := hp
      rfl
    | succ kb =>
      obtain ⟨form, hb, count, es, c, anc', -, rfl, -, -, -, -, hp⟩ := hp
      rw [List.length_append, List.length_singleton, ih hp]

/-- What an insertion leaves behind that should answer `p.1` and store `p.2`. -/
structure Inserts (shared : Bool) (fl : Flavour) (kb n : ℕ) (a : Arena) (F : Cells) (e : Edge32) (rem : ℕ)
    (p : Option ℕ × Tree) (r : Inserted) : Prop where
  prev : r.prev = p.1
  stored : ∃ C', Rep fl kb r.edge p.2 C' ∧ Owned r.arena (C' + F) ∧
    (shared = false → r.finger.valid = true → Leads fl C' kb r.edge rem r.finger.leaf r.finger.ancestors)
  spent : Spent a r.arena n n
  kept : fl = .set → r.prev.isSome → r.edge = e

theorem Inserts.of_clear {prev : Option ℕ} (hprev : prev = p.1) (hrep : Rep fl kb e' p.2 C')
    (ho : Owned a' (C' + F)) (hs : Spent a a' n n) (hkept : fl = .set → prev.isSome → e' = e) :
    Inserts shared fl kb n a F e rem p ⟨prev, e', f.clear, a'⟩ :=
  ⟨hprev, ⟨C', hrep, ho, fun _ hv => absurd hv (by simp [Finger.clear])⟩, hs, hkept⟩

theorem Spent.one (hs : Spent a a' 0 0) (h1 : 1 ≤ n) : Spent a a' n n := hs.mono (by omega) (by omega)

/-- The insertions below a slot of `kb` key bytes. -/
def InsertsAt (shared : Bool) (fl : Flavour) (fuel kb : ℕ) : Prop :=
  ∀ {a : Arena} {C F : Cells} {e : Edge32} {t : Tree} {rem val n : ℕ} {f : Finger},
    Owned a (C + F) → Rep fl kb e t C → Ok fl kb t → rem < 256 ^ kb → val < 256 ^ valueWidth fl →
    1 ≤ n → (Overflows fl kb t rem → 25 * kb ≤ n) → Room a n n →
    ∃ r, insertMode shared fl fuel a e kb rem val f = .ok r ∧
      Inserts shared fl kb n a F e rem (t.insert fl kb rem val) r

theorem put_zero (hl : Held .set kb l) (hlk : (l.lookup rem).isSome) (hv : val < 256 ^ valueWidth .set) :
    put rem val l = l := by
  have hval : val = 0 := by simpa [valueWidth] using hv
  rcases hl.sorted.cut_cases rem with ⟨l₁, w, l₂, rfl, hcut⟩ | ⟨l₁, l₂, rfl, hcut⟩
  · have hw : w = 0 := hl.zero (rem, w) (by simp)
    rw [put_cut_mem hcut, hval, hw]
  · rw [lookup_eq_none hl.sorted hcut.not_mem] at hlk
    cases hlk

theorem immedEdge_set : immedEdge .set kb l = .setImmed kb (l.map Prod.fst) := rfl

theorem insertMode_null (ho : Owned a F) (hr : rem < 256 ^ (kb + 1)) (hv : val < 256 ^ valueWidth fl)
    (h1 : 1 ≤ n) (hroom : Room a n n) :
    ∃ r, insertMode shared fl (fuel + 1) a .null (kb + 1) rem val f = .ok r ∧
      Inserts shared fl (kb + 1) n a F .null rem (Tree.insert fl (kb + 1) null rem val) r := by
  rw [insertMode.eq_def, Tree.insert]
  dsimp only
  rw [kind_null]
  dsimp only
  by_cases hcap : 0 < immedCap fl (kb + 1)
  · rw [if_pos hcap, if_pos hcap]
    refine ⟨_, rfl, .of_clear rfl (rep_immed.mpr ⟨rfl, rfl⟩) ?_ ((Spent.refl a).one h1) ?_⟩
    · rwa [zero_add]
    · exact fun _ hp => absurd hp (by decide)
  · have hfit : Fit (valueWidth fl) (kb + 1) [(rem, val)] := (Held.single hr hv).fit
    obtain ⟨h, a', ha, ho', hs⟩ := makeLeaf_spec ho (hroom.mono h1 (by omega)) hfit
    rw [if_neg hcap, if_neg hcap, ha]
    refine ⟨_, rfl, .of_clear rfl (rep_leaf.mpr ⟨h, rfl, rfl⟩) ?_ (hs.mono h1 (by omega)) ?_⟩
    · rwa [cells_single]
    · exact fun _ hp => absurd hp (by decide)

theorem insertMode_immed (ho : Owned a F) (hok : Ok fl (kb + 1) (immed l)) (hr : rem < 256 ^ (kb + 1))
    (hv : val < 256 ^ valueWidth fl) (h1 : 1 ≤ n) (hroom : Room a n n) :
    ∃ r, insertMode shared fl (fuel + 1) a (immedEdge fl (kb + 1) l) (kb + 1) rem val f = .ok r ∧
      Inserts shared fl (kb + 1) n a F (immedEdge fl (kb + 1) l) rem
        (Tree.insert fl (kb + 1) (immed l) rem val) r := by
  obtain ⟨hl, hone, hcap⟩ := ok_immed.mp hok
  have ho0 : Owned a (0 + F) := by rwa [zero_add]
  rw [insertMode.eq_def, Tree.insert]
  dsimp only
  rw [kind_immed hl hone hcap]
  dsimp only
  rcases hl.sorted.cut_cases rem with ⟨l₁, w, l₂, rfl, hcut⟩ | ⟨l₁, l₂, rfl, hcut⟩
  · rw [locate_cut_mem hcut, lookup_cut hl.sorted, if_pos (.inl rfl), put_cut_mem hcut]
    cases fl with
    | set =>
      have hw : w = 0 := hl.zero (rem, w) (by simp)
      refine ⟨_, rfl, .of_clear (by rw [hw]) (rep_immed.mpr ⟨?_, rfl⟩) ho0 ((Spent.refl a).one h1)
        fun _ _ => rfl⟩
      rw [immedEdge_set, immedEdge_set, List.map_append, List.map_append]
      rfl
    | map =>
      dsimp only
      rw [set_cut]
      exact ⟨_, rfl, .of_clear rfl (rep_immed.mpr ⟨rfl, rfl⟩) ho0 ((Spent.refl a).one h1)
        fun hf => absurd hf (by decide)⟩
  · rw [locate_cut_new hcut, lookup_eq_none hl.sorted hcut.not_mem, put_cut_new hcut]
    dsimp only
    rw [insertIdx_cut]
    by_cases hroom' : (l₁ ++ l₂).length < immedCap fl (kb + 1)
    · rw [if_pos hroom', if_pos (.inr hroom')]
      exact ⟨_, rfl, .of_clear rfl (rep_immed.mpr ⟨rfl, rfl⟩) ho0 ((Spent.refl a).one h1)
        fun _ hp => absurd hp (by decide)⟩
    · have hfit : Fit (valueWidth fl) (kb + 1) (l₁ ++ (rem, val) :: l₂) := by
        have := (hl.put hr hv).fit
        rwa [put_cut_new hcut] at this
      obtain ⟨h, a', ha, ho', hs⟩ := makeLeaf_spec ho (hroom.mono h1 (by omega)) hfit
      rw [if_neg hroom', if_neg (by simpa using hroom'), ha]
      refine ⟨_, rfl, .of_clear rfl (rep_leaf.mpr ⟨h, rfl, rfl⟩) ?_ (hs.mono h1 (by omega)) ?_⟩
      · rwa [cells_single]
      · exact fun _ hp => absurd hp (by decide)

theorem leafTop_mul_le (fl : Flavour) (h4 : kb + 1 ≤ 4) (hlen : l.length ≤ leafTop fl (kb + 1))
    (hbit : ¬ (kb + 1 = 1 ∧ bitmapEnter fl < l.length + 1))
    (hover : ¬ (2 ≤ kb + 1 ∧ leafMax fl < l.length + 1)) : (l.length + 1) * (kb + 1) ≤ LEAF_KEYS_MAX := by
  have hmax : leafMax fl ≤ 24 := by cases fl <;> decide
  have henter : bitmapEnter fl = 64 := by cases fl <;> rfl
  cases kb with
  | zero =>
    unfold LEAF_KEYS_MAX
    omega
  | succ kb =>
    have h24 : l.length + 1 ≤ 24 := by omega
    calc (l.length + 1) * (kb + 1 + 1) ≤ 24 * 4 := Nat.mul_le_mul h24 h4
      _ = LEAF_KEYS_MAX := rfl

/-- What a leaf that overflows is turned into, with the cell of the leaf still beside it. -/
def Spreads (shared : Bool) (fl : Flavour) (fuel kb n : ℕ) (a : Arena) (F : Cells) (es : List (ℕ × ℕ)) : Prop :=
  ∃ e₀ a₀ e' a' C', makeBranch .l2 a (kb + 1) [] 0 = .ok (e₀, a₀) ∧
    insertAll (fun a e k v => insertMode shared fl fuel a e (kb + 1) k v Finger.new) a₀ e₀ es = .ok (e', a') ∧
    Rep fl (kb + 1) e' (spread (Tree.insert fl kb) kb es) C' ∧ Owned a' (C' + F) ∧ Spent a a' n (n - 1)

theorem insertMode_leaf (h4 : kb + 1 ≤ 4) (ho : Owned a ((h, .leaf (valueWidth fl) (kb + 1) l) ::ₘ F))
    (hok : Ok fl (kb + 1) (leaf l)) (hr : rem < 256 ^ (kb + 1)) (hv : val < 256 ^ valueWidth fl)
    (h1 : 1 ≤ n) (hroom : Room a n n)
    (hspread : Overflows fl (kb + 1) (leaf l) rem →
      Spreads shared fl fuel kb n a ((h, .leaf (valueWidth fl) (kb + 1) l) ::ₘ F) (l ++ [(rem, val)])) :
    ∃ r, insertMode shared fl (fuel + 1) a (leafEdge fl (kb + 1) h l.length) (kb + 1) rem val f = .ok r ∧
      Inserts shared fl (kb + 1) n a F (leafEdge fl (kb + 1) h l.length) rem
        (Tree.insert fl (kb + 1) (leaf l) rem val) r := by
  obtain ⟨hl, hmin, hmax⟩ := ok_leaf.mp hok
  obtain ⟨buf, hn, hb⟩ := ho.find_leaf
  rw [insertMode.eq_def, Tree.insert]
  dsimp only
  rw [kind_leaf]
  dsimp only
  rw [leaf_eq hn hb.fits, ok_bind, leafInsertPos_eq hb hl.sorted, hb.readLeaf]
  rcases hl.sorted.cut_cases rem with ⟨l₁, w, l₂, rfl, hcut⟩ | ⟨l₁, l₂, rfl, hcut⟩
  · have hlook := lookup_cut hl.sorted
    rw [lowerBound_cut_mem hcut, if_pos (leaf_hit hb), hb.readVal getElem?_cut, hlook, if_pos (by rfl)]
    cases fl with
    | set =>
      have hw : w = 0 := hl.zero (rem, w) (by simp)
      rw [put_zero hl (by rw [hlook]; rfl) hv]
      refine ⟨_, rfl, .of_clear (by rw [hw]) (rep_leaf.mpr ⟨h, rfl, rfl⟩) ?_ ((Spent.refl a).one h1)
        fun _ _ => rfl⟩
      rwa [cells_single]
    | map =>
      obtain ⟨a', ha, ho', hs⟩ := leafOverwrite_spec ho getElem?_cut hv
      dsimp only
      rw [ha, ok_bind, put_cut_mem hcut]
      rw [set_cut] at ho'
      refine ⟨_, rfl, .of_clear rfl (rep_leaf.mpr ⟨h, ?_, rfl⟩) ?_ (hs.one h1) fun hf => absurd hf (by decide)⟩
      · simp
      · rwa [cells_single]
  · have hlook := lookup_eq_none hl.sorted hcut.not_mem
    have hput : put rem val (l₁ ++ l₂) = l₁ ++ (rem, val) :: l₂ := put_cut_new hcut
    have hlen : (l₁ ++ (rem, val) :: l₂).length = (l₁ ++ l₂).length + 1 := by
      simp only [List.length_append, List.length_cons]
      omega
    have hheld := hl.put hr hv
    rw [lowerBound_cut_new hcut, if_neg (leaf_miss hb hcut), hlook, insertIdx_cut, Option.isSome_none,
      if_neg Bool.false_ne_true]
    rw [hput] at hheld ⊢
    by_cases hbit : kb + 1 = 1 ∧ bitmapEnter fl < (l₁ ++ l₂).length + 1
    · obtain ⟨h', a₁, ha, ho₁, hs₁⟩ := makeBitmap_spec fl ho (hroom.mono h1 (by omega)) hheld.sorted
      rw [Multiset.cons_swap] at ho₁
      obtain ⟨a₂, hfree, ho₂, hs₂⟩ := freeNode_spec ho₁ (hs₁.room (hroom.mono (by omega) (by omega)))
      rw [if_pos hbit, if_pos ⟨by omega, hbit.2⟩, ha, ok_bind]
      dsimp only
      rw [hfree, ok_bind]
      refine ⟨_, rfl, .of_clear rfl (rep_bitmap.mpr ⟨h', rfl, rfl⟩) ?_
        ((hs₁.trans hs₂).mono (by omega) (by omega)) fun _ hp => absurd hp (by simp)⟩
      rwa [cells_single]
    · have hbit' : ¬ (kb = 0 ∧ bitmapEnter fl < (l₁ ++ l₂).length + 1) := fun hb => hbit ⟨by omega, hb.2⟩
      rw [if_neg hbit, if_neg hbit']
      by_cases hover : 2 ≤ kb + 1 ∧ leafMax fl < (l₁ ++ l₂).length + 1
      · obtain ⟨e₀, a₀, e', a', C', h₀, hall, hrep, ho', hs⟩ := hspread ⟨by omega, hover.2, hlook⟩
        have hswap : C' + ((h, .leaf (valueWidth fl) (kb + 1) (l₁ ++ l₂)) ::ₘ F) =
            (h, .leaf (valueWidth fl) (kb + 1) (l₁ ++ l₂)) ::ₘ (C' + F) := Multiset.add_cons _ _ _
        rw [hswap] at ho'
        obtain ⟨a₂, hfree, ho₂, hs₂⟩ := freeNode_spec ho' (hs.room (hroom.mono (by omega) (by omega)))
        rw [if_pos hover, if_pos ⟨by omega, hover.2⟩, h₀, ok_bind]
        dsimp only
        rw [hall, ok_bind]
        dsimp only
        rw [hfree, ok_bind]
        exact ⟨_, rfl, .of_clear rfl hrep ho₂ ((hs.trans hs₂).mono (by omega) (by omega))
          fun _ hp => absurd hp (by simp)⟩
      · have hpos : l₁.length ≤ (l₁ ++ l₂).length := by rw [List.length_append]; omega
        obtain ⟨h', a', ha, ho', hs⟩ := leafInsertAt_spec shared ho (hroom.mono h1 h1) hpos hr hv
          (leafTop_mul_le fl h4 hmax hbit hover)
        have hover' : ¬ (1 ≤ kb ∧ leafMax fl < (l₁ ++ l₂).length + 1) := fun hb => hover ⟨by omega, hb.2⟩
        rw [if_neg hover, if_neg hover', ha, ok_bind]
        rw [insertIdx_cut] at ho'
        refine ⟨_, rfl, .of_clear rfl (rep_leaf.mpr ⟨h', ?_, rfl⟩) ?_ (hs.mono h1 h1)
          fun _ hp => absurd hp (by simp)⟩
        · rw [hlen]
        · rwa [cells_single]

theorem insertMode_bitmap (ho : Owned a ((h, .node (bitmapNode fl l)) ::ₘ F)) (hok : Ok fl (kb + 1) (bitmap l))
    (hr : rem < 256 ^ (kb + 1)) (h1 : 1 ≤ n) (hroom : Room a n n) :
    ∃ r, insertMode shared fl (fuel + 1) a (bitmapEdge fl h) (kb + 1) rem val f = .ok r ∧
      Inserts shared fl (kb + 1) n a F (bitmapEdge fl h) rem (Tree.insert fl (kb + 1) (bitmap l) rem val) r := by
  obtain ⟨hkb, hl, hmin⟩ := ok_bitmap.mp hok
  have h256 : rem < 256 := by simpa [hkb] using hr
  obtain rfl : kb = 0 := by omega
  obtain ⟨a', ha, ho', hs⟩ := bitmapInsertAt_spec shared hl
    (List.ne_nil_of_length_pos (Nat.zero_lt_of_lt hmin)) h256 ho (hroom.mono (by omega) h1) val
  rw [insertMode.eq_def, Tree.insert]
  dsimp only
  rw [kind_bitmap]
  dsimp only
  rw [Nat.mod_eq_of_lt h256, ha, ok_bind]
  refine ⟨_, rfl, rfl, ⟨_, rep_bitmap.mpr ⟨h, rfl, rfl⟩, ?_, fun _ _ => ?_⟩, hs.mono (by omega) h1,
    fun _ _ => rfl⟩
  · rwa [cells_single]
  · subst shared
    exact ⟨rfl, rfl, _, Multiset.mem_singleton_self _⟩

theorem wrapCount_eq {m m' : ℕ} {δ : ℤ} (h : (m' : ℤ) = m + δ) :
    wrapCount (m % COUNT_MOD) δ = m' % COUNT_MOD := by
  have hm : (((m % COUNT_MOD : ℕ) : ℤ) + δ) % COUNT_MOD = ((m' % COUNT_MOD : ℕ) : ℤ) := by
    push_cast
    rw [h, Int.emod_add_emod]
  rw [wrapCount, hm, Int.toNat_natCast]

/-- Fewer than all digits leave room for a key more in the count. -/
theorem branchCount_lt (hb : Fork fl kb form kids) (h3 : kb ≤ 3) (h255 : kids.length ≤ 255) :
    (fanout (256 ^ kb) (entries kb) kids).length + 1 < COUNT_MOD := by
  have hle : ∀ x ∈ kids.map fun c => (entries kb c.2).length, x ≤ 256 ^ 3 := by
    intro x hx
    obtain ⟨c, hc, rfl⟩ := List.mem_map.mp hx
    obtain ⟨hl, -⟩ := (hb.kids c hc).2.2.held
    refine le_trans (hl.sorted.length_le fun y hy => ?_) (Nat.pow_le_pow_right (by decide) h3)
    obtain ⟨x, hx, rfl⟩ := List.mem_map.mp hy
    exact (hl.fit x hx).1
  have hsum := List.sum_le_card_nsmul _ _ hle
  rw [List.length_map, smul_eq_mul] at hsum
  rw [length_fanout]
  calc (kids.map fun c => (entries kb c.2).length).sum + 1 ≤ kids.length * 256 ^ 3 + 1 :=
    Nat.add_le_add_right hsum 1
    _ ≤ 255 * 256 ^ 3 + 1 := Nat.add_le_add_right (Nat.mul_le_mul_right _ h255) 1
    _ < COUNT_MOD := by decide

theorem commitChild_spec (ho : Owned a ((h, .node (branchNode form n d (es₁ ++ (rem, e) :: es₂))) ::ₘ F))
    (hk : Kids (es₁ ++ (rem, e) :: es₂)) (hcap : (es₁ ++ (rem, e) :: es₂).length ≤ form.cap)
    (hne : e' ≠ .null) (δ : ℤ) :
    ∃ a', branchCommit a form h rem (if decide (e' ≠ e) = true then some e' else none) δ = .ok a' ∧
      Owned a' ((h, .node (branchNode form n (wrapCount d δ) (es₁ ++ (rem, e') :: es₂))) ::ₘ F) ∧
      Spent a a' 0 0 := by
  by_cases he : e' = e
  · rw [if_neg (by simpa using he), he]
    exact branchCommit_none ho rem δ
  · rw [if_pos (by simpa using he)]
    exact branchCommit_cut ho hk hcap hne δ

/-- The commit after an insertion below the digit `d`, which is left out when nothing changed. -/
theorem commitInserted_spec {prev : Option ℕ}
    (ho : Owned a ((h, .node (branchNode form (kb + 1) (branchCount kb k₁) (es₁ ++ (d, e) :: es₂))) ::ₘ F))
    (hk : Kids (es₁ ++ (d, e) :: es₂)) (hcap : (es₁ ++ (d, e) :: es₂).length ≤ form.cap) (hne : e' ≠ .null)
    (hkept : fl = .set → prev.isSome → e' = e)
    (hlen : ((fanout (256 ^ kb) (entries kb) k₂).length : ℤ) =
      (fanout (256 ^ kb) (entries kb) k₁).length + if prev.isNone then 1 else 0) :
    ∃ a', (if prev.isNone ∨ fl = .map ∧ decide (e' ≠ e) = true then
        branchCommit a form h d (if decide (e' ≠ e) = true then some e' else none) (if prev.isNone then 1 else 0)
      else pure a) = .ok a' ∧
      Owned a' ((h, .node (branchNode form (kb + 1) (branchCount kb k₂) (es₁ ++ (d, e') :: es₂))) ::ₘ F) ∧
      Spent a a' 0 0 := by
  by_cases hcond : prev.isNone ∨ fl = .map ∧ decide (e' ≠ e) = true
  · obtain ⟨a', ha, ho', hs⟩ := commitChild_spec ho hk hcap hne (if prev.isNone then 1 else 0)
    rw [branchCount, wrapCount_eq hlen] at ho'
    exact ⟨a', by rw [if_pos hcond, ha], ho', hs⟩
  · have hsome : prev.isNone = false := by
      cases prev with
      | none => exact absurd (.inl rfl) hcond
      | some w => rfl
    have he : e' = e := by
      by_contra hne
      cases fl with
      | set => exact hne (hkept rfl (Option.isSome_iff_ne_none.mpr fun hp => hcond (.inl (by rw [hp]; rfl))))
      | map => exact hcond (.inr ⟨rfl, by simpa using hne⟩)
    rw [hsome, if_neg Bool.false_ne_true, add_zero, Nat.cast_inj] at hlen
    rw [if_neg hcond, he, branchCount, hlen]
    exact ⟨a, rfl, ho, Spent.refl a⟩

/-- The path through a branch whose child did not move. -/
theorem Leads.record (hp : Leads fl C' kb e rem f.leaf f.ancestors) (hvalid : f.valid = true) (h3 : kb ≤ 3)
    {count : ℕ} (hm : (h, .node (branchNode form (kb + 1) count es)) ∈ C) (hk : Kids es)
    (hcap : es.length ≤ form.cap) (hsub : ∀ x ∈ C', x ∈ C) {k : ℕ} (he : (digitAt k (kb + 1), e) ∈ es)
    (hrem : rem = childRem k (kb + 1)) :
    Leads fl C (kb + 1) (.branch form h) k (f.record (.branch form h)).leaf
      (f.record (.branch form h)).ancestors := by
  have hlen := hp.length
  obtain ⟨kb, rfl⟩ : ∃ m, kb = m + 1 := ⟨kb - 1, by omega⟩
  rw [Finger.record, if_pos ⟨hvalid, by omega⟩]
  exact ⟨form, h, count, es, e, f.ancestors, rfl, rfl, hm, hk, hcap, he, hrem ▸ hp.mono hsub⟩

/-- A branch counts one key more when the insertion below it is of a new key. -/
theorem length_fan_put (d : ℕ) (k₁ k₂ : List (ℕ × Tree)) (hs : KeySorted (entries kb c))
    (hent : entries kb c' = put rem val (entries kb c)) :
    ((fanout (256 ^ kb) (entries kb) (k₁ ++ (d, c') :: k₂)).length : ℤ) =
      (fanout (256 ^ kb) (entries kb) (k₁ ++ (d, c) :: k₂)).length +
        if ((entries kb c).lookup rem).isNone then 1 else 0 := by
  rw [length_fanout_cut, length_fanout_cut, hent]
  cases hlk : (entries kb c).lookup rem with
  | none =>
    rw [length_put_none val hs hlk, Option.isNone_none, if_pos rfl]
    push_cast
    ring
  | some w =>
    rw [length_put_some val hs (by rw [hlk]; rfl), Option.isNone_some, if_neg Bool.false_ne_true, add_zero]

theorem insertMode_digit (ih : InsertsAt shared fl fuel kb) (h3 : kb ≤ 3)
    (ho : Owned a (C + F)) (hrep : Rep fl (kb + 1) e (branch form (k₁ ++ (digitAt rem (kb + 1), c) :: k₂)) C)
    (hb : Fork fl kb form (k₁ ++ (digitAt rem (kb + 1), c) :: k₂)) (hcut : CutAt (digitAt rem (kb + 1)) k₁ k₂)
    (hv : val < 256 ^ valueWidth fl)
    (h1 : 1 ≤ n)
    (hov : Overflows fl (kb + 1) (branch form (k₁ ++ (digitAt rem (kb + 1), c) :: k₂)) rem → 25 * kb ≤ n)
    (hroom : Room a n n) :
    ∃ r, insertMode shared fl (fuel + 1) a e (kb + 1) rem val f = .ok r ∧
      Inserts shared fl (kb + 1) n a F e rem
        (intoBranch (Tree.insert fl kb) kb (branch form (k₁ ++ (digitAt rem (kb + 1), c) :: k₂)) rem val) r := by
  obtain ⟨h, es, Ck, rfl, hk, rfl⟩ := rep_branch.mp hrep
  have hcr := childRem_lt rem kb
  have hedges := hk.edges hb
  have hcap := hb.cap
  rw [← hk.length] at hcap
  obtain ⟨es₁, ec, es₂, C₁, Cc, C₂, rfl, hk₁, hrc, hk₂, rfl⟩ := hk.cut
  have hchild := (hb.kids (digitAt rem (kb + 1), c) (by simp)).2.2
  have hlook := lookup_cut hb.sorted
  rw [insertMode.eq_def, intoBranch]
  dsimp only
  rw [kind_branch]
  dsimp only
  rw [branchChild_cut (cells_branch _ ▸ ho) hedges hcap, ok_bind, hlook, Nat.add_sub_cancel]
  rw [cells_child] at ho
  obtain ⟨r, hr₁, hprev, ⟨C', hrep', ho', hlead⟩, hs, hkept⟩ := ih ho hrc hchild hcr hv h1
    (fun hover => hov ⟨c, hlook, hover⟩) hroom
  obtain ⟨hp, hok, hlive, hent⟩ := Tree.insert_spec hchild hb.one_le hcr hv
  have hne := hrep'.live hok hlive
  have hlen := length_fan_put (digitAt rem (kb + 1)) k₁ k₂ hchild.sorted hent
  rw [← hp, ← hprev] at hlen
  rw [cells_rotate] at ho'
  obtain ⟨a', ha, ho₂, hs₂⟩ := commitInserted_spec ho' hedges hcap hne hkept hlen
  have hjoin := RepKids.join (d := digitAt rem (kb + 1)) hk₁ hrep' hk₂
  dsimp only
  rw [hr₁, ok_bind, put_cut_mem hcut]
  refine ⟨⟨r.prev, .branch form h, (if decide (r.edge ≠ ec) = true then r.finger.clear else r.finger).record
    (.branch form h), a'⟩, ?_, hprev, ⟨_, rep_branch.mpr ⟨h, _, _, rfl, hjoin, rfl⟩, ?_, ?_⟩, ?_, fun _ _ => rfl⟩
  · by_cases hcond : r.prev.isNone ∨ fl = .map ∧ decide (r.edge ≠ ec) = true
    · rw [if_pos hcond] at ha ⊢
      rw [ha]
      rfl
    · rw [if_neg hcond] at ha ⊢
      rw [ha]
      rfl
  · rw [cells_branch]
    exact ho₂
  · dsimp only
    by_cases hmoved : r.edge = ec
    · rw [if_neg (by simpa using hmoved)]
      intro hplain hvalid
      have hv' : r.finger.valid = true := by
        rw [Finger.record] at hvalid
        split_ifs at hvalid with hc
        · exact hc.1
        · exact hvalid
      have hcap' : (es₁ ++ (digitAt rem (kb + 1), r.edge) :: es₂).length ≤ form.cap := by simpa using hcap
      exact (hlead hplain hv').record hv' h3 (Multiset.mem_cons_self _ _) (hedges.replace hne) hcap'
        (fun x hx => Multiset.mem_cons_of_mem (Multiset.mem_add.mpr (.inl hx))) (by simp) rfl
    · rw [if_pos (by simpa using hmoved)]
      intro _ hvalid
      exact absurd hvalid (by simp [Finger.record, Finger.clear])
  · exact (hs.trans hs₂).mono (by omega) (by omega)

theorem immedCap_pos (fl : Flavour) (h1 : 1 ≤ kb) (h3 : kb ≤ 3) : 0 < immedCap fl kb := by
  cases fl with
  | set => exact Nat.div_pos (by omega) h1
  | map => simp [immedCap, h3]

theorem insertMode_newDigit (hf : 1 ≤ fuel) (h3 : kb ≤ 3)
    (ho : Owned a (C + F)) (hrep : Rep fl (kb + 1) e (branch form (k₁ ++ k₂)) C)
    (hb : Fork fl kb form (k₁ ++ k₂)) (hcut : CutAt (digitAt rem (kb + 1)) k₁ k₂)
    (hv : val < 256 ^ valueWidth fl) (h1 : 1 ≤ n) (hroom : Room a n n) :
    ∃ r, insertMode shared fl (fuel + 1) a e (kb + 1) rem val f = .ok r ∧
      Inserts shared fl (kb + 1) n a F e rem (intoBranch (Tree.insert fl kb) kb
        (branch form (k₁ ++ k₂)) rem val) r := by
  obtain ⟨h, es, Ck, rfl, hk, rfl⟩ := rep_branch.mp hrep
  obtain ⟨fuel, rfl⟩ : ∃ m, fuel = m + 1 := ⟨fuel - 1, by omega⟩
  obtain ⟨kb, rfl⟩ : ∃ m, kb = m + 1 := ⟨kb - 1, by have := hb.one_le; omega⟩
  have hcr := childRem_lt rem (kb + 1)
  have hd := digit_lt' rem (kb + 1 + 1)
  have hedges := hk.edges hb
  have hcap := hb.cap
  rw [← hk.length] at hcap
  obtain ⟨es₁, es₂, C₁, C₂, rfl, hk₁, hk₂, rfl⟩ := hk.split
  have hcutE := hk₁.cutAt hk₂ hcut
  have himm := immedCap_pos fl (Nat.le_add_left 1 kb) h3
  have hleaf : Tree.insert fl (kb + 1) null (childRem rem (kb + 1 + 1)) val =
      (none, immed [(childRem rem (kb + 1 + 1), val)]) := by
    rw [Tree.insert, if_pos himm]
  have hok : Ok fl (kb + 1) (immed [(childRem rem (kb + 1 + 1), val)]) :=
    ok_immed.mpr ⟨.single hcr hv, le_rfl, himm⟩
  have hrep' : Rep fl (kb + 1) (immedEdge fl (kb + 1) [(childRem rem (kb + 1 + 1), val)])
      (immed [(childRem rem (kb + 1 + 1), val)]) 0 := rep_immed.mpr ⟨rfl, rfl⟩
  have hne := hrep'.live hok (by simp)
  have hb' := hb.insert hcut hd (c := immed [(childRem rem (kb + 1 + 1), val)]) (by simp) hok
  have hlen : (fanout (256 ^ (kb + 1)) (entries (kb + 1)) (k₁ ++ k₂)).length + 1 =
      (fanout (256 ^ (kb + 1)) (entries (kb + 1))
        (k₁ ++ (digitAt rem (kb + 1 + 1), immed [(childRem rem (kb + 1 + 1), val)]) :: k₂)).length := by
    rw [length_fanout_cut, entries_immed, List.length_singleton, Nat.add_comm]
  have h256 := hb'.sorted.length_le (n := 256) fun x hx => by
    obtain ⟨y, hy, rfl⟩ := List.mem_map.mp hx
    exact (hb'.kids y hy).1
  have hmax := branchCount_lt hb h3 (by simp only [List.length_append, List.length_cons] at h256 ⊢; omega)
  have hcount : branchCount (kb + 1) (k₁ ++ k₂) + 1 = branchCount (kb + 1)
      (k₁ ++ (digitAt rem (kb + 1 + 1), immed [(childRem rem (kb + 1 + 1), val)]) :: k₂) := by
    rw [branchCount, branchCount, ← hlen, Nat.mod_eq_of_lt (by omega), Nat.mod_eq_of_lt hmax]
  have hlt : branchCount (kb + 1) (k₁ ++ k₂) + 1 < COUNT_MOD := by
    rw [branchCount, Nat.mod_eq_of_lt (by omega)]
    exact hmax
  rw [cells_branch] at ho
  obtain ⟨h', a', ha, ho', hs⟩ := branchInsertNew_spec shared ho (hroom.mono h1 h1) hedges hcutE hd hne hcap hlt
  rw [hcount, hk.length] at ho'
  rw [hk.length] at ha
  rw [insertMode.eq_def, intoBranch]
  dsimp only
  rw [kind_branch]
  dsimp only
  rw [branchChild_absent ho hedges hcutE hd hcap, ok_bind, lookup_eq_none hb.sorted hcut.not_mem,
    Nat.add_sub_cancel]
  dsimp only
  rw [insertMode.eq_def]
  dsimp only
  rw [kind_null]
  dsimp only
  rw [if_pos himm, ok_bind, ha, ok_bind, hleaf, put_cut_new hcut]
  have hjoin := RepKids.join (d := digitAt rem (kb + 1 + 1)) hk₁ hrep' hk₂
  rw [zero_add] at hjoin
  refine ⟨_, rfl, .of_clear rfl (rep_branch.mpr ⟨h', _, _, rfl, hjoin, rfl⟩) ?_ (hs.mono ?_ h1)
    fun _ hp => absurd hp (by simp)⟩
  · rw [cells_branch]
    exact ho'
  · split_ifs <;> omega

theorem insertMode_branch (ih : InsertsAt shared fl fuel kb) (hf : 1 ≤ fuel) (h3 : kb ≤ 3)
    (ho : Owned a (C + F)) (hrep : Rep fl (kb + 1) e (branch form kids) C) (hb : Fork fl kb form kids)
    (hv : val < 256 ^ valueWidth fl)
    (h1 : 1 ≤ n) (hov : Overflows fl (kb + 1) (branch form kids) rem → 25 * kb ≤ n) (hroom : Room a n n) :
    ∃ r, insertMode shared fl (fuel + 1) a e (kb + 1) rem val f = .ok r ∧
      Inserts shared fl (kb + 1) n a F e rem (intoBranch (Tree.insert fl kb) kb
        (branch form kids) rem val) r := by
  rcases hb.sorted.cut_cases (digitAt rem (kb + 1)) with ⟨k₁, c, k₂, rfl, hcut⟩ | ⟨k₁, k₂, rfl, hcut⟩
  · exact insertMode_digit ih h3 ho hrep hb hcut hv h1 hov hroom
  · exact insertMode_newDigit hf h3 ho hrep hb hcut hv h1 hroom

theorem insertAll_append (ins : Arena → Edge32 → ℕ → ℕ → Except Fault Inserted) (es es' : List (ℕ × ℕ)) :
    insertAll ins a e (es ++ es') = insertAll ins a e es >>= fun r => insertAll ins r.2 r.1 es' := by
  induction es generalizing a e with
  | nil => rfl
  | cons x es ih =>
    rw [List.cons_append, insertAll, insertAll]
    cases ins a e x.1 x.2 with
    | ok r => exact ih
    | error err => rfl

theorem insertAll_spec (ih : InsertsAt shared fl fuel kb) (hf : 1 ≤ fuel) (h3 : kb ≤ 3) {es : List (ℕ × ℕ)}
    (hes : Fit (valueWidth fl) (kb + 1) es) (ho : Owned a (C + F))
    (hrep : Rep fl (kb + 1) e (branch form kids) C) (hb : Fork fl kb form kids)
    (hsmall : (fanout (256 ^ kb) (entries kb) kids).length + es.length ≤ leafMax fl)
    (hroom : Room a es.length es.length) :
    ∃ e' a' C' form' kids', insertAll (fun a e k v => insertMode shared fl (fuel + 1) a e
      (kb + 1) k v Finger.new)
        a e es = .ok (e', a') ∧
      es.foldl (fun t x => (intoBranch (Tree.insert fl kb) kb t x.1 x.2).2) (branch form kids) =
        branch form' kids' ∧
      Rep fl (kb + 1) e' (branch form' kids') C' ∧ Owned a' (C' + F) ∧ Fork fl kb form' kids' ∧
      Spent a a' es.length es.length := by
  induction es generalizing a C e form kids with
  | nil => exact ⟨e, a, C, form, kids, rfl, rfl, hrep, ho, hb, Spent.refl a⟩
  | cons x es hi =>
    obtain ⟨hk, hv⟩ := hes x List.mem_cons_self
    rw [List.length_cons] at hsmall hroom
    have hfit : ¬ Overflows fl (kb + 1) (branch form kids) x.1 := fun hov => by
      have := hb.large hov
      omega
    obtain ⟨r, hr, hprev, ⟨C₁, hrep₁, ho₁, -⟩, hs₁, -⟩ :=
      insertMode_branch (f := Finger.new) ih hf h3 ho hrep hb hv
      le_rfl (fun hov => absurd hov hfit) (hroom.mono (by omega) (by omega))
    obtain ⟨form₁, kids₁, he₁, hb₁, hput⟩ := intoBranch_spec (Tree.insert fl kb) hb hk
      fun t rem ht hr => Tree.insert_spec ht hb.one_le hr hv
    have hlen : (fanout (256 ^ kb) (entries kb) kids₁).length ≤
        (fanout (256 ^ kb) (entries kb) kids).length + 1 := by
      rw [hput]
      exact length_put_le _ _ _
    rw [he₁] at hrep₁
    obtain ⟨e', a', C', form', kids', hall, hfold, hrep', ho', hb', hs'⟩ := hi
      (fun y hy => hes y (List.mem_cons_of_mem x hy)) ho₁ hrep₁ hb₁ (by omega)
      (hs₁.room (hroom.mono (by omega) (by omega)))
    refine ⟨e', a', C', form', kids', ?_, ?_, hrep', ho', hb', ?_⟩
    · rw [insertAll, hr, ok_bind, hall]
    · rw [List.foldl_cons, he₁, hfold]
    · exact (hs₁.trans hs').mono (by rw [List.length_cons]; omega) (by rw [List.length_cons]; omega)

/-- The leaf is full, so its entries fit without an overflow: only the last insertion may cause one. -/
theorem spreads (ih : InsertsAt shared fl fuel kb) (hf : 1 ≤ fuel) (h1 : 1 ≤ kb) (h3 : kb ≤ 3)
    (hl : Held fl (kb + 1) l) (hlen : l.length = leafMax fl)
    (hv : val < 256 ^ valueWidth fl) (ho : Owned a F) (hn : 25 * (kb + 1) ≤ n) (hroom : Room a n n) :
    Spreads shared fl (fuel + 1) kb n a F (l ++ [(rem, val)]) := by
  have hmax : leafMax fl ≤ 24 := by cases fl <;> decide
  obtain ⟨h₀, a₀, ha₀, ho₀, hs₀⟩ := @makeBranch_spec .l2 (kb + 1) [] a F 0 ho
    (hroom.mono (by omega) (by omega)) (by decide)
  have hrep₀ : Rep fl (kb + 1) (.branch .l2 h₀) (branch .l2 []) {(h₀, .node (branchNode .l2 (kb + 1) 0 []))} :=
    rep_branch.mpr ⟨h₀, [], 0, rfl, repKids_nil, rfl⟩
  rw [← cells_single] at ho₀
  have hr₀ : Room a₀ (n - 1) n := hs₀.room (hroom.mono (by omega) (by omega))
  obtain ⟨e₁, a₁, C₁, form₁, kids₁, hall, hfold, hrep₁, ho₁, hb₁, hs₁⟩ :=
    insertAll_spec ih hf h3 hl.fit ho₀ hrep₀
    (fork_start h1) (by simp [hlen]) (hr₀.mono (by omega) (by omega))
  have hr₁ : Room a₁ (25 * kb) (25 * kb) := hs₁.room (hr₀.mono (by omega) (by omega))
  obtain ⟨r, hlast, -, ⟨C', hrep', ho', -⟩, hs', -⟩ :=
    insertMode_branch (f := Finger.new) ih hf h3 ho₁ hrep₁ hb₁ hv
    (by omega) (fun _ => le_rfl) hr₁
  refine ⟨_, a₀, r.edge, r.arena, C', ha₀, ?_, ?_, ho', ?_⟩
  · rw [insertAll_append, hall, ok_bind]
    dsimp only
    rw [insertAll, hlast]
    rfl
  · rw [spread, List.foldl_append, hfold]
    exact hrep'
  · exact ((hs₀.trans hs₁).trans hs').mono (by omega) (by omega)

/-- Twice the key bytes are fuel enough. -/
theorem insertMode_inserts (shared : Bool) (fl : Flavour) (h1 : 1 ≤ kb) (h4 : kb ≤ 4) (hf : 2 * kb ≤ fuel) :
    InsertsAt shared fl fuel kb := by
  induction kb generalizing fuel with
  | zero => omega
  | succ kb ih =>
    intro a C F e t rem val n f ho hrep hok hr hv hone hov hroom
    obtain ⟨fuel, rfl⟩ : ∃ m, fuel = m + 2 := ⟨fuel - 2, by omega⟩
    cases t with
    | null =>
      obtain ⟨rfl, rfl⟩ := rep_null.mp hrep
      exact insertMode_null (zero_add F ▸ ho) hr hv hone hroom
    | immed l =>
      obtain ⟨rfl, rfl⟩ := rep_immed.mp hrep
      exact insertMode_immed (zero_add F ▸ ho) hok hr hv hone hroom
    | leaf l =>
      obtain ⟨h, rfl, rfl⟩ := rep_leaf.mp hrep
      rw [cells_single] at ho
      refine insertMode_leaf h4 ho hok hr hv hone hroom fun hover => ?_
      obtain ⟨hl, -, hmax⟩ := ok_leaf.mp hok
      have hkb : 1 ≤ kb := hover.1
      have hlen : l.length = leafMax fl := by
        have hlt := hover.2.1
        rw [leafTop, if_neg (by omega)] at hmax
        omega
      exact spreads (ih hkb (by omega) (by omega)) (by omega) hkb (by omega) hl hlen hv ho (hov hover) hroom
    | bitmap l =>
      obtain ⟨h, rfl, rfl⟩ := rep_bitmap.mp hrep
      rw [cells_single] at ho
      exact insertMode_bitmap ho hok hr hone hroom
    | branch form kids =>
      have hb := (ok_branch.mp hok).1
      exact insertMode_branch (ih hb.one_le (by omega) (by omega)) (by omega) (by omega) ho hrep hb hv hone
        (fun hover => by have := hov hover; omega) hroom

theorem inserts (shared : Bool) (fl : Flavour) : InsertsAt shared fl FUEL KEY_BYTES :=
  insertMode_inserts shared fl (by decide) (by decide) (by decide)

end Expanse.Trie32
