import Expanse.Store.Warm

/-!
# Inserts keep the invariant

Each root state takes an insert its own way: a root leaf absorbs the key or is
promoted to a tree, a tree goes through the cached path or through the descent.
All of them bind exactly the key.
-/

namespace Expanse

open Radix SortedAssoc Edge

namespace Edge

variable {V : Type} [Inhabited V] {fl : Flavour} {lo : ℕ → ℕ → ℕ} {L key : ℕ} {e : Edge V}

/-- A policy that no narrow leaf meets. -/
def wide (lo : ℕ → ℕ → ℕ) (L kb : ℕ) : ℕ := if kb = L then lo L L else LEAF_CAP + 1

theorem Shape.of_wide (h : Shape fl (wide lo) L e) : Shape fl lo L e := by
  induction L using Nat.strong_induction_on generalizing e with
  | _ L ih =>
    cases e with
    | leaf kb aux cols =>
      rw [Shape] at h ⊢
      obtain ⟨h1, hkl, h7, hp, hn, hcap, hpop, hlo⟩ := h
      refine ⟨h1, hkl, h7, hp, hn, hcap, hpop, ?_⟩
      have := leafCap_le kb
      unfold wide LEAF_CAP at hlo
      split_ifs at hlo with hk
      · rwa [hk]
      · omega
    | branch aux node =>
      have hb := shape_branch.mp h
      have h2 := hb.two_le
      have hl := hb.le
      exact shape_branch.mpr ⟨hb.le_eight, hb.top, hb.ok, hb.filled, hb.range, h2, hl,
        fun d c hf => ⟨ih _ (by omega) (hb.kids d c hf).1, (hb.kids d c hf).2⟩⟩
    | _ =>
      rw [Shape] at h ⊢
      exact h

/-- Without narrow leaves nothing can go wrong on the way of an insert. -/
theorem clean_of_wide (h : Shape fl (wide lo) L e) : Clean fl (wide lo) L e key := by
  have hleaf : ∀ {M kb aux cols}, terminal L e key = (M, leaf kb aux cols) → kb = M := by
    intro M kb aux cols ht
    have hs := (terminal_shape h key).1
    rw [ht] at hs
    rw [Shape] at hs
    obtain ⟨-, -, -, -, -, hcap, -, hlo⟩ := hs
    have := leafCap_le kb
    by_contra hne
    simp only [wide, if_neg hne, LEAF_CAP] at hlo
    omega
  constructor
  · rintro ⟨M, kb, aux, cols, ht, hne, -⟩
    rw [hleaf ht, slice_self, slice_self] at hne
    exact hne rfl
  · rintro - ⟨M, aux, cols, ht, -, hne, -⟩
    rw [← hleaf ht, slice_self] at hne
    exact hne rfl

theorem admits_wide (h : Admits fl lo) : Admits fl (wide lo) := by
  intro L h1 h7
  rw [wide, if_pos rfl]
  exact h L h1 h7

omit [Inhabited V] in
/-- Only the panic of maps is left when leaves of any population are admitted. -/
theorem clean_zero_of_safe (h : fl = .map → ¬ Panics L e key) : Clean fl (fun _ _ => 0) L e key :=
  ⟨fun ⟨_, _, _, _, _, _, hlt⟩ => absurd hlt (Nat.not_lt_zero _), h⟩

omit [Inhabited V] in
theorem clean_zero : Clean .set (fun _ _ => 0) L e key := clean_zero_of_safe (by simp)

theorem admits_zero : Admits fl fun _ _ => 0 := fun _ _ _ => Nat.zero_le _

/-- The form at which a descent ends holds no more keys than the whole edge. -/
theorem terminal_length_le (h : Shape fl lo L e) (key : ℕ) :
    (entries (terminal L e key).1 (terminal L e key).2).length ≤ (entries L e).length := by
  induction L using Nat.strong_induction_on generalizing e with
  | _ L ih =>
    cases e with
    | branch aux node =>
      have hb := shape_branch.mp h
      have h2 := hb.two_le
      have hl := hb.le
      by_cases hg : slice key (node.level L) L = slice aux (node.level L) L
      · rw [terminal_branch hb hg]
        refine (ih _ (by omega) (hb.child _).1).trans ?_
        rw [entries_branch (by omega) hl, List.length_flatMap]
        by_cases hn : node.child (digit key (node.level L)) = null
        · rw [hn, entries]
          exact Nat.zero_le _
        · have hm := (Branch.mem_slots_iff hb.ok hb.filled).mpr ⟨rfl, hn⟩
          have := List.mem_map_of_mem (f := fun s : ℕ × Edge V => (shift (slice aux (node.level L) L *
            256 ^ node.level L + s.1 * 256 ^ (node.level L - 1))
            (entries (node.level L - 1) s.2)).length) hm
          have := List.le_sum_of_mem this
          simpa using this
      · rw [terminal, dif_pos ⟨by omega, hl⟩, if_neg hg]
    | _ => simp [terminal]

/-- A tree with fewer keys than a full leaf truncates nothing. -/
theorem not_armsTruncated_of_small {val : V} {M : ℕ} (h : Shape fl lo L e)
    (hs : (entries L e).length < LEAF_CAP) : ¬ ArmsTruncated fl L e key val M := by
  rintro ⟨kb, aux, cols, ht, -, -, hsz, -⟩
  have := terminal_length_le h key
  rw [ht, entries, length_shift, Columns.length_entries, hsz] at this
  omega

end Edge

namespace Store

variable {V : Type} [Inhabited V] {fl : Flavour} {lo : ℕ → ℕ → ℕ} {keep : Bool} {key n : ℕ}
  {val : V} {s : Store V} {top : Edge V} {path : Option InsertPath} {cols : Columns V}

variable (keep val) in
theorem coldTree_spec (h : TreeInv fl lo top n path) (hk : key < 256 ^ 8)
    (hc : Clean fl lo 8 (settled path top) key) (ha : Admits fl lo)
    (hV : fl = .set → ∀ v : V, v = default) :
    ∃ o, coldTree fl keep ⟨.tree top, n, path⟩ key val = .ok o ∧
      Inserts fl lo keep ⟨.tree top, n, path⟩ key val o := by
  obtain ⟨r, hr, hsp⟩ := insertFlat_spec keep val h.wf (by decide) le_rfl hc ha hV
    (show 2 * 8 + 4 ≤ FUEL by decide)
  have hold := hsp.old
  have hup := hsp.content
  have hslot := hsp.slot
  rw [low_of_lt hk] at hold hup hslot
  rw [h.entries_settled] at hold hup
  have hcold : coldTree fl keep ⟨.tree top, n, path⟩ key val =
      .ok ⟨⟨.tree r.edge, if r.old.isNone then n + 1 else n, r.path⟩, r.old, .tree r.slot⟩ := by
    simp only [coldTree, h.clearPath_eq, hr]
  refine ⟨_, hcold, ?_, hold, hup, hslot, ?_⟩
  · have hlen := hup.length h.readable.sorted hsp.shape.sorted
    have hin : key ∈ (entries 8 top).map Prod.fst ↔ r.old.isSome := by
      simp only [List.mem_map, Prod.exists, exists_and_right, exists_eq_right,
        Option.isSome_iff_exists, hold]
    have hlen' : (entries 8 r.edge).length = if r.old.isNone then n + 1 else n := by
      rw [hlen, ← h.pop]
      simp only [hin]
      cases r.old <;> rfl
    have hlarge := h.large
    have hpop := h.pop
    refine TreeInv.of_wf ⟨hsp.shape, hsp.exact h.wf.2⟩ hlen'.symm ?_ ?_ ?_
    · rw [hlen']
      split_ifs <;> omega
    · exact fun w hw => (hsp.path w hw).pending
    · intro w hw
      obtain ⟨u, t, hres, hp, -⟩ := (hsp.path w hw).leads
      exact ⟨u, t, hres, hp⟩
  · intro w top' u t hw htop hres
    cases htop
    obtain ⟨u', t', hres', -, hcase⟩ := (hsp.path w hw).leads
    rw [hres] at hres'
    cases hres'
    rcases hcase with ⟨hu, hp⟩ | ⟨M, hM, hu⟩
    · left
      rw [hu, hp, low_of_lt hk]
    · exact .inr (.inr ⟨top, M, rfl, hM, hu⟩)

theorem insertAll_spec (ha : Admits fl lo) (hV : fl = .set → ∀ v : V, v = default)
    {l : List (ℕ × V)} (hs : KeySorted l) (hb : ∀ x ∈ l, x.1 < 256 ^ 8) {e : Edge V}
    (hw : WF fl (wide lo) 8 e) (p : Option InsertPath) :
    ∃ e' p', insertAll (fun e k v => insertFlat fl false FUEL e k v 8) e p l = .ok (e', p') ∧
      WF fl (wide lo) 8 e' ∧ ∀ k v, (k, v) ∈ entries 8 e' ↔
        (k, v) ∈ l ∨ k ∉ l.map Prod.fst ∧ (k, v) ∈ entries 8 e := by
  induction l generalizing e p with
  | nil => exact ⟨e, p, rfl, hw, by simp⟩
  | cons x rest ih =>
    obtain ⟨k, v⟩ := x
    obtain ⟨r, hr, hsp⟩ := insertFlat_spec false v hw (by decide) le_rfl
      (clean_of_wide hw.1 : Clean fl (wide lo) 8 e k) (admits_wide ha) hV
      (show 2 * 8 + 4 ≤ FUEL by decide)
    have hkb : low k 8 = k := low_of_lt (hb (k, v) (by simp))
    have hup := hsp.content
    rw [hkb] at hup
    obtain ⟨e', p', he, hw', hm⟩ := ih (List.pairwise_cons.mp hs).2
      (fun x hx => hb x (by simp [hx])) ⟨hsp.shape, hsp.exact hw.2⟩ r.path
    refine ⟨e', p', ?_, hw', ?_⟩
    · rw [insertAll]
      simp only [hr]
      exact he
    · intro y w
      rw [hm, hup y w]
      have hk : ∀ w, (k, w) ∉ rest := by
        intro w hmem
        exact absurd ((List.pairwise_cons.mp hs).1 _ hmem) (lt_irrefl k)
      by_cases hy : y = k
      · subst hy
        have hkn : y ∉ rest.map Prod.fst := by
          intro hmem
          obtain ⟨⟨_, w'⟩, hw', rfl⟩ := List.mem_map.mp hmem
          exact hk w' hw'
        simp [hk, hkn, stored]
      · simp [hy]

theorem promoteLeaf_spec (h : LeafInv cols path) (hfull : cols.size = ROOT_LEAF_CAP)
    (hk : key < 256 ^ 8) (hn : key ∉ cols.keys) (ha : Admits fl lo)
    (hV : fl = .set → ∀ v : V, v = default) :
    ∃ o, insertInner fl keep ⟨.leaf cols, n, path⟩ key val = .ok o ∧
      Inserts fl lo keep ⟨.leaf cols, n, path⟩ key val o := by
  have hnull : WF fl (wide lo) 8 (null : Edge V) := ⟨by simp [Shape], trivial⟩
  have hbound : ∀ x ∈ cols.entries, x.1 < 256 ^ 8 := by
    rintro ⟨k, v⟩ hm
    exact h.packed.bound k (Columns.mem_keys hm)
  obtain ⟨e, p, he, hw, hmem⟩ := insertAll_spec ha hV h.packed.keySorted hbound hnull none
  have hent : entries 8 e = cols.entries := by
    apply KeySorted.ext hw.1.sorted h.packed.keySorted
    intro k v
    rw [hmem, entries]
    simp
  obtain ⟨r, hr, hsp⟩ := insertFlat_spec false val hw (by decide) le_rfl
    (clean_of_wide hw.1 : Clean fl (wide lo) 8 e key) (admits_wide ha) hV
    (show 2 * 8 + 4 ≤ FUEL by decide)
  have hold := hsp.old
  have hup := hsp.content
  have hslot := hsp.slot
  rw [low_of_lt hk] at hold hup hslot
  rw [hent] at hold hup
  have hnone : r.old = none := by
    cases hr' : r.old with
    | none => rfl
    | some v => exact absurd (Columns.mem_keys ((hold v).mp hr')) hn
  have hpos : leafPos cols.keys cols.size key = .error (lowerBound cols.keys key) := by
    rw [show cols.size = cols.keys.length from rfl,
      leafPos_eq_locate h.packed.sorted h.one_le, locate_of_not_mem hn]
  have hins : insertInner fl keep ⟨.leaf cols, n, path⟩ key val =
      .ok ⟨⟨.tree r.edge, cols.size + 1, r.path⟩, none, .tree r.slot⟩ := by
    have hge : ¬ cols.size < ROOT_LEAF_CAP := by omega
    simp only [insertInner, hpos, if_neg hge, promoteLeaf, he, hr]
  rw [hnone] at hold hup hslot
  have hlen : (entries 8 r.edge).length = cols.size + 1 := by
    rw [hup.length h.packed.keySorted hsp.shape.sorted, if_neg, Columns.length_entries]
    rw [Columns.map_fst_entries]
    exact hn
  rw [stored_none] at hup hslot
  refine ⟨_, hins, ?_, hold, by rw [stored_none]; exact hup, by rw [stored_none]; exact hslot, ?_⟩
  · refine TreeInv.of_wf ⟨hsp.shape.of_wide, hsp.exact hw.2⟩ hlen.symm ?_ ?_ ?_
    · omega
    · exact fun w hw => (hsp.path w hw).pending
    · intro w hw
      obtain ⟨u, t, hres, hp, -⟩ := (hsp.path w hw).leads
      exact ⟨u, t, hres, hp⟩
  · intro w top' u t hw' htop hres
    cases htop
    obtain ⟨u', t', hres', -, hcase⟩ := (hsp.path w hw').leads
    rw [hres] at hres'
    cases hres'
    rcases hcase with ⟨hu, hp⟩ | ⟨M, hM, -⟩
    · left
      rw [hu, hp, low_of_lt hk]
    · refine absurd hM (not_armsTruncated_of_small hw.1 ?_)
      rw [hent, Columns.length_entries, hfull]
      decide

variable (lo keep val) in
theorem insert_empty (hp : path = none) (hk : key < 256 ^ 8) :
    ∃ o, insertInner fl keep (⟨.empty, n, path⟩ : Store V) key val = .ok o ∧
      Inserts fl lo keep ⟨.empty, n, path⟩ key val o := by
  refine ⟨_, rfl, ⟨Columns.packed_single hk val, le_rfl, ?_, hp⟩, by simp [items], ?_, ?_, ?_⟩
  · show 1 ≤ 31
    decide
  · intro x w
    simp [items]
  · intro _
    simp [entryAt]
  · intro w top u t _ htop
    cases htop

variable (keep val) in
theorem insert_rootLeaf (h : LeafInv cols path) (hk : key < 256 ^ 8) (ha : Admits fl lo)
    (hV : fl = .set → ∀ v : V, v = default) :
    ∃ o, insertInner fl keep ⟨.leaf cols, n, path⟩ key val = .ok o ∧
      Inserts fl lo keep ⟨.leaf cols, n, path⟩ key val o := by
  have hpos : leafPos cols.keys cols.size key = locate cols.keys key := by
    rw [show cols.size = cols.keys.length from rfl, leafPos_eq_locate h.packed.sorted h.one_le]
  cases hl : locate cols.keys key with
  | ok pos =>
    obtain ⟨old, hv, hm, hu, hat, hp', hsz⟩ := rebind_spec keep val h.packed (locate_ok hl)
    refine ⟨_, by simp only [insertInner, hpos, hl]; rfl, ?_, ?_, ?_, ?_, ?_⟩
    · exact ⟨hp', by have := h.one_le; unfold rebind at hsz; omega,
        by have := h.le_cap; unfold rebind at hsz; omega, h.cold⟩
    · intro v
      rw [hv, Option.some.injEq]
      constructor
      · rintro rfl
        exact hm
      · exact fun hm' => h.packed.keySorted.value_unique hm hm'
    · rw [hv]
      exact hu
    · intro _
      rw [hv]
      exact hat
    · intro w top u t _ htop
      cases htop
  | error pos =>
    obtain ⟨hn, rfl⟩ := locate_error h.packed.sorted hl
    by_cases hroom : cols.size < ROOT_LEAF_CAP
    · have hsz := Columns.size_insertAt (c := cols) (k := key) val
      refine ⟨_, by simp only [insertInner, hpos, hl, if_pos hroom]; rfl, ?_, ?_, ?_, ?_, ?_⟩
      · exact ⟨h.packed.insertAt hk hn val, by rw [hsz]; omega, by rw [hsz]; omega, h.cold⟩
      · intro v
        exact ⟨(by simp), fun hm => absurd (Columns.mem_keys hm) hn⟩
      · rw [stored_none]
        exact Columns.updated_insertAt hn val
      · intro _
        rw [stored_none]
        exact getElem?_insertAt val cols
      · intro w top u t _ htop
        cases htop
    · exact promoteLeaf_spec h (by have := h.le_cap; omega) hk hn ha hV

/-- The tree an insert acts on, once the path is flushed, lets it pass. -/
def CleanAt (fl : Flavour) (lo : ℕ → ℕ → ℕ) (s : Store V) (key : ℕ) : Prop :=
  ∀ top, s.root = .tree top → Clean fl lo 8 (settled s.path top) key

/-- The tree an insert acts on makes it panic. -/
def PanicsAt (s : Store V) (key : ℕ) : Prop :=
  ∃ top, s.root = .tree top ∧ Panics 8 (settled s.path top) key

def panicsAt (s : Store V) (key : ℕ) : Bool :=
  match s.root with
  | .tree top =>
    match terminal 8 (settled s.path top) key with
    | (M, leaf 1 aux cols) =>
      decide (slice key 1 M = slice aux 1 M ∧ slice key 1 M ≠ 0 ∧ low key 1 ∉ cols.keys ∧
        cols.size = LEAF1_CAP)
    | _ => false
  | _ => false

omit [Inhabited V] in
theorem panicsAt_iff : panicsAt s key = true ↔ PanicsAt s key := by
  obtain ⟨root, n, path⟩ := s
  constructor
  · intro h
    cases root with
    | tree top =>
      simp only [panicsAt] at h
      split at h
      · next M aux cols ht => exact ⟨top, rfl, M, aux, cols, ht, of_decide_eq_true h⟩
      · cases h
    | _ => cases h
  · rintro ⟨top, hroot, M, aux, cols, ht, hc⟩
    cases hroot
    simp only [panicsAt, ht]
    exact decide_eq_true hc

instance (s : Store V) (key : ℕ) : Decidable (PanicsAt s key) := decidable_of_iff _ panicsAt_iff

omit [Inhabited V] in
theorem cleanAt_of_safe (h : ¬ PanicsAt s key) : CleanAt fl (fun _ _ => 0) s key :=
  fun top ht => clean_zero_of_safe fun _ hp => h ⟨top, ht, hp⟩

variable (keep val) in
theorem coldTree_panics (h : TreeInv .map lo top n path)
    (hp : Panics 8 (settled path top) key) :
    coldTree .map keep ⟨.tree top, n, path⟩ key val = .error .indexOutOfBounds := by
  have := insertFlat_panics keep val h.wf.1 hp (show 8 ≤ 31 by decide)
  simp only [coldTree, h.clearPath_eq]
  rw [show FUEL = 31 + 1 from rfl, this]

variable (keep val) in
/-- Every insert that is no stale hit binds exactly its key. -/
theorem insertInner_spec (h : Inv fl lo s) (hk : key < 256 ^ 8) (hst : ¬ Stale s key)
    (hc : CleanAt fl lo s key) (ha : Admits fl lo) (hV : fl = .set → ∀ v : V, v = default) :
    ∃ o, insertInner fl keep s key val = .ok o ∧ Inserts fl lo keep s key val o := by
  obtain ⟨root, n, path⟩ := s
  cases root with
  | empty => exact insert_empty lo keep val h hk
  | leaf cols => exact insert_rootLeaf keep val h hk ha hV
  | tree top =>
    simp only [insertInner]
    cases hw : warmTree fl keep ⟨.tree top, n, path⟩ top key val with
    | some o => exact ⟨o, rfl, warmTree_spec h hst hV hw⟩
    | none => exact coldTree_spec keep val h hk (hc top rfl) ha hV

/-- The insert descends from the root and splits a leaf that is too small for its new slot. -/
def SplitsAt (fl : Flavour) (lo : ℕ → ℕ → ℕ) (keep : Bool) (s : Store V) (key : ℕ) (val : V) : Prop :=
  ∃ top, s.root = .tree top ∧ warmTree fl keep s top key val = none ∧
    SplitsLow lo 8 (settled s.path top) key

def splitsAt (fl : Flavour) (lo : ℕ → ℕ → ℕ) (keep : Bool) (s : Store V) (key : ℕ) (val : V) : Bool :=
  match s.root with
  | .tree top =>
    (warmTree fl keep s top key val).isNone &&
      match terminal 8 (settled s.path top) key with
      | (M, leaf kb aux cols) =>
        decide (slice key kb M ≠ slice aux kb M ∧ cols.size < lo (splitLevel aux key M - 1) kb)
      | _ => false
  | _ => false

omit [Inhabited V] in
theorem splitsAt_iff : splitsAt fl lo keep s key val = true ↔ SplitsAt fl lo keep s key val := by
  obtain ⟨root, n, path⟩ := s
  constructor
  · intro h
    cases root with
    | tree top =>
      simp only [splitsAt, Bool.and_eq_true, Option.isNone_iff_eq_none] at h
      obtain ⟨hw, h⟩ := h
      split at h
      · next M kb aux cols ht => exact ⟨top, rfl, hw, M, kb, aux, cols, ht, of_decide_eq_true h⟩
      · cases h
    | _ => cases h
  · rintro ⟨top, hroot, hw, M, kb, aux, cols, ht, hc⟩
    cases hroot
    simp only [splitsAt, ht, hw, Option.isNone_none, Bool.true_and]
    exact decide_eq_true hc

instance (fl : Flavour) (lo : ℕ → ℕ → ℕ) (keep : Bool) (s : Store V) (key : ℕ) (val : V) :
    Decidable (SplitsAt fl lo keep s key val) := decidable_of_iff _ splitsAt_iff

omit [Inhabited V] in
theorem not_splitsAt_zero : ¬ SplitsAt fl (fun _ _ => 0) keep s key val := by
  rintro ⟨top, -, -, M, kb, aux, cols, -, -, hlt⟩
  exact absurd hlt (Nat.not_lt_zero _)

/-- What a returned insert has done, when it splits no leaf that is too small: it has bound a key,
and unless the hit is stale its own. -/
theorem insertInner_of_ok {o : Outcome V} (h : Inv fl lo s) (hk : key < 256 ^ 8)
    (hfit : ¬ SplitsAt fl lo keep s key val) (ha : Admits fl lo)
    (hV : fl = .set → ∀ v : V, v = default) (ho : insertInner fl keep s key val = .ok o) :
    ∃ k, Inserts fl lo keep s k val o ∧ (¬ Stale s key → k = key) := by
  obtain ⟨root, n, path⟩ := s
  cases root with
  | empty =>
    obtain ⟨o', ho', hi⟩ := insert_empty lo keep val h hk
    rw [ho] at ho'
    cases ho'
    exact ⟨key, hi, fun _ => rfl⟩
  | leaf cols =>
    obtain ⟨o', ho', hi⟩ := insert_rootLeaf keep val h hk ha hV
    rw [ho] at ho'
    cases ho'
    exact ⟨key, hi, fun _ => rfl⟩
  | tree top =>
    simp only [insertInner] at ho
    cases hw : warmTree fl keep ⟨.tree top, n, path⟩ top key val with
    | some o' =>
      simp only [hw, Except.ok.injEq] at ho
      subst ho
      obtain ⟨w, u, t, hp, hpre, hr, hi⟩ := warmTree_binds h hV hw
      refine ⟨_, hi, fun hst => ?_⟩
      have hu : u = key / 256 := by
        by_contra hne
        exact hst ⟨top, w, u, t, rfl, hp, hpre, hr, hne⟩
      rw [hu, key_split]
    | none =>
      simp only [hw] at ho
      -- only a map's panic is left, and a panic does not return
      have hc : Clean fl lo 8 (settled path top) key := by
        refine ⟨fun hlow => hfit ⟨top, rfl, hw, hlow⟩, fun hm hp => ?_⟩
        subst hm
        rw [coldTree_panics _ _ h hp] at ho
        cases ho
      obtain ⟨o', ho', hi⟩ := coldTree_spec keep val h hk hc ha hV
      rw [ho] at ho'
      cases ho'
      exact ⟨key, hi, fun _ => rfl⟩

end Store

end Expanse
