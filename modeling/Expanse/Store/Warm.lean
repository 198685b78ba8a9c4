import Expanse.Store.Inv

/-!
# The warm insert

At the cached leaf the shortcut does what the insert descent would do there, so
its effect on the whole tree is the store of a level-1 insert at the end of the
cached route: it updates the key with the leaf's own upper bits.
-/

namespace Expanse.Store

open Radix SortedAssoc Edge

variable {V : Type} [Inhabited V] {fl : Flavour} {lo : ℕ → ℕ → ℕ} {keep : Bool} {key pop : ℕ}
  {kind : WarmLeaf} {t t' : Edge V} {old : Option V} {pos : SlotPos} {val : V}

theorem warmInsert_eq (hpop : warmPop kind t = some pop)
    (h : warmInsert fl keep kind pop t (digit key 1) val = some (t', old, pos)) :
    ∃ path, insertFlat fl keep 1 t key val 1 = .ok ⟨t', old, ⟨[], pos⟩, path⟩ := by
  cases t with
  | leafB1 aux node =>
    cases kind with
    | leaf1 => cases hpop
    | bitmap =>
      cases hpop
      simp only [warmInsert] at h
      simp only [insertFlat, lt_irrefl, decide_false, Bool.false_and, Bool.false_eq_true, if_false]
      cases hg : node.get (digit key 1) with
      | some w =>
        simp only [hg] at h
        cases h
        exact ⟨_, rfl⟩
      | none =>
        simp only [hg] at h
        by_cases hf : fl = .set ∧ Aux.pop0 aux 1 + 1 + 1 = 256
        · rw [if_pos hf] at h
          cases h
          simp only
          rw [if_pos ⟨hf.1, hf.2, trivial⟩]
          exact ⟨_, rfl⟩
        · rw [if_neg hf] at h
          cases h
          simp only
          rw [if_neg fun hc => hf ⟨hc.1, hc.2.1⟩]
          exact ⟨_, rfl⟩
  | leaf kb aux cols =>
    cases kind with
    | bitmap => cases hpop
    | leaf1 =>
      by_cases hk : kb = 1
      · subst hk
        cases hpop
        simp only [warmInsert, Nat.add_sub_cancel] at h
        simp only [insertFlat, lt_irrefl, decide_false, Bool.false_and, Bool.false_eq_true,
          if_false, leafPos, Nat.add_sub_cancel]
        cases hl : cols.keys[Aux.pop0 aux 1]? with
        | none => simp [hl] at h
        | some last =>
          simp only [hl, low_one] at h ⊢
          by_cases hlt : last < digit key 1
          · simp only [if_pos hlt] at h ⊢
            split_ifs at h with hc
            cases h
            exact ⟨_, by rw [if_pos (show Aux.pop0 aux 1 + 1 < leafCap 1 from hc.1)]⟩
          · simp only [if_neg hlt] at h ⊢
            by_cases he : digit key 1 = last
            · rw [if_pos he] at h
              cases h
              exact ⟨none, by simp only [if_pos he]⟩
            · rw [if_neg he] at h
              cases h
      · simp [warmPop, hk] at hpop
  | _ => cases kind <;> cases hpop

/-- The population of the cached leaf after the shortcut. -/
theorem warmPop_warmInsert (hwf : WF fl lo 1 t) (hpop : warmPop kind t = some pop)
    (h : warmInsert fl keep kind pop t (digit key 1) val = some (t', old, pos)) :
    old.isSome ∧ warmPop kind t' = some pop ∨
      old = none ∧ (fl = .set ∧ pop + 1 = 256 ∨ warmPop kind t' = some (pop + 1)) := by
  cases t with
  | leafB1 aux node =>
    cases kind with
    | leaf1 => cases hpop
    | bitmap =>
      cases hpop
      have hs := hwf.1
      rw [Shape] at hs
      obtain ⟨-, -, hok, -, hcount⟩ := hs
      simp only [warmInsert] at h
      cases hg : node.get (digit key 1) with
      | some w =>
        simp only [hg] at h
        cases h
        refine .inl ⟨rfl, ?_⟩
        split_ifs <;> rfl
      | none =>
        have hb : node.bits.testBit (digit key 1) = false := by
          rw [← Bool.not_eq_true, ← Ranked.get_isSome hok, hg]
          simp
        have hle := Bitmap.count_le (Bitmap.set node.bits (digit key 1))
        rw [Bitmap.count_set hb (digit_lt _ _)] at hle
        simp only [hg] at h
        by_cases hf : fl = .set ∧ Aux.pop0 aux 1 + 1 + 1 = 256
        · rw [if_pos hf] at h
          cases h
          exact .inr ⟨rfl, .inl hf⟩
        · rw [if_neg hf] at h
          cases h
          refine .inr ⟨rfl, .inr ?_⟩
          rw [warmPop, Aux.pop0_setPop0 (by simp only [pow_one]; omega)]
  | leaf kb aux cols =>
    cases kind with
    | bitmap => cases hpop
    | leaf1 =>
      by_cases hk : kb = 1
      · subst hk
        cases hpop
        have hs := hwf.1
        rw [Shape] at hs
        simp only [warmInsert, Nat.add_sub_cancel] at h
        cases hl : cols.keys[Aux.pop0 aux 1]? with
        | none => simp [hl] at h
        | some last =>
          simp only [hl] at h
          split_ifs at h with hlt hc he hkeep
          · cases h
            refine .inr ⟨rfl, .inr ?_⟩
            have := hc.1
            simp only [LEAF1_CAP] at this
            rw [warmPop, Aux.pop0_setPop0 (by simp only [pow_one]; omega)]
          all_goals
            obtain ⟨v, hv, -⟩ := Columns.exists_val hl
            cases h
            refine .inl ⟨by rw [hv]; rfl, rfl⟩
      · simp [warmPop, hk] at hpop
  | _ => cases kind <;> cases hpop

theorem warmInsert_spec (hwf : WF fl lo 1 t) (hpop : warmPop kind t = some pop)
    (hV : fl = .set → ∀ v : V, v = default)
    (h : warmInsert fl keep kind pop t (digit key 1) val = some (t', old, pos)) :
    ∃ path, InsertSpec fl lo keep 1 t key val ⟨t', old, ⟨[], pos⟩, path⟩ := by
  obtain ⟨path, hins⟩ := warmInsert_eq hpop h
  cases t with
  | leafB1 aux node =>
    obtain ⟨r, hr, hsp⟩ := insert_leafB1 0 keep val hwf.1
      (show slice key 1 1 = slice aux 1 1 by rw [slice_self, slice_self]) hV
    rw [hins] at hr
    cases hr
    exact ⟨path, hsp⟩
  | leaf kb aux cols =>
    cases kind with
    | bitmap => cases hpop
    | leaf1 =>
      by_cases hk : kb = 1
      · subst hk
        have hs := hwf.1
        rw [Shape] at hs
        obtain ⟨-, -, -, hp, -, -, hpop0, -⟩ := hs
        have hroom : low key 1 ∈ cols.keys ∨ cols.size < leafCap 1 := by
          cases hpop
          simp only [warmInsert, Nat.add_sub_cancel] at h
          cases hl : cols.keys[Aux.pop0 aux 1]? with
          | none => simp [hl] at h
          | some last =>
            simp only [hl] at h
            split_ifs at h with hlt hc he hkeep
            · right
              simp only [leafCap, if_true]
              omega
            all_goals
              left
              rw [low_one, he]
              exact List.mem_of_getElem? hl
        obtain ⟨r, hr, hsp⟩ := insert_leaf 0 keep val hwf.1
          (show slice key 1 1 = slice aux 1 1 by rw [slice_self, slice_self]) hroom
        rw [hins] at hr
        cases hr
        exact ⟨path, hsp⟩
      · simp [warmPop, hk] at hpop
  | _ => cases kind <;> cases hpop

/-- The cached bits are the key's, but the cached leaf lies under other bits. -/
def Stale (s : Store V) (key : ℕ) : Prop :=
  ∃ top w u t, s.root = .tree top ∧ s.path = some w ∧ w.keyPrefix = key / 256 ∧
    resolve 8 top w.route = some (u, t) ∧ u ≠ key / 256

def isStale (s : Store V) (key : ℕ) : Bool :=
  match s.root, s.path with
  | .tree top, some w =>
    w.keyPrefix = key / 256 && (resolve 8 top w.route).any fun r => r.1 ≠ key / 256
  | _, _ => false

omit [Inhabited V] in
theorem isStale_iff {s : Store V} {key : ℕ} : isStale s key = true ↔ Stale s key := by
  obtain ⟨root, n, path⟩ := s
  constructor
  · intro h
    cases root <;> cases path <;> simp only [isStale, Bool.false_eq_true] at h
    rename_i top w
    cases hr : resolve 8 top w.route with
    | none => simp [hr] at h
    | some r =>
      simp only [hr, Option.any_some, Bool.and_eq_true, decide_eq_true_eq] at h
      exact ⟨top, w, r.1, r.2, rfl, rfl, h.1, hr, h.2⟩
  · rintro ⟨top, w, u, t, hroot, hpath, hpre, hr, hne⟩
    cases hroot
    cases hpath
    simp [isStale, hpre, hr, hne]

instance (s : Store V) (key : ℕ) : Decidable (Stale s key) := decidable_of_iff _ isStale_iff

omit [Inhabited V] in
theorem not_stale_of_root {s : Store V} (h : ∀ top, s.root ≠ .tree top) : ¬ Stale s key := by
  rintro ⟨top, _, _, _, hroot, -⟩
  exact h top hroot

/-- Where the bits above a cached leaf come from: the path stores them; or the path was cached
before, for a leaf under the same bits; or the insert cached it for a key truncated to `M` bytes. -/
def Traced (fl : Flavour) (s : Store V) (key : ℕ) (val : V) (w : InsertPath) (u : ℕ) : Prop :=
  u = w.keyPrefix ∨
  (∃ w₀ top t, s.path = some w₀ ∧ s.root = .tree top ∧ resolve 8 top w₀.route = some (u, t) ∧
    w₀.keyPrefix = w.keyPrefix) ∨
  ∃ top M, s.root = .tree top ∧ ArmsTruncated fl 8 (settled s.path top) key val M ∧
    u = slice key M 8 * 256 ^ (M - 1) + w.keyPrefix

/-- The contract of an insert. -/
structure Inserts (fl : Flavour) (lo : ℕ → ℕ → ℕ) (keep : Bool) (s : Store V) (key : ℕ) (val : V)
    (o : Outcome V) : Prop where
  inv : Inv fl lo o.store
  old : ∀ v, o.old = some v ↔ (key, v) ∈ s.items
  content : Updated key (stored keep o.old val) s.items o.store.items
  addr : fl = .map → o.store.entryAt o.addr = some (key, stored keep o.old val)
  traced : ∀ w top u t, o.store.path = some w → o.store.root = .tree top →
    resolve 8 top w.route = some (u, t) → Traced fl s key val w u

variable {s : Store V} {top : Edge V} {n : ℕ} {path : Option InsertPath} {o : Outcome V}

theorem key_split (key : ℕ) : key / 256 * 256 + digit key 1 = key := by
  simp only [digit, Nat.sub_self, pow_zero, Nat.div_one]
  omega

theorem afterWarm_spec {w : InsertPath} {u : ℕ} (h : TreeInv fl lo top n (some w))
    (hr : resolve 8 top w.route = some (u, t)) (hpop : warmPop w.leaf t = some w.terminalPop)
    (hV : fl = .set → ∀ v : V, v = default)
    (hi : warmInsert fl keep w.leaf w.terminalPop t (digit key 1) val = some (t', old, pos)) :
    ∃ top' path', afterWarm fl ⟨.tree top, n, some w⟩ top w t' old =
        ⟨.tree top', if old.isNone then n + 1 else n, path'⟩ ∧
      TreeInv fl lo top' (if old.isNone then n + 1 else n) path' ∧
      entries 8 top' = entries 8 (storeAt t' top w.route) ∧
      (fl = .map → top' = storeAt t' top w.route) ∧
      (∀ v, old = some v ↔ (u * 256 + digit key 1, v) ∈ entries 8 top) ∧
      Updated (u * 256 + digit key 1) (stored keep old val) (entries 8 top) (entries 8 top') ∧
      ∀ w', path' = some w' → w'.keyPrefix = w.keyPrefix ∧ w'.route = w.route ∧
        resolve 8 top' w.route = some (u, t') := by
  have ht := ne_null_of_warmPop hpop
  have hwt : WF fl lo 1 t :=
    resolve_wf h.wf (resolve_flushRoute h.readable hr ht)
  obtain ⟨_, hsp⟩ := warmInsert_spec hwt hpop hV hi
  have hold : ∀ v, old = some v ↔ (u * 256 + digit key 1, v) ∈ entries 8 top := by
    intro v
    rw [mem_entries_resolve h.readable hr ht (digit_lt _ _), ← low_one]
    exact hsp.old v
  have hin : digit key 1 ∈ (entries 1 t).map Prod.fst ↔ old.isSome := by
    simp only [List.mem_map, Prod.exists, Option.isSome_iff_exists]
    rw [← low_one]
    constructor
    · rintro ⟨_, v, hm, rfl⟩
      exact ⟨v, (hsp.old v).mpr hm⟩
    · rintro ⟨v, hv⟩
      exact ⟨_, v, (hsp.old v).mp hv, rfl⟩
  have hu := hsp.content
  rw [low_one] at hu
  obtain ⟨hread, hwf, hup⟩ := storeAt_spec (b := if old.isNone then 1 else 0) h.readable h.wf hr ht
    hsp.nonnull ⟨hsp.shape, hsp.exact hwt.2⟩ (digit_lt key 1) hu (by
      cases old <;> simp_all)
  have hr' : resolve 8 (storeAt t' top w.route) w.route = some (u, t') :=
    resolve_storeAt h.readable hr ht
  have hlen : (entries 8 (storeAt t' top w.route)).length =
      if old.isNone then n + 1 else n := by
    rw [hup.length h.readable.sorted hread.sorted, ← h.pop]
    have hin' : u * 256 + digit key 1 ∈ (entries 8 top).map Prod.fst ↔ old.isSome := by
      simp only [List.mem_map, Prod.exists, exists_and_right, exists_eq_right,
        Option.isSome_iff_exists, hold]
    cases old <;> simp_all
  have hlarge : ROOT_LEAF_CAP ≤ (entries 8 (storeAt t' top w.route)).length := by
    have := h.large
    have hp := h.pop
    rw [hlen]
    split_ifs <;> omega
  rcases warmPop_warmInsert hwt hpop hi with ⟨hs, hp'⟩ | ⟨rfl, hnew⟩
  -- a present key
  · have hnone : old.isNone = false := by
      cases old
      · cases hs
      · rfl
    simp only [hnone] at hwf hlen ⊢
    refine ⟨storeAt t' top w.route, some w, ?_, ⟨hread, hwf, hlen.symm, hlarge, ?_⟩, rfl,
      fun _ => rfl, hold, hup, ?_⟩
    · simp [afterWarm, hs]
    · rintro _ ⟨⟩
      exact ⟨u, t', hr', hp'⟩
    · rintro _ ⟨⟩
      exact ⟨rfl, rfl, hr'⟩
  · by_cases hfull : fl = .set ∧ w.terminalPop + 1 = 256
    -- the last absent digit of a set's leaf: the path is cleared
    · have hfe := flushRoute_entries (n := w.pendingPop + 1) hread hr' hsp.nonnull
      refine ⟨flushRoute (w.pendingPop + 1) 8 (storeAt t' top w.route) w.route, none, ?_,
        .of_wf hwf ?_ ?_ (by simp) (by simp), hfe.2, ?_, hold, ?_, by simp⟩
      · simp [afterWarm, hfull, clearPath, flushPath]
      · rw [hfe.2, hlen]
      · rw [hfe.2]
        exact hlarge
      · rintro rfl
        exact absurd hfull.1 (by decide)
      · rw [hfe.2]
        exact hup
    · refine ⟨storeAt t' top w.route,
        some { w with terminalPop := w.terminalPop + 1, pendingPop := w.pendingPop + 1 }, ?_,
        ⟨hread, hwf, hlen.symm, hlarge, ?_⟩, rfl, fun _ => rfl, hold, hup, ?_⟩
      · simp only [afterWarm, Option.isSome_none, Bool.false_eq_true, if_false, if_neg hfull]
        rfl
      · rintro _ ⟨⟩
        exact ⟨u, t', hr', hnew.resolve_left hfull⟩
      · rintro _ ⟨⟩
        exact ⟨rfl, rfl, hr'⟩

/-- A warm insert binds the key that the digit makes with the bits above the cached leaf. -/
theorem warmTree_binds (h : TreeInv fl lo top n path) (hV : fl = .set → ∀ v : V, v = default)
    (ho : warmTree fl keep ⟨.tree top, n, path⟩ top key val = some o) :
    ∃ w u t, path = some w ∧ w.keyPrefix = key / 256 ∧ resolve 8 top w.route = some (u, t) ∧
      Inserts fl lo keep ⟨.tree top, n, path⟩ (u * 256 + digit key 1) val o := by
  cases path with
  | none => cases ho
  | some w =>
    simp only [warmTree] at ho
    split_ifs at ho with hpre
    obtain ⟨u, t, hr, hpop⟩ := h.leads w rfl
    simp only [hr] at ho
    refine ⟨w, u, t, rfl, hpre, hr, ?_⟩
    cases hi : warmInsert fl keep w.leaf w.terminalPop t (digit key 1) val with
    | none => simp [hi] at ho
    | some p =>
      obtain ⟨t', old, pos⟩ := p
      simp only [hi, Option.some.injEq] at ho
      subst ho
      obtain ⟨top', path', he, hinv, hent, hmap, hold, hup, htr⟩ := afterWarm_spec h hr hpop hV hi
      rw [he]
      refine ⟨hinv, hold, hup, ?_, ?_⟩
      · intro hfl
        have ht := ne_null_of_warmPop hpop
        have hwt : WF fl lo 1 t := resolve_wf h.wf (resolve_flushRoute h.readable hr ht)
        obtain ⟨_, hsp⟩ := warmInsert_spec hwt hpop hV hi
        have hslot := hsp.slot hfl
        simp only [low_one] at hslot
        simp only [entryAt, hmap hfl]
        rw [slotEntry_resolve (hmap hfl ▸ hinv.readable) (resolve_storeAt h.readable hr ht)
          hsp.nonnull, hslot, Option.map_some]
      · intro w' top₁ u' t₁ hw' htop hr₁
        cases htop
        obtain ⟨hk, hroute, hres⟩ := htr w' hw'
        rw [hroute, hres] at hr₁
        cases hr₁
        exact .inr (.inl ⟨w, top, t, rfl, rfl, hr, hk.symm⟩)

theorem warmTree_spec (h : TreeInv fl lo top n path) (hst : ¬ Stale ⟨.tree top, n, path⟩ key)
    (hV : fl = .set → ∀ v : V, v = default)
    (ho : warmTree fl keep ⟨.tree top, n, path⟩ top key val = some o) :
    Inserts fl lo keep ⟨.tree top, n, path⟩ key val o := by
  obtain ⟨w, u, t, hw, hpre, hr, hi⟩ := warmTree_binds h hV ho
  have hu : u = key / 256 := by
    by_contra hne
    exact hst ⟨top, w, u, t, rfl, hw, hpre, hr, hne⟩
  rwa [hu, key_split] at hi

end Expanse.Store
