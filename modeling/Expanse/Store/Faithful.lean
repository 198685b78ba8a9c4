import Expanse.Store.StoreSpec

/-!
# Faithful paths

A path is faithful when it stores the key bits above the leaf it leads to. Then a
hit on the path is a hit on the key's own leaf, and the shortcut changes nothing
that can be observed. Only one step unmakes a faithful path: a leaf overflow that
re-inserts keys cut to the level of the leaf's slot, and caches the path for them.
-/

namespace Expanse

open Radix SortedAssoc Edge

namespace Edge

variable {V : Type}

/-- The branches that a route passes, each with the level of its slot. -/
def ancestors : ℕ → Edge V → List ℕ → List (ℕ × Edge V)
  | L, branch aux node, d :: ds =>
    (L, branch aux node) :: ancestors (node.level L - 1) (node.child d) ds
  | _, _, _ => []

variable [Inhabited V] {fl : Flavour} {lo : ℕ → ℕ → ℕ} {L : ℕ} {e : Edge V} {route : List ℕ}

theorem exact_of_mem_ancestors (h : WF fl lo L e) {a : ℕ × Edge V} (ha : a ∈ ancestors L e route) :
    Exact a.1 a.2 := by
  induction route generalizing L e with
  | nil => cases e <;> simp [ancestors] at ha
  | cons d ds ih =>
    cases e with
    | branch aux node =>
      rw [ancestors, List.mem_cons] at ha
      rcases ha with rfl | ha
      · exact h.2
      · exact ih ((shape_branch.mp h.1).child d) ha
    | _ => simp [ancestors] at ha

/-- The population of a cached leaf counts its keys. -/
theorem warmPop_eq {t : Edge V} {kind : WarmLeaf} {pop : ℕ} (h : WF fl lo 1 t)
    (hp : warmPop kind t = some pop) : pop = (entries 1 t).length ∧ 1 ≤ pop := by
  cases t with
  | leafB1 aux node =>
    cases kind with
    | leaf1 => cases hp
    | bitmap =>
      cases hp
      exact ⟨pop0_add_one h rfl (show 1 ≤ 7 by decide), Nat.le_add_left 1 _⟩
  | leaf kb aux cols =>
    cases kind with
    | bitmap => cases hp
    | leaf1 =>
      by_cases hk : kb = 1
      · subst hk
        cases hp
        exact ⟨pop0_add_one h rfl (show 1 ≤ 7 by decide), Nat.le_add_left 1 _⟩
      · simp [warmPop, hk] at hp
  | _ => cases kind <;> cases hp

end Edge

namespace Store

variable {V : Type}

/-- The path stores the key bits above the leaf it leads to. -/
def Faithful (s : Store V) : Prop :=
  ∀ w top u t, s.path = some w → s.root = .tree top → resolve 8 top w.route = some (u, t) →
    u = w.keyPrefix

variable {s s' : Store V} {key : ℕ}

theorem faithful_of_cold (h : s.path = none) : Faithful s := by
  intro w _ _ _ hw
  rw [h] at hw
  cases hw

theorem Faithful.not_stale (h : Faithful s) : ¬ Stale s key := by
  rintro ⟨top, w, u, t, hroot, hpath, hpre, hr, hne⟩
  exact hne ((h w top u t hpath hroot hr).trans hpre)

variable [Inhabited V] {fl : Flavour} {lo : ℕ → ℕ → ℕ} {keep : Bool} {val : V} {o o' : Outcome V}

def cachedKeys (s : Store V) : List ℕ :=
  match s.root, s.path with
  | .tree top, some w =>
    match resolve 8 top w.route with
    | some (u, t) => (entries 1 t).map fun e => u * 256 + e.1
    | none => []
  | _, _ => []

theorem mem_items_of_cachedKeys (h : Inv fl lo s) {k : ℕ} (hk : k ∈ cachedKeys s) :
    ∃ v, (k, v) ∈ s.items := by
  obtain ⟨root, n, path⟩ := s
  cases root with
  | empty => cases hk
  | leaf cols => cases hk
  | tree top =>
    cases path with
    | none => cases hk
    | some w =>
      obtain ⟨u, t, hr, hpop⟩ := TreeInv.leads h w rfl
      have ht := ne_null_of_warmPop hpop
      have hwt : WF fl lo 1 t := resolve_wf h.wf (resolve_flushRoute h.readable hr ht)
      simp only [cachedKeys, hr, List.mem_map] at hk
      obtain ⟨⟨d, v⟩, hd, rfl⟩ := hk
      exact ⟨v, (mem_entries_resolve h.readable hr ht (by simpa using hwt.1.bound hd)).mpr hd⟩

/-- A faithful path stores the upper bits of every key in the cached leaf. -/
theorem Faithful.cachedKeys_div (h : Inv fl lo s) (hf : Faithful s) {w : InsertPath}
    (hw : s.path = some w) {k : ℕ} (hk : k ∈ cachedKeys s) : k / 256 = w.keyPrefix := by
  obtain ⟨root, n, path⟩ := s
  subst hw
  cases root with
  | empty => cases hk
  | leaf cols => cases hk
  | tree top =>
    obtain ⟨u, t, hr, hpop⟩ := TreeInv.leads h w rfl
    have ht := ne_null_of_warmPop hpop
    have hwt : WF fl lo 1 t := resolve_wf h.wf (resolve_flushRoute h.readable hr ht)
    simp only [cachedKeys, hr, List.mem_map] at hk
    obtain ⟨⟨d, v⟩, hd, rfl⟩ := hk
    have hd' : d < 256 := by simpa using hwt.1.bound hd
    rw [← hf w top u t rfl rfl hr]
    dsimp only
    omega

theorem cachedKeys_ne_nil (h : Inv fl lo s) {w : InsertPath} (hw : s.path = some w) :
    cachedKeys s ≠ [] := by
  obtain ⟨root, n, path⟩ := s
  subst hw
  cases root with
  | empty => cases h
  | leaf cols => cases h.cold
  | tree top =>
    obtain ⟨u, t, hr, hpop⟩ := TreeInv.leads h w rfl
    have ht := ne_null_of_warmPop hpop
    have hwt : WF fl lo 1 t := resolve_wf h.wf (resolve_flushRoute h.readable hr ht)
    obtain ⟨hlen, hone⟩ := warmPop_eq hwt hpop
    simp only [cachedKeys, hr]
    refine List.ne_nil_of_length_pos ?_
    rw [List.length_map]
    omega

/-- After a flush every branch on the cached route has an exact population. -/
theorem exact_flushPath (h : Inv fl lo s) {w : InsertPath} {top : Edge V} (hw : s.path = some w)
    (ht : s.flushPath.root = .tree top) {a : ℕ × Edge V} (ha : a ∈ ancestors 8 top w.route) :
    Exact a.1 a.2 := by
  obtain ⟨root, n, path⟩ := s
  subst hw
  cases root with
  | empty => cases ht
  | leaf cols => cases ht
  | tree top₀ =>
    rw [TreeInv.flushPath_eq h] at ht
    cases ht
    exact exact_of_mem_ancestors h.wf ha

/-- The insert splits a full leaf, caches the path for keys cut to the level of the leaf's slot, and
the cut loses bits of the key. -/
def Truncates (fl : Flavour) (s : Store V) (key : ℕ) (val : V) : Prop :=
  ∃ top M, s.root = .tree top ∧ ArmsTruncated fl 8 (settled s.path top) key val M ∧
    slice key M 8 ≠ 0

def truncates (fl : Flavour) (s : Store V) (key : ℕ) (val : V) : Bool :=
  match s.root with
  | .tree top =>
    match terminal 8 (settled s.path top) key with
    | (M, leaf kb aux cols) =>
      let all := overflowEntries kb aux M key val cols
      decide (2 ≤ kb ∧ slice key kb M = slice aux kb M ∧ cols.size = LEAF_CAP ∧
        low key kb ∉ cols.keys ∧ divergenceLevel (firstKey all) (lastKey all) M = 2 ∧
        fl.immedMax 1 + 2 ≤ lastGroup all ∧ (fl = .map → lastGroup all ≠ LEAF1_CAP + 1) ∧
        slice key M 8 ≠ 0)
    | _ => false
  | _ => false

omit [Inhabited V] in
theorem truncates_iff : truncates fl s key val = true ↔ Truncates fl s key val := by
  obtain ⟨root, n, path⟩ := s
  constructor
  · intro h
    cases root with
    | tree top =>
      simp only [truncates] at h
      split at h
      · next M kb aux cols ht =>
        obtain ⟨h2, hs, hsz, hn, hd, hg, hm, hz⟩ := of_decide_eq_true h
        exact ⟨top, M, rfl, ⟨kb, aux, cols, ht, h2, hs, hsz, hn, hd, hg, hm⟩, hz⟩
      · cases h
    | _ => cases h
  · rintro ⟨top, M, hroot, ⟨kb, aux, cols, ht, h2, hs, hsz, hn, hd, hg, hm⟩, hz⟩
    cases hroot
    simp only [truncates, ht]
    exact decide_eq_true ⟨h2, hs, hsz, hn, hd, hg, hm, hz⟩

instance (fl : Flavour) (s : Store V) (key : ℕ) (val : V) : Decidable (Truncates fl s key val) :=
  decidable_of_iff _ truncates_iff

theorem Inserts.faithful (h : Inserts fl lo keep s key val o) (hf : Faithful s)
    (ht : ¬ Truncates fl s key val) : Faithful o.store := by
  intro w top u t hw hroot hr
  rcases h.traced w top u t hw hroot hr with hu | ⟨w₀, top₀, t₀, hw₀, hroot₀, hr₀, hk⟩ |
    ⟨top₀, M, hroot₀, hM, hu⟩
  · exact hu
  · rw [← hk]
    exact hf w₀ top₀ u t₀ hw₀ hroot₀ hr₀
  · have hz : slice key M 8 = 0 := by
      by_contra hne
      exact ht ⟨top₀, M, hroot₀, hM, hne⟩
    rw [hu, hz, Nat.zero_mul, Nat.zero_add]

theorem Faithful.flushPath (h : Inv fl lo s) (hf : Faithful s) : Faithful s.flushPath := by
  obtain ⟨root, n, path⟩ := s
  cases root with
  | empty => exact hf
  | leaf cols => exact hf
  | tree top =>
    cases path with
    | none => exact hf
    | some w =>
      rw [TreeInv.flushPath_eq h]
      intro w' top' u t hw' htop hr
      cases hw'
      cases htop
      obtain ⟨u₀, t₀, hr₀, hpop⟩ := TreeInv.leads h w rfl
      have hr' : resolve 8 (settled (some w) top) w.route = some (u₀, t₀) :=
        resolve_flushRoute h.readable hr₀ (ne_null_of_warmPop hpop)
      rw [show resolve 8 (settled (some w) top) w.route = some (u, t) from hr] at hr'
      cases hr'
      exact hf w top u t rfl rfl hr₀

/-- Two inserts of one key into states with the same items answer alike and leave the same items. -/
theorem Inserts.unique (h : Inserts fl lo keep s key val o) (h' : Inserts fl lo keep s' key val o')
    (hi : s.items = s'.items) : o.old = o'.old ∧ o.store.items = o'.store.items ∧
      (fl = .map → o.store.entryAt o.addr = o'.store.entryAt o'.addr) := by
  have hold : o.old = o'.old := by
    ext v
    rw [h.old v, h'.old v, hi]
  refine ⟨hold, h.inv.sorted.ext h'.inv.sorted ?_, ?_⟩
  · intro k v
    rw [h.content k v, h'.content k v, hold, hi]
  · intro hm
    rw [h.addr hm, h'.addr hm, hold]

theorem Faithful.insert_eq (h : Inv fl lo s) (hf : Faithful s) (hk : key < 256 ^ 8)
    (hc : CleanAt fl lo s key) (ha : Admits fl lo) (hV : fl = .set → ∀ v : V, v = default)
    (keep : Bool) (val : V) :
    ∃ o o', insertInner fl keep s key val = .ok o ∧
      insertInner fl keep s.clearPath key val = .ok o' ∧ o.old = o'.old ∧
      o.store.items = o'.store.items ∧
      (fl = .map → o.store.entryAt o.addr = o'.store.entryAt o'.addr) := by
  obtain ⟨hinv, hitems⟩ := inv_clearPath h
  have hcold : s.clearPath.path = none := rfl
  have hc' : CleanAt fl lo s.clearPath key := by
    obtain ⟨root, n, path⟩ := s
    cases root with
    | empty =>
      intro _ ht
      cases ht
    | leaf cols =>
      intro _ ht
      cases ht
    | tree top =>
      rw [TreeInv.clearPath_eq h]
      rintro _ ⟨⟩
      exact hc top rfl
  obtain ⟨o, ho, hsp⟩ := insertInner_spec keep val h hk hf.not_stale hc ha hV
  obtain ⟨o', ho', hsp'⟩ := insertInner_spec keep val hinv hk
    (faithful_of_cold hcold).not_stale hc' ha hV
  exact ⟨o, o', ho, ho', hsp.unique hsp' hitems.symm⟩

end Store

end Expanse
