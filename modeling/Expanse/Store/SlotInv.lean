import Expanse.Store.Faithful

/-!
# Value slots of a map

An address is determined by the key it addresses, so a slot handed out by the
cached path is the one the descent from the root finds. A store through a slot
keeps the invariant and rebinds exactly that key.
-/

namespace Expanse

open Radix SortedAssoc Edge

namespace Edge

variable {V : Type} [Inhabited V] {fl : Flavour} {P : Branch (Edge V) → Prop} {L k : ℕ} {e : Edge V}
  {v v' : V} {r r' : List ℕ} {p p' : SlotPos}

theorem slotEntry_inj (h : Readable fl P L e) (hs : slotEntry L e r p = some (k, v))
    (hs' : slotEntry L e r' p' = some (k, v')) : r = r' ∧ p = p' := by
  induction r generalizing L e k r' with
  | nil =>
    cases e with
    | immed kb cols =>
      cases p <;> cases p' <;> cases r' <;> simp only [slotEntry, reduceCtorEq] at hs hs'
      rw [Readable] at h
      have hn : cols.keys.Nodup := h.2.2.1.sorted.imp Nat.ne_of_lt
      have h1 := Columns.getElem?_keys hs
      have h2 := Columns.getElem?_keys hs'
      refine ⟨rfl, ?_⟩
      rw [(List.getElem?_inj (List.getElem?_eq_some_iff.mp h1).1 hn).mp (h1.trans h2.symm)]
    | leaf kb aux cols =>
      cases p <;> cases p' <;> cases r' <;>
        simp only [slotEntry, reduceCtorEq, Option.map_eq_some_iff] at hs hs'
      rw [Readable] at h
      have hn : cols.keys.Nodup := h.2.2.1.sorted.imp Nat.ne_of_lt
      obtain ⟨⟨x, w⟩, hx, he⟩ := hs
      obtain ⟨⟨x', w'⟩, hx', he'⟩ := hs'
      cases he
      simp only [Prod.mk.injEq, Nat.add_left_cancel_iff] at he'
      have h1 := Columns.getElem?_keys hx
      have h2 := Columns.getElem?_keys hx'
      rw [he'.1] at h2
      refine ⟨rfl, ?_⟩
      rw [(List.getElem?_inj (List.getElem?_eq_some_iff.mp h1).1 hn).mp (h1.trans h2.symm)]
    | leafB1 aux nd =>
      cases p <;> cases p' <;> cases r' <;>
        simp only [slotEntry, reduceCtorEq, Option.map_eq_some_iff] at hs hs'
      obtain ⟨⟨x, w⟩, hx, he⟩ := hs
      obtain ⟨⟨x', w'⟩, hx', he'⟩ := hs'
      cases he
      simp only [Prod.mk.injEq, Nat.add_left_cancel_iff] at he'
      obtain ⟨h1, -, h2⟩ := Ranked.rank_of_row hx
      obtain ⟨h3, -, h4⟩ := Ranked.rank_of_row hx'
      rw [he'.1] at h3 h4
      refine ⟨rfl, ?_⟩
      rw [← h1, ← h2, ← h3, ← h4]
    | _ => cases p <;> simp [slotEntry] at hs
  | cons d ds ih =>
    obtain ⟨aux, node, rfl⟩ := slotEntry_branch hs
    cases r' with
    | nil => simp [slotEntry] at hs'
    | cons d' ds' =>
      have hb := readable_branch.mp h
      have h2 := hb.two_le
      have hk := h.bound (mem_of_slotEntry h hs)
      obtain ⟨hd, hn, x, hx, hkx⟩ := slotEntry_cons hs
      obtain ⟨hd', hn', x', hx', hkx'⟩ := slotEntry_cons hs'
      obtain ⟨c, hc⟩ := Option.isSome_iff_exists.mp hd
      obtain ⟨c', hc'⟩ := Option.isSome_iff_exists.mp hd'
      -- the key determines the digit and the rest
      obtain ⟨-, hdig, hlow⟩ := (eq_compose_iff (by omega) hb.le hk (Branch.find_lt hb.ok hc)
        ((hb.child d).bound (mem_of_slotEntry (hb.child d) hx))).mp hkx
      obtain ⟨-, hdig', hlow'⟩ := (eq_compose_iff (by omega) hb.le hk (Branch.find_lt hb.ok hc')
        ((hb.child d').bound (mem_of_slotEntry (hb.child d') hx'))).mp hkx'
      have hdd : d = d' := hdig.symm.trans hdig'
      subst hdd
      rw [← hlow] at hx
      rw [← hlow'] at hx'
      obtain ⟨rfl, rfl⟩ := ih (hb.child d) hx hx'
      exact ⟨rfl, rfl⟩

end Edge

namespace Store

variable {V : Type} [Inhabited V] {fl : Flavour} {lo : ℕ → ℕ → ℕ} {key n : ℕ} {v : V} {s : Store V}
  {top : Edge V} {path : Option InsertPath} {a : Addr}

variable (key) in
omit [Inhabited V] in
/-- At the cached leaf the shortcut finds what the descent finds there. -/
theorem warmSlot_eq {kind : WarmLeaf} {pop : ℕ} {t : Edge V} (hr : Readable fl (fun _ => True) 1 t)
    (hpop : warmPop kind t = some pop) :
    (warmSlot kind pop t (digit key 1)).map (fun pos => (⟨[], pos⟩ : Slot)) =
      locateSlot 1 t key 1 := by
  cases t with
  | leafB1 aux node =>
    cases kind with
    | leaf1 => cases hpop
    | bitmap =>
      simp only [warmSlot, locateSlot, lt_irrefl, decide_false, Bool.false_and, Bool.false_eq_true,
        if_false]
      split_ifs <;> rfl
  | leaf kb aux cols =>
    cases kind with
    | bitmap => cases hpop
    | leaf1 =>
      by_cases hk : kb = 1
      · subst hk
        cases hpop
        rw [Readable] at hr
        have htake : cols.keys.take (Aux.pop0 aux 1 + 1) = cols.keys := by
          rw [hr.2.2.2.2]
          exact List.take_length
        rw [warmSlot, htake, locateSlot]
        simp only [lt_irrefl, decide_false, Bool.false_and, Bool.false_eq_true, if_false, low_one,
          Option.map_map]
        rfl
      · simp [warmPop, hk] at hpop
  | _ => cases kind <;> cases hpop

theorem getSlotPtr_of_mem (h : Inv .map lo s) (hk : key < 256 ^ 8) (hm : (key, v) ∈ s.items) :
    ∃ a, s.getSlotPtr key = some a ∧ s.entryAt a = some (key, v) := by
  obtain ⟨root, n, path⟩ := s
  cases root with
  | empty => cases hm
  | leaf cols =>
    have hkey := Columns.mem_keys hm
    refine ⟨.rootLeaf (lowerBound cols.keys key), ?_, ?_⟩
    · simp [getSlotPtr, indexOf?_of_mem h.packed.sorted hkey]
    · obtain ⟨w, -, hw⟩ := Columns.exists_val (getElem?_lowerBound h.packed.sorted hkey)
      rw [← h.packed.keySorted.value_unique (List.mem_of_getElem? hw) hm]
      exact hw
  | tree top =>
    have hm' : (low key 8, v) ∈ entries 8 top := by
      rw [low_of_lt hk]
      exact hm
    obtain ⟨slot, hs, he⟩ := locateSlot_spec h.readable rfl (show 8 ≤ FUEL by decide) (by decide) hm'
    rw [low_of_lt hk] at he
    exact ⟨.tree slot, by simp [getSlotPtr, hs], he⟩

theorem getSlotPtr_of_not_mem (h : Inv .map lo s) (hk : key < 256 ^ 8)
    (hm : ∀ v, (key, v) ∉ s.items) : s.getSlotPtr key = none := by
  obtain ⟨root, n, path⟩ := s
  cases root with
  | empty => rfl
  | leaf cols =>
    have hn : key ∉ cols.keys := by
      intro hkey
      rw [← Columns.map_fst_entries] at hkey
      obtain ⟨⟨_, w⟩, hw, rfl⟩ := List.mem_map.mp hkey
      exact hm w hw
    simp [getSlotPtr, indexOf?_of_not_mem hn]
  | tree top =>
    have : locateSlot FUEL top key 8 = none := by
      apply locateSlot_eq_none h.readable (by decide) (by decide)
      rw [low_of_lt hk]
      exact hm
    simp [getSlotPtr, this]

/-- Unless the hit is stale, the cached path answers what the descent answers. -/
theorem getValueSlot_eq (h : Inv .map lo s) (hk : key < 256 ^ 8) (hst : ¬ Stale s key) :
    s.getValueSlot key = s.getSlotPtr key := by
  obtain ⟨root, n, path⟩ := s
  cases root with
  | empty => rfl
  | leaf cols => rfl
  | tree top =>
    cases path with
    | none => rfl
    | some w =>
      simp only [getValueSlot]
      split_ifs with hpre
      · have hinv : TreeInv .map lo top n (some w) := h
        obtain ⟨u, t, hr, hpop⟩ := hinv.leads w rfl
        have ht := ne_null_of_warmPop hpop
        have hu : u = key / 256 := by
          by_contra hne
          exact hst ⟨top, w, u, t, rfl, rfl, hpre, hr, hne⟩
        have hwt : WF .map lo 1 t := resolve_wf hinv.wf (resolve_flushRoute hinv.readable hr ht)
        have hslot := warmSlot_eq key hwt.1.readable hpop
        simp only [hr]
        have hmem : ∀ v, (low key 1, v) ∈ entries 1 t ↔ (key, v) ∈ entries 8 top := by
          intro v
          rw [low_one, ← mem_entries_resolve hinv.readable hr ht (digit_lt _ _), hu, key_split]
        by_cases hp : ∃ v, (key, v) ∈ entries 8 top
        · obtain ⟨v, hv⟩ := hp
          obtain ⟨sl, hs, he⟩ := locateSlot_spec hwt.1.readable rfl (le_refl 1) le_rfl
            ((hmem v).mpr hv)
          rw [hs, Option.map_eq_some_iff] at hslot
          obtain ⟨pos, hpos, rfl⟩ := hslot
          rw [low_one] at he
          -- both addresses read the key, so they are one
          obtain ⟨a, ha, hat⟩ := getSlotPtr_of_mem h hk hv
          have hwarm : slotEntry 8 top w.route pos = some (key, v) := by
            rw [slotEntry_resolve hinv.readable hr ht, he, Option.map_some, hu, key_split]
          cases a with
          | rootLeaf i => cases hat
          | tree slot =>
            obtain ⟨h1, h2⟩ := slotEntry_inj hinv.readable hwarm hat
            rw [hpos, ha, Option.map_some, h1, h2]
        · push Not at hp
          have hnone := locateSlot_eq_none hwt.1.readable (le_refl 1) le_rfl
            (fun v hv => hp v ((hmem v).mp hv))
          rw [hnone, Option.map_eq_none_iff] at hslot
          rw [hslot, getSlotPtr_of_not_mem h hk hp]
          rfl
      · rfl

/-- A store through a slot rebinds the key it addresses; the path still leads where it led. -/
theorem writeAt_spec (h : Inv fl lo s) (ha : s.entryAt a = some (key, v)) (w : V) :
    Inv fl lo (s.writeAt a w) ∧ Updated key w s.items (s.writeAt a w).items ∧
      (s.writeAt a w).path = s.path ∧
      ∀ p top' u t, s.path = some p → (s.writeAt a w).root = .tree top' →
        resolve 8 top' p.route = some (u, t) →
        ∃ top t₀, s.root = .tree top ∧ resolve 8 top p.route = some (u, t₀) := by
  obtain ⟨root, n, path⟩ := s
  cases root with
  | empty => cases a <;> cases ha
  | leaf cols =>
    cases a with
    | tree slot => cases ha
    | rootLeaf i =>
      have hki := Columns.getElem?_keys ha
      refine ⟨⟨h.packed.setVal i w, h.one_le, h.le_cap, h.cold⟩,
        Columns.updated_setVal h.packed hki w, rfl, ?_⟩
      intro p top' u t _ htop
      cases htop
  | tree top =>
    cases a with
    | rootLeaf i => cases ha
    | tree slot =>
      have hinv : TreeInv fl lo top n path := h
      have hs : slotEntry 8 top slot.route slot.pos = some (key, v) := ha
      have hread := writeSlot_readable hinv.readable hs w
      have hlen : ∀ {l' : List (ℕ × V)}, Updated key w (entries 8 top) l' → KeySorted l' →
          l'.length = (entries 8 top).length := by
        intro l' hu hs'
        rw [hu.length hinv.readable.sorted hs', if_pos]
        exact List.mem_map_of_mem (f := Prod.fst) (mem_of_slotEntry hinv.readable hs)
      cases path with
      | none =>
        obtain ⟨hw, hu⟩ := writeSlot_spec (show WF fl lo 8 top from hinv.wf) hs w
        refine ⟨TreeInv.of_wf hw ?_ ?_ (fun _ hp => by cases hp) (fun _ hp => by cases hp), hu,
          rfl, ?_⟩
        · rw [hlen hu hread.sorted]
          exact hinv.pop
        · rw [hlen hu hread.sorted]
          exact hinv.large
        · intro p _ _ _ hp
          cases hp
      | some q =>
        obtain ⟨u, t, hr, hpop⟩ := hinv.leads q rfl
        have ht := ne_null_of_warmPop hpop
        obtain ⟨hw, hu⟩ := writeSlot_deferred hinv.readable (show WF fl lo 8
          (flushRoute q.pendingPop 8 top q.route) from hinv.wf) hr ht hs w
        obtain ⟨t', hr', -, hpop'⟩ := resolve_writeSlot (w := w) hinv.readable hr ht hs
        refine ⟨⟨hread, hw, ?_, ?_, ?_⟩, hu, rfl, ?_⟩
        · rw [hlen hu hread.sorted]
          exact hinv.pop
        · rw [hlen hu hread.sorted]
          exact hinv.large
        · rintro _ ⟨⟩
          exact ⟨u, t', hr', (hpop' q.leaf).trans hpop⟩
        · intro p top' u₁ t₁ hp htop hres
          cases hp
          cases htop
          rw [hr'] at hres
          cases hres
          exact ⟨top, t, rfl, hr⟩

/-- `ins_slot` leaves a present value alone, binds the default word otherwise, and hands out the
key's slot. -/
theorem insSlot_spec (h : Inv .map lo s) (hk : key < 256 ^ 8) (hst : ¬ Stale s key)
    (hc : CleanAt .map lo s key) (ha : Admits .map lo) :
    ∃ o, insSlot s key = .ok o ∧ Inserts .map lo true s key default o := by
  obtain ⟨o, ho, hi⟩ := insertInner_spec true (default : V) h hk hst hc ha
    (by simp)
  obtain ⟨root, n, path⟩ := s
  cases root with
  | empty => exact ⟨o, ho, hi⟩
  | tree top => exact ⟨o, ho, hi⟩
  | leaf cols =>
    simp only [insSlot]
    cases hpos : leafPos cols.keys cols.size key with
    | ok pos => exact ⟨o, ho, hi⟩
    | error pos =>
      simp only
      split_ifs with hroom
      · exact ⟨o, ho, hi⟩
      -- the promoted tree is asked for the slot once more
      · obtain ⟨o', ho', hi'⟩ := insertInner_spec false (default : V) h hk hst hc
          ha (by simp)
        have hkey : leafPos cols.keys cols.size key = locate cols.keys key := by
          rw [show cols.size = cols.keys.length from rfl,
            leafPos_eq_locate h.packed.sorted h.one_le]
        rw [hkey] at hpos
        have hold : o'.old = none := by
          cases hold : o'.old with
          | none => rfl
          | some v =>
            have hm := (hi'.old v).mp hold
            exact absurd (Columns.mem_keys hm) (locate_error h.packed.sorted hpos).1
        have hcont := hi'.content
        rw [hold, stored_none] at hcont
        have hst' : ¬ Stale o'.store key := by
          rintro ⟨top, w, u, t, hroot, hpath, hpre, hres, hne⟩
          rcases hi'.traced w top u t hpath hroot hres with hu | ⟨_, _, _, -, hr, -⟩ | ⟨_, _, hr, -⟩
          · exact hne (hu.trans hpre)
          · cases hr
          · cases hr
        obtain ⟨a, hat, hent⟩ := getSlotPtr_of_mem hi'.inv hk ((hcont key default).mpr (.inl ⟨rfl, rfl⟩))
        rw [← getValueSlot_eq hi'.inv hk hst'] at hat
        refine ⟨{ o' with addr := a }, by simp only [ho', hat], hi'.inv, hi'.old, ?_, ?_, hi'.traced⟩
        · simp only [hold, stored_none]
          exact hcont
        · intro _
          simp only [hold, stored_none]
          exact hent

theorem insSlot_of_ok {o : Outcome V} (h : Inv .map lo s) (hk : key < 256 ^ 8)
    (hfit : ¬ SplitsAt .map lo true s key default) (ha : Admits .map lo)
    (ho : insSlot s key = .ok o) :
    ∃ k, Inserts .map lo true s k default o ∧ (¬ Stale s key → k = key) := by
  obtain ⟨root, n, path⟩ := s
  cases root with
  | tree top => exact insertInner_of_ok h hk hfit ha (by simp) ho
  | _ =>
    obtain ⟨o', ho', hi⟩ := insSlot_spec h hk (not_stale_of_root (by simp))
      (fun _ ht => by cases ht) ha
    rw [ho] at ho'
    cases ho'
    exact ⟨key, hi, fun _ => rfl⟩

/-- A slot that is handed out addresses a stored entry, also by a stale hit. -/
theorem entryAt_getValueSlot (h : Inv .map lo s) (hk : key < 256 ^ 8)
    (ha : s.getValueSlot key = some a) : ∃ k v, s.entryAt a = some (k, v) := by
  by_cases hst : Stale s key
  · obtain ⟨top, w, u, t, hroot, hpath, hpre, hr, -⟩ := hst
    obtain ⟨root, n, path⟩ := s
    cases hroot
    cases hpath
    have hinv : TreeInv .map lo top n (some w) := h
    obtain ⟨u', t', hr', hpop⟩ := hinv.leads w rfl
    rw [hr] at hr'
    cases hr'
    have ht := ne_null_of_warmPop hpop
    have hwt : WF .map lo 1 t := resolve_wf hinv.wf (resolve_flushRoute hinv.readable hr ht)
    have hslot := warmSlot_eq key hwt.1.readable hpop
    simp only [getValueSlot, if_pos hpre, hr, Option.map_eq_some_iff] at ha
    obtain ⟨pos, hpos, rfl⟩ := ha
    rw [hpos, Option.map_some] at hslot
    by_cases hm : ∃ v, (low key 1, v) ∈ entries 1 t
    · obtain ⟨v, hv⟩ := hm
      obtain ⟨sl, hs, he⟩ := locateSlot_spec hwt.1.readable rfl (le_refl 1) le_rfl hv
      rw [← hslot] at hs
      cases hs
      exact ⟨u * 256 + low key 1, v, by
        simp only [entryAt]
        rw [slotEntry_resolve hinv.readable hr ht, he, Option.map_some]⟩
    · push Not at hm
      rw [locateSlot_eq_none hwt.1.readable (le_refl 1) le_rfl hm] at hslot
      cases hslot
  · rw [getValueSlot_eq h hk hst] at ha
    by_cases hm : ∃ v, (key, v) ∈ s.items
    · obtain ⟨v, hv⟩ := hm
      obtain ⟨a', ha', hat⟩ := getSlotPtr_of_mem h hk hv
      rw [ha] at ha'
      cases ha'
      exact ⟨key, v, hat⟩
    · push Not at hm
      rw [getSlotPtr_of_not_mem h hk hm] at ha
      cases ha

theorem Faithful.writeAt (h : Inv fl lo s) (hf : Faithful s) (ha : s.entryAt a = some (key, v))
    (w : V) : Faithful (s.writeAt a w) := by
  obtain ⟨-, -, hpath, hres⟩ := writeAt_spec h ha w
  intro p top' u t hp htop hr
  rw [hpath] at hp
  obtain ⟨top, t₀, htop₀, hr₀⟩ := hres p top' u t hp htop hr
  exact hf p top u t₀ hp htop₀ hr₀

/-- What a caller sees of an insert: the previous value, the stored items, and the entry at the
address handed out. -/
def Outcome.seen (o : Outcome V) : Option V × List (ℕ × V) × Option (ℕ × V) :=
  (o.old, o.store.items, o.store.entryAt o.addr)

/-- A hit on a faithful path ends at the key's own leaf, which is no narrow one. -/
theorem not_panics_of_warmTree {keep : Bool} {val : V} {o : Outcome V} (h : TreeInv fl lo top n path)
    (hf : Faithful ⟨.tree top, n, path⟩) (hk : key < 256 ^ 8)
    (hw : warmTree fl keep ⟨.tree top, n, path⟩ top key val = some o) :
    ¬ Panics 8 (settled path top) key := by
  cases path with
  | none => cases hw
  | some w =>
    simp only [warmTree] at hw
    split_ifs at hw with hpre
    obtain ⟨u, t, hr, hpop⟩ := h.leads w rfl
    have ht := ne_null_of_warmPop hpop
    have hu := hf w top u t rfl rfl hr
    have hend : terminal 8 (settled (some w) top) key = (1, t) := by
      refine terminal_resolve h.wf.1.readable (resolve_flushRoute h.readable hr ht) ht ?_ ?_
      · rintro aux node rfl
        cases hl : w.leaf <;> simp [hl, warmPop] at hpop
      · rw [low_of_lt hk, hu, hpre]
    rintro ⟨M, aux, cols, hterm, -, hz, -⟩
    rw [hend] at hterm
    cases hterm
    exact hz (slice_self _ _)

theorem Faithful.insertInner_seen (h : Inv .map (fun _ _ => 0) s) (hf : Faithful s)
    (hk : key < 256 ^ 8) (keep : Bool) (val : V) :
    (insertInner .map keep s key val).map Outcome.seen =
      (insertInner .map keep s.clearPath key val).map Outcome.seen := by
  obtain ⟨root, n, path⟩ := s
  cases root with
  | empty =>
    cases h
    rfl
  | leaf cols =>
    cases h.cold
    rfl
  | tree top =>
    cases hw : warmTree .map keep ⟨.tree top, n, path⟩ top key val with
    | none =>
      have hcold : coldTree .map keep ⟨.tree top, n, path⟩ key val =
          coldTree .map keep (Store.clearPath ⟨.tree top, n, path⟩) key val := by
        simp only [coldTree, TreeInv.clearPath_eq h]
        rfl
      have hc : Store.insertInner .map keep (Store.clearPath ⟨.tree top, n, path⟩) key val =
          coldTree .map keep (Store.clearPath ⟨.tree top, n, path⟩) key val := by
        rw [TreeInv.clearPath_eq h]
        rfl
      simp only [insertInner, hw, hcold] at hc ⊢
      rw [hc]
    | some o =>
      have hc : CleanAt .map (fun _ _ => 0) ⟨.tree top, n, path⟩ key := by
        rintro _ ⟨⟩
        exact clean_zero_of_safe fun _ => not_panics_of_warmTree h hf hk hw
      obtain ⟨o, o', ho, ho', hold, hi, ha⟩ := hf.insert_eq h hk hc admits_zero (by simp) keep val
      rw [ho, ho']
      simp only [Except.map, Outcome.seen, hold, hi, ha rfl]

theorem Faithful.insSlot_seen (h : Inv .map (fun _ _ => 0) s) (hf : Faithful s)
    (hk : key < 256 ^ 8) :
    (insSlot s key).map Outcome.seen = (insSlot s.clearPath key).map Outcome.seen := by
  have hseen := hf.insertInner_seen h hk true default
  obtain ⟨root, n, path⟩ := s
  cases root with
  | empty =>
    cases h
    rfl
  | leaf cols =>
    cases h.cold
    rfl
  | tree top =>
    rw [TreeInv.clearPath_eq h] at hseen ⊢
    exact hseen

end Store

end Expanse
