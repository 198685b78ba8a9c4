import Expanse.Engine.PathSpec

/-!
# Stores through value slots

The address of a value word stays what it was while ancestors are flushed, and a
store through it rebinds its key and nothing else, also in a tree whose
populations are deferred.
-/

namespace Expanse

open Radix SortedAssoc

namespace Ranked

variable {α : Type*} {r : Ranked α} {s i x : ℕ} {v : α}

theorem rank_of_row (hs : (r.row s)[i]? = some (x, v)) :
    x / 32 = s ∧ r.get x = some v ∧ Bitmap.subexpanseRank r.bits x = i := by
  obtain ⟨hx, hg⟩ := mem_row.mp (List.mem_of_getElem? hs)
  refine ⟨hx, hg, ?_⟩
  rw [row, List.getElem?_zip_eq_some] at hs
  have hm := List.mem_of_getElem? hs.1
  have hat := getElem?_lowerBound (Bitmap.subDigits_sorted r.bits s) hm
  have hn : (Bitmap.subDigits r.bits s).Nodup := (Bitmap.subDigits_sorted _ _).imp Nat.ne_of_lt
  rw [Bitmap.subexpanseRank_eq, hx]
  exact (List.getElem?_inj (List.getElem?_eq_some_iff.mp hat).1 hn).mp (hat.trans hs.1.symm)

theorem modify_row (hs : (r.row s)[i]? = some (x, v)) (w : α) :
    (⟨r.bits, r.subs.modify s fun row => row.set i w⟩ : Ranked α) = r.set x w := by
  obtain ⟨rfl, -, rfl⟩ := rank_of_row hs
  rfl

end Ranked

namespace Edge

variable {V : Type} {fl : Flavour} {P : Branch (Edge V) → Prop} {L n u k aux d : ℕ}
  {route ds : List ℕ} {pos : SlotPos} {e t : Edge V} {node : Branch (Edge V)} {v : V}

theorem slotEntry_cons (h : slotEntry L (branch aux node) (d :: ds) pos = some (k, v)) :
    (node.find d).isSome ∧ node.child d ≠ null ∧
      ∃ x, slotEntry (node.level L - 1) (node.child d) ds pos = some (x, v) ∧
        k = slice aux (node.level L) L * 256 ^ node.level L + d * 256 ^ (node.level L - 1) + x := by
  rw [slotEntry, Option.map_eq_some_iff] at h
  obtain ⟨⟨x, v'⟩, hx, he⟩ := h
  cases he
  have hn : node.child d ≠ null := by
    intro hnull
    rw [hnull] at hx
    cases ds <;> simp [slotEntry] at hx
  refine ⟨?_, hn, x, hx, rfl⟩
  by_contra hf
  rw [Bool.not_eq_true, Option.isSome_eq_false_iff, Option.isNone_iff_eq_none] at hf
  rw [Branch.child, hf] at hn
  exact hn rfl

theorem slotEntry_branch (h : slotEntry L e (d :: ds) pos = some (k, v)) :
    ∃ aux node, e = branch aux node := by
  cases e with
  | branch aux node => exact ⟨aux, node, rfl⟩
  | _ => simp [slotEntry] at h

theorem writeSlot_ne_null {w : V} (h : e ≠ null) : writeSlot e route pos w ≠ null := by
  cases e <;> cases route <;> cases pos <;> simp_all [writeSlot]

/-- The address of an entry of the cached leaf, seen from the root. -/
theorem slotEntry_resolve (h : Readable fl P L e) (hr : resolve L e route = some (u, t))
    (ht : t ≠ null) :
    slotEntry L e route pos = (slotEntry 1 t [] pos).map fun x => (u * 256 + x.1, x.2) := by
  induction route generalizing L e u with
  | nil =>
    rw [resolve] at hr
    split_ifs at hr with hL
    cases hr
    subst hL
    simp
  | cons d ds ih =>
    obtain ⟨aux, node, rfl⟩ := resolve_branch hr
    have hb := readable_branch.mp h
    obtain ⟨hd, u', hr', rfl⟩ := resolve_cons hr ht
    rw [slotEntry, ih (hb.child d) hr', Option.map_map]
    congr 1
    funext x
    simp only [Function.comp, compose_byte hb.two_le]

theorem slotEntry_flushRoute (h : Readable fl P L e) (hr : resolve L e route = some (u, t))
    (ht : t ≠ null) (r : List ℕ) :
    slotEntry L (flushRoute n L e route) r pos = slotEntry L e r pos := by
  induction route generalizing L e u r with
  | nil => cases e <;> rfl
  | cons d ds ih =>
    obtain ⟨aux, node, rfl⟩ := resolve_branch hr
    have hb := readable_branch.mp h
    obtain ⟨hd, u', hr', rfl⟩ := resolve_cons hr ht
    rw [flushRoute]
    cases r with
    | nil => cases pos <;> simp [slotEntry]
    | cons d' ds' =>
      rw [slotEntry, slotEntry, Branch.level_setChild, Branch.child_setChild hb.ok hd,
        slice_flushed]
      by_cases hdd : d' = d
      · subst hdd
        rw [if_pos rfl, ih (hb.child d') hr']
      · rw [if_neg hdd]

/-- A store through an address commutes with a flush. -/
theorem flushRoute_writeSlot {w : V} {r : List ℕ} (h : Readable fl P L e)
    (hr : resolve L e route = some (u, t)) (ht : t ≠ null)
    (hs : slotEntry L e r pos = some (k, v)) :
    flushRoute n L (writeSlot e r pos w) route = writeSlot (flushRoute n L e route) r pos w := by
  induction r generalizing L e u route k with
  | nil =>
    cases route with
    | nil => cases e <;> cases pos <;> rfl
    | cons d ds =>
      obtain ⟨aux, node, rfl⟩ := resolve_branch hr
      simp [slotEntry] at hs
  | cons d' ds' ih =>
    obtain ⟨aux, node, rfl⟩ := slotEntry_branch hs
    have hb := readable_branch.mp h
    obtain ⟨hd', -, x, hx, -⟩ := slotEntry_cons hs
    cases route with
    | nil => rfl
    | cons d ds =>
      obtain ⟨hd, u', hr', rfl⟩ := resolve_cons hr ht
      rw [writeSlot, flushRoute, flushRoute, writeSlot, Branch.level_setChild,
        Branch.child_setChild hb.ok hd', Branch.child_setChild hb.ok hd]
      by_cases hdd : d = d'
      · subst hdd
        rw [if_pos rfl, if_pos rfl, ih (hb.child d) hr' hx, Branch.setChild_setChild,
          Branch.setChild_setChild]
      · rw [if_neg hdd, if_neg (Ne.symm hdd), Branch.setChild_comm hb.ok hd hd' hdd]

theorem warmPop_writeSlot {w : V} (leaf : WarmLeaf) :
    warmPop leaf (writeSlot t [] pos w) = warmPop leaf t := by
  cases t with
  | leaf kb aux cols =>
    by_cases hk : kb = 1
    · subst hk
      cases pos <;> cases leaf <;> rfl
    · cases pos <;> cases leaf <;> simp [writeSlot, warmPop, hk]
  | _ => cases pos <;> cases leaf <;> rfl

/-- A store through an address keeps the cached route and the population at its end. -/
theorem resolve_writeSlot {w : V} {r : List ℕ} (h : Readable fl P L e)
    (hr : resolve L e route = some (u, t)) (ht : t ≠ null)
    (hs : slotEntry L e r pos = some (k, v)) :
    ∃ t', resolve L (writeSlot e r pos w) route = some (u, t') ∧ t' ≠ null ∧
      ∀ leaf, warmPop leaf t' = warmPop leaf t := by
  induction r generalizing L e u route k with
  | nil =>
    cases route with
    | nil =>
      rw [resolve] at hr
      split_ifs at hr with hL
      cases hr
      refine ⟨writeSlot t [] pos w, by rw [resolve, if_pos hL],
        writeSlot_ne_null ht, fun leaf => warmPop_writeSlot leaf⟩
    | cons d ds =>
      obtain ⟨aux, node, rfl⟩ := resolve_branch hr
      simp [slotEntry] at hs
  | cons d' ds' ih =>
    obtain ⟨aux, node, rfl⟩ := slotEntry_branch hs
    have hb := readable_branch.mp h
    obtain ⟨hd', -, x, hx, -⟩ := slotEntry_cons hs
    cases route with
    | nil =>
      rw [resolve] at hr
      split_ifs at hr with hL
      have := hb.two_le
      have := hb.le
      omega
    | cons d ds =>
      obtain ⟨hd, u', hr', rfl⟩ := resolve_cons hr ht
      rw [writeSlot, resolve, Branch.level_setChild, Branch.child_setChild hb.ok hd']
      by_cases hdd : d = d'
      · subst hdd
        obtain ⟨t', ht', hpop⟩ := ih (hb.child d) hr' hx
        exact ⟨t', by rw [if_pos rfl, ht']; rfl, hpop⟩
      · exact ⟨t, by rw [if_neg hdd, hr']; rfl, ht, fun _ => rfl⟩

variable [Inhabited V] {lo : ℕ → ℕ → ℕ}

omit [Inhabited V] in
theorem writeSlot_readable (h : Readable fl (fun _ => True) L e)
    (hs : slotEntry L e route pos = some (k, v)) (w : V) :
    Readable fl (fun _ => True) L (writeSlot e route pos w) := by
  induction route generalizing L e k with
  | nil =>
    cases e with
    | immed kb cols =>
      cases pos with
      | index i =>
        rw [Readable] at h
        rw [writeSlot, Readable]
        exact ⟨h.1, h.2.1, h.2.2.1.setVal i w, h.2.2.2⟩
      | sub s r => exact h
    | leaf kb aux cols =>
      cases pos with
      | index i =>
        rw [Readable] at h
        rw [writeSlot, Readable]
        exact ⟨h.1, h.2.1, h.2.2.1.setVal i w, h.2.2.2⟩
      | sub s r => exact h
    | leafB1 aux nd =>
      cases pos with
      | index i => exact h
      | sub s r =>
        rw [slotEntry, Option.map_eq_some_iff] at hs
        obtain ⟨⟨x, v'⟩, hx, -⟩ := hs
        obtain ⟨-, hg, -⟩ := Ranked.rank_of_row hx
        rw [Readable] at h
        have hb := (Ranked.get_isSome h.2.1).mp (by rw [hg]; rfl)
        rw [writeSlot, Ranked.modify_row hx, Readable]
        exact ⟨h.1, Ranked.set_ok h.2.1 (h.2.1.bound x hb) w, h.2.2⟩
    | _ => cases pos <;> exact h
  | cons d ds ih =>
    obtain ⟨aux, node, rfl⟩ := slotEntry_branch hs
    have hb := readable_branch.mp h
    obtain ⟨hd, hn, x, hx, -⟩ := slotEntry_cons hs
    rw [writeSlot]
    exact readable_branch.mpr
      (hb.store hd (ih (hb.child d) hx) (writeSlot_ne_null hn) trivial)

theorem mem_of_slotEntry (h : Readable fl P L e) (hs : slotEntry L e route pos = some (k, v)) :
    (k, v) ∈ entries L e := by
  induction route generalizing L e k with
  | nil =>
    cases e with
    | immed kb cols =>
      cases pos with
      | index i =>
        rw [entries]
        exact List.mem_of_getElem? hs
      | sub s r => simp [slotEntry] at hs
    | leaf kb aux cols =>
      cases pos with
      | index i =>
        rw [slotEntry, Option.map_eq_some_iff] at hs
        obtain ⟨⟨x, v'⟩, hx, he⟩ := hs
        cases he
        rw [entries, mem_shift]
        exact ⟨x, List.mem_of_getElem? hx, rfl⟩
      | sub s r => simp [slotEntry] at hs
    | leafB1 aux nd =>
      cases pos with
      | index i => simp [slotEntry] at hs
      | sub s r =>
        rw [slotEntry, Option.map_eq_some_iff] at hs
        obtain ⟨⟨x, v'⟩, hx, he⟩ := hs
        cases he
        rw [Readable] at h
        rw [entries, mem_shift]
        exact ⟨x, (Ranked.mem_entries h.2.1).mpr (Ranked.rank_of_row hx).2.1, rfl⟩
    | _ => cases pos <;> simp [slotEntry] at hs
  | cons d ds ih =>
    obtain ⟨aux, node, rfl⟩ := slotEntry_branch hs
    have hb := readable_branch.mp h
    have h2 := hb.two_le
    obtain ⟨hd, hn, x, hx, rfl⟩ := slotEntry_cons hs
    rw [mem_entries_branch_slots (by omega) hb.le]
    exact ⟨d, node.child d, x, (Branch.mem_slots_iff hb.ok hb.filled).mpr ⟨rfl, hn⟩,
      ih (hb.child d) hx, rfl⟩

/-- A store through an address rebinds the key that it addresses. -/
theorem writeSlot_spec (h : WF fl lo L e) (hs : slotEntry L e route pos = some (k, v)) (w : V) :
    WF fl lo L (writeSlot e route pos w) ∧
      Updated k w (entries L e) (entries L (writeSlot e route pos w)) := by
  induction route generalizing L e k with
  | nil =>
    cases e with
    | immed kb cols =>
      cases pos with
      | index i =>
        have hsh := h.1
        rw [slotEntry] at hs
        rw [Shape] at hsh
        obtain ⟨hk, h1, h7, hp, hn, hm⟩ := hsh
        have hki := Columns.getElem?_keys hs
        rw [writeSlot, entries, entries]
        refine ⟨⟨?_, trivial⟩, Columns.updated_setVal hp hki w⟩
        rw [Shape]
        exact ⟨hk, h1, h7, hp.setVal i w, hn, hm⟩
      | sub s r => simp [slotEntry] at hs
    | leaf kb aux cols =>
      cases pos with
      | index i =>
        have hsh := h.1
        rw [slotEntry, Option.map_eq_some_iff] at hs
        obtain ⟨⟨x, v'⟩, hx, he⟩ := hs
        cases he
        rw [Shape] at hsh
        obtain ⟨h1, hkl, h7, hp, hn, hcap, hpop, hlo⟩ := hsh
        have hki := Columns.getElem?_keys hx
        rw [writeSlot, entries, entries]
        refine ⟨⟨?_, trivial⟩, updated_shift (Columns.updated_setVal hp hki w)⟩
        rw [Shape]
        exact ⟨h1, hkl, h7, hp.setVal i w, hn, hcap, hpop, hlo⟩
      | sub s r => simp [slotEntry] at hs
    | leafB1 aux nd =>
      cases pos with
      | index i => simp [slotEntry] at hs
      | sub s r =>
        have hsh := h.1
        rw [slotEntry, Option.map_eq_some_iff] at hs
        obtain ⟨⟨x, v'⟩, hx, he⟩ := hs
        cases he
        rw [Shape] at hsh
        obtain ⟨h1, h7, hok, hdown, hpop⟩ := hsh
        obtain ⟨-, hg, -⟩ := Ranked.rank_of_row hx
        have hb := (Ranked.get_isSome hok).mp (by rw [hg]; rfl)
        have hok' := Ranked.set_ok hok (hok.bound x hb) w
        rw [writeSlot, Ranked.modify_row hx, entries, entries]
        refine ⟨⟨?_, trivial⟩,
          updated_shift (Ranked.updated_of_get hok hok' (Ranked.get_set hok hb w))⟩
        rw [Shape]
        exact ⟨h1, h7, hok', hdown, hpop⟩
    | _ => cases pos <;> simp [slotEntry] at hs
  | cons d ds ih =>
    obtain ⟨aux, node, rfl⟩ := slotEntry_branch hs
    have hb := shape_branch.mp h.1
    obtain ⟨hd, hn, x, hx, rfl⟩ := slotEntry_cons hs
    obtain ⟨c, hc⟩ := Option.isSome_iff_exists.mp hd
    obtain ⟨hw, hu⟩ := ih (hb.child d) hx
    have hn' : writeSlot (node.child d) ds pos w ≠ null := writeSlot_ne_null hn
    have o := Opened.refl hb hd
    have hs' := hb.store o hw hn'
    have hm := (hu x w).mpr (.inl ⟨rfl, rfl⟩)
    rw [writeSlot]
    have hup := updated_store hb o aux aux hw hn' rfl (Branch.find_lt hb.ok hc)
      (hw.1.bound hm) hu
    refine ⟨⟨shape_branch.mpr hs', ?_⟩, hup⟩
    intro h7
    have hlen := hup.length h.1.sorted (shape_branch.mpr hs').sorted
    have hin := List.mem_map_of_mem (f := Prod.fst) (mem_of_slotEntry h.1.readable hs)
    rw [if_pos hin] at hlen
    rw [Branch.level_setChild] at h7 ⊢
    rw [hlen]
    exact h.2 h7

theorem writeSlot_deferred {r : List ℕ} (h : Readable fl (fun _ => True) L e)
    (hw : WF fl lo L (flushRoute n L e route)) (hr : resolve L e route = some (u, t))
    (ht : t ≠ null) (hs : slotEntry L e r pos = some (k, v)) (w : V) :
    WF fl lo L (flushRoute n L (writeSlot e r pos w) route) ∧
      Updated k w (entries L e) (entries L (writeSlot e r pos w)) := by
  have hs' : slotEntry L (flushRoute n L e route) r pos = some (k, v) := by
    rw [slotEntry_flushRoute h hr ht]
    exact hs
  obtain ⟨hwf, hu⟩ := writeSlot_spec hw hs' w
  rw [← flushRoute_writeSlot h hr ht hs] at hwf hu
  obtain ⟨t', hr', ht', -⟩ := resolve_writeSlot (w := w) h hr ht hs
  refine ⟨hwf, ?_⟩
  rwa [(flushRoute_entries h hr ht).2,
    (flushRoute_entries (writeSlot_readable h hs w) hr' ht').2] at hu

end Edge

end Expanse
