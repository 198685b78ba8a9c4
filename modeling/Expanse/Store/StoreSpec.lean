import Expanse.Engine.NavSpec
import Expanse.Engine.RemoveSpec
import Expanse.Store.InsertInv

/-!
# Lookups and removals

Reading operations answer from the stored items. A removal clears the path first
and may condense the tree; it deletes exactly its key.
-/

namespace Expanse.Store

open Radix SortedAssoc Edge

variable {V : Type} [Inhabited V] {fl : Flavour} {lo : ℕ → ℕ → ℕ} {key n : ℕ} {v : V} {s : Store V}
  {top : Edge V}

theorem toNat_lt (k : UInt64) : k.toNat < 256 ^ 8 := lt_of_lt_of_eq k.toNat_lt (by norm_num)

theorem Inv.sorted (h : Inv fl lo s) : KeySorted s.items := by
  obtain ⟨root, n, path⟩ := s
  cases root with
  | empty => exact List.Pairwise.nil
  | leaf cols => exact h.packed.keySorted
  | tree top => exact h.readable.sorted

theorem Inv.bound (h : Inv fl lo s) {k : ℕ} (hm : (k, v) ∈ s.items) : k < 256 ^ 8 := by
  obtain ⟨root, n, path⟩ := s
  cases root with
  | empty => cases hm
  | leaf cols => exact h.packed.bound k (Columns.mem_keys hm)
  | tree top => exact h.readable.bound hm

theorem find_spec (h : Inv fl lo s) (hk : key < 256 ^ 8) :
    s.find key = some v ↔ (key, v) ∈ s.items := by
  obtain ⟨root, n, path⟩ := s
  cases root with
  | empty => simp [find, items]
  | leaf cols => exact h.packed.find_iff
  | tree top =>
    have hw : walk FUEL top key 8 = some v ↔ (low key 8, v) ∈ entries 8 top :=
      walk_spec h.readable (by decide) (by decide)
    rwa [low_of_lt hk] at hw

theorem len_eq (h : Inv fl lo s) : s.len = s.items.length := by
  obtain ⟨root, n, path⟩ := s
  cases root with
  | empty => rfl
  | leaf cols => exact (Columns.length_entries cols).symm
  | tree top => exact h.pop

theorem inv_flushPath (h : Inv fl lo s) : Inv fl lo s.flushPath ∧ s.flushPath.items = s.items := by
  obtain ⟨root, n, path⟩ := s
  cases root with
  | empty => exact ⟨h, rfl⟩
  | leaf cols => exact ⟨h, rfl⟩
  | tree top =>
    rw [TreeInv.flushPath_eq h]
    exact ⟨TreeInv.flush h, TreeInv.entries_settled h⟩

theorem inv_clearPath (h : Inv fl lo s) : Inv fl lo s.clearPath ∧ s.clearPath.items = s.items := by
  obtain ⟨root, n, path⟩ := s
  cases root with
  | empty => exact ⟨rfl, rfl⟩
  | leaf cols => exact ⟨⟨h.packed, h.one_le, h.le_cap, rfl⟩, rfl⟩
  | tree top =>
    rw [TreeInv.clearPath_eq h]
    exact ⟨TreeInv.clear h, TreeInv.entries_settled h⟩

theorem inv_clear : Inv fl lo s.clear ∧ s.clear.items = [] := ⟨rfl, rfl⟩

theorem admitsNarrow_zero : AdmitsNarrow fl fun _ _ => 0 := fun _ _ _ _ _ => Nat.zero_le _

theorem collect_eq (h : Shape fl lo 8 top) {m k : ℕ} (hk : k < 2 ^ 64)
    (hm : ((entries 8 top).filter fun e => k ≤ e.1).length < m) :
    collect top m k = (entries 8 top).filter fun e => k ≤ e.1 := by
  induction m generalizing k with
  | zero => omega
  | succ m ih =>
    rw [collect, next_eq h.readable (lt_of_lt_of_eq hk (by norm_num)) (show 8 ≤ FUEL by decide) (by decide)]
    cases hf : (entries 8 top).find? fun e => k ≤ e.1 with
    | none =>
      rw [List.find?_eq_none] at hf
      exact (List.filter_eq_nil_iff.mpr hf).symm
    | some p =>
      obtain ⟨x, w⟩ := p
      rw [h.sorted.filter_from hf] at hm ⊢
      rw [List.length_cons] at hm
      simp only [List.cons.injEq, true_and]
      split_ifs with hx
      · exact ih hx (by omega)
      -- no key lies beyond the largest word
      · symm
        rw [List.filter_eq_nil_iff]
        rintro ⟨y, u⟩ hy
        have := h.bound hy
        norm_num at this hx ⊢
        omega

/-- The contract of a removal. -/
structure Removes (fl : Flavour) (lo : ℕ → ℕ → ℕ) (s : Store V) (key : ℕ) (out : Option V)
    (s' : Store V) : Prop where
  inv : Inv fl lo s'
  old : ∀ v, out = some v ↔ (key, v) ∈ s.items
  content : Erased key s.items s'.items
  cold : s'.path = none

theorem Removes.absent {s' : Store V} (h : Inv fl lo s') (hi : s'.items = s.items)
    (hp : s'.path = none) (hn : ∀ v, (key, v) ∉ s.items) : Removes fl lo s key none s' := by
  refine ⟨h, fun v => ⟨(by simp), fun hm => absurd hm (hn v)⟩, ?_, hp⟩
  intro x w
  rw [hi]
  constructor
  · intro hm
    refine ⟨?_, hm⟩
    rintro rfl
    exact hn w hm
  · exact fun hm => hm.2

theorem condense_spec (h : WF fl lo 8 top) (hn : n = (entries 8 top).length) (h1 : 1 ≤ n)
    (hlt : n < ROOT_LEAF_CAP) :
    Inv fl lo (⟨.tree top, n, none⟩ : Store V).condense ∧
      (⟨.tree top, n, none⟩ : Store V).condense.items = entries 8 top ∧
      (⟨.tree top, n, none⟩ : Store V).condense.path = none := by
  have hall : ((entries 8 top).filter fun e => 0 ≤ e.1) = entries 8 top := by
    rw [List.filter_eq_self]
    simp
  have hc : collect top (n + 1) 0 = entries 8 top := by
    rw [collect_eq h.1 (by norm_num) (by rw [hall]; omega), hall]
  have he : (⟨.tree top, n, none⟩ : Store V).condense =
      ⟨.leaf (Columns.ofEntries (entries 8 top)), n, none⟩ := by
    rw [condense]
    simp only [clearPath, flushPath, hc]
  rw [he]
  have hsz : (Columns.ofEntries (entries 8 top)).size = n := by
    rw [← Columns.length_entries, Columns.entries_ofEntries, hn]
  refine ⟨⟨Columns.Packed.ofEntries h.1.sorted fun k v hm => h.1.bound hm, ?_, ?_, rfl⟩, ?_, rfl⟩
  · omega
  · omega
  · exact Columns.entries_ofEntries _

theorem removeInner_spec (h : Inv fl lo s) (hk : key < 256 ^ 8) (ha : AdmitsNarrow fl lo) :
    ∃ out s', removeInner fl s key = .ok (out, s') ∧ Removes fl lo s key out s' := by
  obtain ⟨hinv, hitems⟩ := inv_clearPath h
  have hcold : s.clearPath.path = none := rfl
  rw [removeInner]
  generalize hc : s.clearPath = c at hinv hitems hcold ⊢
  obtain ⟨root, n, path⟩ := c
  cases hcold
  cases root with
  | empty =>
    refine ⟨none, _, rfl, .absent hinv hitems rfl ?_⟩
    intro v hm
    rw [← hitems] at hm
    cases hm
  | leaf cols =>
    have hp := hinv.packed
    simp only
    cases hl : locate cols.keys key with
    | error pos =>
      obtain ⟨hn, -⟩ := locate_error hp.sorted hl
      refine ⟨none, _, rfl, .absent hinv hitems rfl ?_⟩
      intro v hm
      rw [← hitems] at hm
      exact hn (Columns.mem_keys hm)
    | ok pos =>
      have hat := locate_ok hl
      obtain ⟨old, hv, hent⟩ := Columns.exists_val hat
      have her := Columns.erased_removeAt hp hat
      have hsz : (cols.removeAt pos).size + 1 = cols.size := by
        rw [← Columns.length_entries, ← Columns.length_entries]
        refine her.length hp.keySorted (hp.removeAt pos).keySorted ?_
        rw [Columns.map_fst_entries]
        exact List.mem_of_getElem? hat
      have hold : ∀ v, some (cols.vals[pos]?.getD default) = some v ↔ (key, v) ∈ s.items := by
        intro v
        rw [hv, Option.getD_some, Option.some.injEq, ← hitems]
        constructor
        · rintro rfl
          exact List.mem_of_getElem? hent
        · exact fun hm => hp.keySorted.value_unique (List.mem_of_getElem? hent) hm
      simp only
      split_ifs with h1
      · refine ⟨_, _, rfl, rfl, hold, ?_, rfl⟩
        have hnil : (cols.removeAt pos).entries = [] := by
          rw [← List.length_eq_zero_iff, Columns.length_entries]
          omega
        rw [← hitems]
        rw [hnil] at her
        exact her
      · refine ⟨_, _, rfl, ⟨hp.removeAt pos, ?_, ?_, rfl⟩, hold, ?_, rfl⟩
        · have := hinv.one_le
          omega
        · have := hinv.le_cap
          omega
        · rw [← hitems]
          exact her
  | tree top =>
    have hw : WF fl lo 8 top := hinv.wf
    have hpop : n = (entries 8 top).length := hinv.pop
    have hlarge : ROOT_LEAF_CAP ≤ (entries 8 top).length := hinv.large
    have hitems' : s.items = entries 8 top := hitems.symm
    obtain ⟨out, hr, hsp⟩ := removeFlat_spec key hw (by decide) ha
      (show 8 + 1 ≤ FUEL by decide)
    simp only [hr]
    cases out with
    | none =>
      refine ⟨none, _, rfl, .absent hinv hitems rfl ?_⟩
      intro v hm
      rw [hitems'] at hm
      rw [RemoveSpec, low_of_lt hk] at hsp
      exact hsp v hm
    | some p =>
      obtain ⟨old, top'⟩ := p
      obtain ⟨hmem, hw', her⟩ := hsp
      rw [low_of_lt hk] at hmem her
      have hlen := her.length hw.1.sorted hw'.1.sorted (List.mem_map_of_mem (f := Prod.fst) hmem)
      have hold : ∀ v, some old = some v ↔ (key, v) ∈ s.items := by
        intro v
        rw [hitems', Option.some.injEq]
        constructor
        · rintro rfl
          exact hmem
        · exact fun hm => hw.1.sorted.value_unique hmem hm
      simp only [ROOT_LEAF_CAP] at hlarge
      simp only
      rw [if_neg (by omega)]
      split_ifs with hlt
      · obtain ⟨hi, hit, hpath⟩ := condense_spec (n := n - 1) hw' (by omega) (by omega) hlt
        refine ⟨_, _, rfl, hi, hold, ?_, hpath⟩
        rw [hit, hitems']
        exact her
      · have hge : ROOT_LEAF_CAP ≤ n - 1 := Nat.le_of_not_lt hlt
        refine ⟨_, _, rfl, TreeInv.of_wf hw' ?_ ?_ (by simp) (by simp), hold, ?_, rfl⟩
        · show n - 1 = _
          omega
        · omega
        rw [hitems']
        exact her

end Expanse.Store
