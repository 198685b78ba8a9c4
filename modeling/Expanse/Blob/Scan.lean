import Mathlib
import Expanse.Blob.RoundTrip

/-!
# Filtered range scans

`scanFiltered` walks a range of the index, asks a predicate about each key and its
metadata, and hands the payload of the matches to a callback until the callback stops it.
It decodes the slot words itself. The entries it visits are those `get` shows.
-/

namespace Expanse.Blob

open SortedAssoc ValueSlot Runs Bytes Arrays

variable {σ α : Type}

namespace BlobMap

/-- The payload of the slot word under the scan; nothing stands for a word that is skipped. -/
def scanView (a : BlobArena) (raw : ℕ) : Option BlobView :=
  let leBytes := le 8 raw
  match tag raw with
  | .inline len => some (.inline (slice leBytes 1 len))
  | .arenaMeta => (a.resolveMeta (arenaMetaLocator raw)).map .arena
  | t => if t.isCompressedInline then (Codec.decompressInline raw).map .compressedInline else none

/-- The loop of `scan_filtered`. Predicate and callback may keep a state of their own. -/
def scanLoop (a : BlobArena) (predicate : Key → ℕ → σ → Bool × σ)
    (callback : Key → BlobView → ℕ → σ → Bool × σ) :
    List (ℕ × ℕ) → σ → σ
  | [], s => s
  | (k, raw) :: rest, s =>
    let key := Fin.ofNat (2 ^ 64) k
    let hotMeta := if tag raw = .arenaMeta then arenaMetaMeta raw else 0
    let (wanted, s) := predicate key hotMeta s
    if !wanted then scanLoop a predicate callback rest s
    else
      match scanView a raw with
      | none => scanLoop a predicate callback rest s
      | some v =>
        let (more, s) := callback key v hotMeta s
        if !more then s else scanLoop a predicate callback rest s

def scanFiltered (m : BlobMap) (lo hi : Key) (predicate : Key → ℕ → σ → Bool × σ)
    (callback : Key → BlobView → ℕ → σ → Bool × σ) (s : σ) : σ :=
  scanLoop m.arena predicate callback (m.index.filter fun e => lo.val ≤ e.1 ∧ e.1 ≤ hi.val) s

end BlobMap

/-- An entry that a scan visits. -/
abbrev Found : Type := Key × BlobView × ℕ

/-- Ask the predicate about each entry, and call the callback on the matches until it answers `false`. -/
def visit (predicate : Key → ℕ → σ → Bool × σ) (callback : Key → BlobView → ℕ → σ → Bool × σ) :
    List Found → σ → σ
  | [], s => s
  | (key, v, n) :: rest, s =>
    let asked := predicate key n s
    if asked.1 = true then
      let called := callback key v n asked.2
      if called.1 = true then visit predicate callback rest called.2 else called.2
    else visit predicate callback rest asked.2

namespace BlobMap

variable {m : BlobMap} {lo hi : Key}

/-- The two decoders of a slot word agree. -/
theorem view_eq (a : BlobArena) (raw : ℕ) :
    view a raw = (scanView a raw).map fun v => (v, slotMeta raw) := by
  rw [view, scanView, slotMeta]
  cases tag raw with
  | inline len => rfl
  | arenaMeta =>
    cases a.resolveMeta (arenaMetaLocator raw) with
    | none => rfl
    | some d => rfl
  | external => rfl
  | rawWord => rfl
  | compressedZeroTrim8 => simp [SlotTag.isCompressedInline, Function.comp_def]
  | compressedAlnum8 => simp [SlotTag.isCompressedInline, Function.comp_def]
  | compressedAlnum9 => simp [SlotTag.isCompressedInline, Function.comp_def]
  | compressedNibble more => simp [SlotTag.isCompressedInline, Function.comp_def]

def foundIn (a : BlobArena) (index : List (ℕ × ℕ)) : List Found :=
  index.filterMap fun e => (view a e.2).map fun v => (Fin.ofNat (2 ^ 64) e.1, v)

theorem scanLoop_eq (a : BlobArena) (predicate : Key → ℕ → σ → Bool × σ)
    (callback : Key → BlobView → ℕ → σ → Bool × σ) {index : List (ℕ × ℕ)}
    (hshown : ∀ e ∈ index, (view a e.2).isSome) (s : σ) :
    scanLoop a predicate callback index s = visit predicate callback (foundIn a index) s := by
  induction index generalizing s with
  | nil => rfl
  | cons e index ih =>
    obtain ⟨k, raw⟩ := e
    have ih := ih fun x hx => hshown x (List.mem_cons_of_mem _ hx)
    have hsome : (view a raw).isSome := hshown (k, raw) List.mem_cons_self
    obtain ⟨v, hv⟩ : ∃ v, scanView a raw = some v := by
      rw [view_eq, Option.isSome_map] at hsome
      exact Option.isSome_iff_exists.mp hsome
    have hcons : foundIn a ((k, raw) :: index) = (Fin.ofNat (2 ^ 64) k, v, slotMeta raw) :: foundIn a index := by
      rw [foundIn, List.filterMap_cons_some]
      · rfl
      · rw [view_eq, hv]
        rfl
    have hmeta : (if tag raw = .arenaMeta then arenaMetaMeta raw else 0) = slotMeta raw := rfl
    rw [hcons, scanLoop, visit, hv, hmeta]
    dsimp only
    obtain ⟨wanted, s'⟩ := predicate (Fin.ofNat (2 ^ 64) k) (slotMeta raw) s
    cases wanted with
    | false => exact ih s'
    | true =>
      dsimp only
      obtain ⟨more, s''⟩ := callback (Fin.ofNat (2 ^ 64) k) v (slotMeta raw) s'
      cases more with
      | false => rfl
      | true => exact ih s''

/-- The entries `get` shows in a range, in ascending order. -/
structure Ranges (m : BlobMap) (lo hi : Key) (found : List Found) : Prop where
  ascending : (found.map Prod.fst).Pairwise (· < ·)
  mem_iff : ∀ key v n, (key, v, n) ∈ found ↔ lo ≤ key ∧ key ≤ hi ∧ m.getView key = some (v, n)
  meta_zero : ∀ key v n, (key, v, n) ∈ found → (∀ bytes, v ≠ .arena bytes) → n = 0

theorem meta_of_view {a : BlobArena} {raw n : ℕ} {v : BlobView} (h : view a raw = some (v, n))
    (hv : ∀ bytes, v ≠ .arena bytes) : n = 0 := by
  rw [view_eq] at h
  obtain ⟨w, hw, heq⟩ := Option.map_eq_some_iff.mp h
  obtain ⟨rfl, rfl⟩ := Prod.mk.inj heq
  rw [slotMeta, if_neg]
  intro ht
  rw [scanView, ht] at hw
  obtain ⟨d, -, hd⟩ := Option.map_eq_some_iff.mp hw
  exact hv d hd.symm

theorem ofNat_of_lt {k : ℕ} (h : k < 2 ^ 64) : Fin.ofNat (2 ^ 64) k = (⟨k, h⟩ : Key) :=
  Fin.ext (Nat.mod_eq_of_lt h)

theorem foundIn_ranges (hs : m.Sound) (lo hi : Key) :
    Ranges m lo hi (foundIn m.arena (m.index.filter fun e => lo.val ≤ e.1 ∧ e.1 ≤ hi.val)) := by
  have hmem : ∀ key v n, (key, v, n) ∈ foundIn m.arena (m.index.filter fun e => lo.val ≤ e.1 ∧ e.1 ≤ hi.val) ↔
      lo ≤ key ∧ key ≤ hi ∧ m.getView key = some (v, n) := by
    intro key v n
    rw [foundIn, List.mem_filterMap, getView]
    constructor
    · rintro ⟨e, he, hv⟩
      obtain ⟨hin, hrange⟩ := List.mem_filter.mp he
      rw [decide_eq_true_iff] at hrange
      obtain ⟨w, hw, heq⟩ := Option.map_eq_some_iff.mp hv
      rw [ofNat_of_lt (hs.backed.key_lt e hin)] at heq
      obtain ⟨rfl, rfl⟩ := Prod.mk.inj heq
      refine ⟨hrange.1, hrange.2, ?_⟩
      show (m.index.lookup e.1).bind (view m.arena) = _
      rw [lookup_of_mem hs.backed.sorted hin, Option.bind_some, hw]
    · rintro ⟨hlo, hhi, hv⟩
      obtain ⟨raw, hl, hw⟩ := Option.bind_eq_some_iff.mp hv
      refine ⟨(key.val, raw), List.mem_filter.mpr ⟨(lookup_eq_some_iff hs.backed.sorted).mp hl, ?_⟩, ?_⟩
      · exact decide_eq_true ⟨hlo, hhi⟩
      · rw [hw, Option.map_some, ofNat_of_lt key.isLt]
  refine ⟨?_, hmem, fun key v n hin hv => ?_⟩
  · rw [List.pairwise_map, foundIn, List.pairwise_filterMap]
    refine ((hs.backed.sorted).filter _).imp_of_mem ?_
    intro e e' he he' hlt x hx y hy
    obtain ⟨w, -, rfl⟩ := Option.map_eq_some_iff.mp hx
    obtain ⟨w', -, rfl⟩ := Option.map_eq_some_iff.mp hy
    show Fin.ofNat (2 ^ 64) e.1 < Fin.ofNat (2 ^ 64) e'.1
    rw [ofNat_of_lt (hs.backed.key_lt e (List.mem_of_mem_filter he)),
      ofNat_of_lt (hs.backed.key_lt e' (List.mem_of_mem_filter he'))]
    exact hlt
  · obtain ⟨-, -, hget⟩ := (hmem key v n).mp hin
    obtain ⟨raw, -, hw⟩ := Option.bind_eq_some_iff.mp hget
    exact meta_of_view hw hv

theorem scanFiltered_eq (hs : m.Sound) (lo hi : Key) (predicate : Key → ℕ → σ → Bool × σ)
    (callback : Key → BlobView → ℕ → σ → Bool × σ) (s : σ) :
    m.scanFiltered lo hi predicate callback s =
      visit predicate callback (foundIn m.arena (m.index.filter fun e => lo.val ≤ e.1 ∧ e.1 ≤ hi.val)) s := by
  refine scanLoop_eq _ _ _ (fun e he => ?_) s
  have hsome := hs.backed.shown e (List.mem_of_mem_filter he)
  rw [value, Option.isSome_map] at hsome
  exact hsome

end BlobMap

end Expanse.Blob
