import Expanse.Library.SortedAssoc

/-!
# Parallel key and value arrays

A packed leaf keeps its keys and its values in two arrays that every edit moves
in step. The equal lengths are a field, so an edit that moved one array only
could not be written; the lemmas read each edit on the zipped entries.
-/

namespace Expanse

open SortedAssoc

variable {α : Type*}

/-- Keys and values in step. -/
structure Columns (α : Type*) where
  keys : List ℕ
  vals : List α
  same : keys.length = vals.length

namespace Columns

def entries (c : Columns α) : List (ℕ × α) := c.keys.zip c.vals

def size (c : Columns α) : ℕ := c.keys.length

def empty : Columns α := ⟨[], [], rfl⟩

def single (k : ℕ) (v : α) : Columns α := ⟨[k], [v], rfl⟩

def insertAt (c : Columns α) (i k : ℕ) (v : α) : Columns α where
  keys := c.keys.insertIdx i k
  vals := c.vals.insertIdx i v
  same := by rw [List.length_insertIdx, List.length_insertIdx, c.same]

def removeAt (c : Columns α) (i : ℕ) : Columns α where
  keys := c.keys.eraseIdx i
  vals := c.vals.eraseIdx i
  same := by rw [List.length_eraseIdx, List.length_eraseIdx, c.same]

def setVal (c : Columns α) (i : ℕ) (v : α) : Columns α where
  keys := c.keys
  vals := c.vals.set i v
  same := by rw [List.length_set, c.same]

/-- The value stored beside the first key equal to `k`. -/
def find (c : Columns α) (k : ℕ) : Option α := (indexOf? c.keys k).bind (c.vals[·]?)

def ofEntries (l : List (ℕ × α)) : Columns α where
  keys := l.map Prod.fst
  vals := l.map Prod.snd
  same := by simp

@[simp] theorem entries_ofEntries (l : List (ℕ × α)) : (ofEntries l).entries = l := by
  exact zip_fst_snd l

@[simp] theorem entries_single (k : ℕ) (v : α) : (single k v).entries = [(k, v)] := rfl

@[simp] theorem map_fst_entries (c : Columns α) : c.entries.map Prod.fst = c.keys := by
  rw [entries, List.map_fst_zip (le_of_eq c.same)]

@[simp] theorem length_entries (c : Columns α) : c.entries.length = c.size := by
  rw [← List.length_map (f := Prod.fst), map_fst_entries, size]

@[simp] theorem entries_insertAt (c : Columns α) (i k : ℕ) (v : α) :
    (c.insertAt i k v).entries = c.entries.insertIdx i (k, v) :=
  zip_insertIdx c.same i k v

@[simp] theorem entries_removeAt (c : Columns α) (i : ℕ) :
    (c.removeAt i).entries = c.entries.eraseIdx i := zip_eraseIdx _ _ i

theorem entries_setVal {c : Columns α} {i k : ℕ} (hk : c.keys[i]? = some k) (v : α) :
    (c.setVal i v).entries = c.entries.set i (k, v) := zip_set hk v

/-- Keys ascend strictly and fit in `kb` bytes. -/
structure Packed (kb : ℕ) (c : Columns α) : Prop where
  sorted : c.keys.Pairwise (· < ·)
  bound : ∀ k ∈ c.keys, k < 256 ^ kb

theorem packed_single {kb k : ℕ} (hk : k < 256 ^ kb) (v : α) : (single k v).Packed kb :=
  ⟨by simp [single], by simpa [single] using hk⟩

theorem Packed.keySorted {kb : ℕ} {c : Columns α} (h : c.Packed kb) : KeySorted c.entries := by
  rw [keySorted_iff, map_fst_entries]
  exact h.sorted

theorem Packed.find_iff {kb : ℕ} {c : Columns α} (h : c.Packed kb) {k : ℕ} {v : α} :
    c.find k = some v ↔ (k, v) ∈ c.entries := bind_indexOf?_iff h.sorted

theorem mem_keys {c : Columns α} {k : ℕ} {v : α} (h : (k, v) ∈ c.entries) : k ∈ c.keys := by
  rw [← map_fst_entries]
  exact List.mem_map_of_mem (f := Prod.fst) h

theorem Packed.ofEntries {kb : ℕ} {l : List (ℕ × α)} (hs : KeySorted l)
    (hb : ∀ k v, (k, v) ∈ l → k < 256 ^ kb) : (Columns.ofEntries l).Packed kb where
  sorted := keySorted_iff.mp hs
  bound := by
    intro k hk
    obtain ⟨⟨k', v⟩, hm, rfl⟩ := List.mem_map.mp hk
    exact hb k' v hm

theorem exists_val {c : Columns α} {i k : ℕ} (hk : c.keys[i]? = some k) :
    ∃ v, c.vals[i]? = some v ∧ c.entries[i]? = some (k, v) := by
  have hlt : i < c.vals.length := by
    rw [← c.same]
    exact (List.getElem?_eq_some_iff.mp hk).1
  refine ⟨c.vals[i], List.getElem?_eq_getElem hlt, ?_⟩
  rw [entries, List.getElem?_zip_eq_some]
  exact ⟨hk, List.getElem?_eq_getElem hlt⟩

theorem getElem?_entries {c : Columns α} {i k : ℕ} {v : α} (hk : c.keys[i]? = some k)
    (hv : c.vals[i]? = some v) : c.entries[i]? = some (k, v) := by
  rw [entries, List.getElem?_zip_eq_some]
  exact ⟨hk, hv⟩

theorem getElem?_keys {c : Columns α} {i k : ℕ} {v : α} (h : c.entries[i]? = some (k, v)) :
    c.keys[i]? = some k := (List.getElem?_zip_eq_some.mp h).1

section Edits

variable {kb : ℕ} {c : Columns α} {k : ℕ}

theorem Packed.insertAt (h : c.Packed kb) (hk : k < 256 ^ kb) (hn : k ∉ c.keys) (v : α) :
    (c.insertAt (lowerBound c.keys k) k v).Packed kb where
  sorted := pairwise_insert h.sorted hn
  bound := by
    intro x hx
    rcases (List.mem_insertIdx (lowerBound_le _ _)).mp hx with rfl | hx
    · exact hk
    · exact h.bound x hx

theorem updated_insertAt (hn : k ∉ c.keys) (v : α) :
    Updated k v c.entries (c.insertAt (lowerBound c.keys k) k v).entries := by
  rw [entries_insertAt]
  apply updated_insertIdx
  · rw [length_entries]
    exact lowerBound_le _ _
  · rwa [map_fst_entries]

theorem size_insertAt (v : α) : (c.insertAt (lowerBound c.keys k) k v).size = c.size + 1 := by
  rw [size, insertAt, List.length_insertIdx_of_le_length (lowerBound_le _ _), size]

theorem Packed.setVal (h : c.Packed kb) (i : ℕ) (v : α) : (c.setVal i v).Packed kb :=
  ⟨h.sorted, h.bound⟩

theorem updated_setVal (h : c.Packed kb) {i : ℕ} (hi : c.keys[i]? = some k) (v : α) :
    Updated k v c.entries (c.setVal i v).entries := by
  obtain ⟨w, _, hw⟩ := exists_val hi
  rw [entries_setVal hi]
  exact updated_set h.keySorted hw

theorem Packed.removeAt (h : c.Packed kb) (i : ℕ) : (c.removeAt i).Packed kb where
  sorted := h.sorted.sublist (List.eraseIdx_sublist _ _)
  bound := fun x hx => h.bound x (List.mem_of_mem_eraseIdx hx)

theorem erased_removeAt (h : c.Packed kb) {i : ℕ} (hi : c.keys[i]? = some k) :
    Erased k c.entries (c.removeAt i).entries := by
  obtain ⟨w, _, hw⟩ := exists_val hi
  rw [entries_removeAt]
  exact erased_eraseIdx h.keySorted hw

theorem size_removeAt {i : ℕ} (hi : c.keys[i]? = some k) : (c.removeAt i).size + 1 = c.size := by
  have hlt := (List.getElem?_eq_some_iff.mp hi).1
  rw [size, removeAt, List.length_eraseIdx_of_lt hlt, size]
  omega

end Edits

end Columns

end Expanse
