import Expanse.StrMap.Node

/-!
# The trie a heap of shells and suffixes stands for

`Item` is what a chunk of a level leads to, with the address of each block. `Node` says
that the blocks of a heap below an address are exactly such a trie: every block is live
under its own address, the word map of each shell lists the chunks of its level, and no
address occurs twice. `entries` is the content of a level in chunk order.
-/

namespace Expanse.StrMap

open SortedAssoc BigEndian

/-- What one chunk of a level maps to. -/
inductive Item where
  | value (v : ℕ)
  | suffix (p : ℕ) (bytes : List ℕ) (v : ℕ)
  | child (p : ℕ) (kids : List (ℕ × Item))

/-- A trie level: its chunks in ascending order. -/
abbrev Kids : Type := List (ℕ × Item)

namespace Item

/-- The word a level's map stores for the item. -/
def word : Item → ℕ
  | value v => v
  | suffix p _ _ => packSuffix p
  | child p _ => packChild p

end Item

def words (kids : Kids) : List (ℕ × ℕ) := kids.map fun e => (e.1, e.2.word)

def termBytes (chunk : ℕ) : List ℕ := pushTerminal [] chunk

def underChunk (chunk : ℕ) (e : List ℕ × ℕ) : List ℕ × ℕ := (beBytes chunk ++ e.1, e.2)

mutual

def Item.addrs : Item → List ℕ
  | .value _ => []
  | .suffix p _ _ => [p]
  | .child p kids => p :: addrs kids

def addrs : Kids → List ℕ
  | [] => []
  | (_, x) :: kids => x.addrs ++ addrs kids

end

mutual

/-- The keys below a chunk, from that chunk on, with their values. -/
def Item.entries (chunk : ℕ) : Item → List (List ℕ × ℕ)
  | .value v => [(termBytes chunk, v)]
  | .suffix _ bytes v => [(beBytes chunk ++ bytes, v)]
  | .child _ kids => (entries kids).map (underChunk chunk)

def entries : Kids → List (List ℕ × ℕ)
  | [] => []
  | (c, x) :: kids => x.entries c ++ entries kids

end

def FullChunk (chunk : ℕ) : Prop := chunk < WORD ∧ ¬ HasZero CHUNK chunk

/-- The zero-padded chunk of a key that ends inside it. -/
def LastChunk (chunk : ℕ) : Prop :=
  ∃ s, NulFree s ∧ s.length < CHUNK ∧ chunk = pack CHUNK s

mutual

/-- Terminal chunks hold values, full chunks lead on, and no level below is empty. -/
def Item.Wf (chunk : ℕ) : Item → Prop
  | .value _ => LastChunk chunk
  | .suffix _ bytes _ => FullChunk chunk ∧ NulFree bytes
  | .child _ kids => FullChunk chunk ∧ kids ≠ [] ∧ Wf kids

def Wf : Kids → Prop
  | [] => True
  | (c, x) :: kids => x.Wf c ∧ (∀ e ∈ kids, c < e.1) ∧ Wf kids

end

section Held

variable {M : WordMap} (C : M.Correct) (a : NodeAlloc M)

/-- The block at `p` is a shell whose word map lists `kids`. -/
def Shell (p : ℕ) (kids : Kids) : Prop :=
  ∃ m, a.cells.lookup p = some (.shell m) ∧ C.Ok m ∧ C.entries m = words kids

mutual

/-- The blocks of the item are live in the heap, with the item's contents. -/
def Item.Held : Item → Prop
  | .value _ => True
  | .suffix p bytes v => a.cells.lookup p = some (.suffix bytes v)
  | .child p kids => Shell C a p kids ∧ Held kids

def Held : Kids → Prop
  | [] => True
  | (_, x) :: kids => x.Held ∧ Held kids

end

/-- The heap below `p` is the trie level `kids`. -/
structure Node (p : ℕ) (kids : Kids) : Prop where
  shell : Shell C a p kids
  held : Held C a kids
  nodup : (p :: addrs kids).Nodup
  wf : Wf kids

end Held

variable {M : WordMap} {C : M.Correct} {a a' : NodeAlloc M} {kids l₁ l₂ : Kids} {c p : ℕ} {x : Item}
  {key : List ℕ} {v : ℕ}

theorem addrs_eq (kids : Kids) : addrs kids = kids.flatMap fun e => e.2.addrs := by
  induction kids with
  | nil => rw [addrs, List.flatMap_nil]
  | cons e kids ih => rw [addrs, ih, List.flatMap_cons]

theorem entries_eq (kids : Kids) : entries kids = kids.flatMap fun e => e.2.entries e.1 := by
  induction kids with
  | nil => rw [entries, List.flatMap_nil]
  | cons e kids ih => rw [entries, ih, List.flatMap_cons]

theorem wf_iff : Wf kids ↔ KeySorted kids ∧ ∀ e ∈ kids, e.2.Wf e.1 := by
  induction kids with
  | nil => simp [Wf, KeySorted]
  | cons e kids ih =>
    have hcons : KeySorted (e :: kids) ↔ (∀ f ∈ kids, e.1 < f.1) ∧ KeySorted kids :=
      List.pairwise_cons
    rw [Wf, ih, hcons, List.forall_mem_cons]
    tauto

theorem held_iff : Held C a kids ↔ ∀ e ∈ kids, e.2.Held C a := by
  induction kids with
  | nil => simp [Held]
  | cons e kids ih => rw [Held, ih, List.forall_mem_cons]

theorem addrs_append : addrs (l₁ ++ l₂) = addrs l₁ ++ addrs l₂ := by
  simp only [addrs_eq, List.flatMap_append]

theorem entries_append : entries (l₁ ++ l₂) = entries l₁ ++ entries l₂ := by
  simp only [entries_eq, List.flatMap_append]

theorem addrs_cut : addrs (l₁ ++ (c, x) :: l₂) = addrs l₁ ++ (x.addrs ++ addrs l₂) := by
  rw [addrs_append, addrs]

theorem entries_cut : entries (l₁ ++ (c, x) :: l₂) = entries l₁ ++ (x.entries c ++ entries l₂) := by
  rw [entries_append, entries]

theorem words_append : words (l₁ ++ l₂) = words l₁ ++ words l₂ := List.map_append

theorem words_cut : words (l₁ ++ (c, x) :: l₂) = words l₁ ++ (c, x.word) :: words l₂ := by
  rw [words_append]
  rfl

theorem Wf.sorted (h : Wf kids) : KeySorted kids := (wf_iff.mp h).1

theorem mem_words {w : ℕ} : (c, w) ∈ words kids ↔ ∃ x, (c, x) ∈ kids ∧ x.word = w := by
  simp only [words, List.mem_map, Prod.mk.injEq]
  constructor
  · rintro ⟨⟨c', x⟩, hm, rfl, rfl⟩
    exact ⟨x, hm, rfl⟩
  · rintro ⟨x, hm, rfl⟩
    exact ⟨(c, x), hm, rfl, rfl⟩

theorem keySorted_words (h : KeySorted kids) : KeySorted (words kids) := by
  rw [KeySorted, words, List.pairwise_map]
  exact h

theorem cutAt_words (h : CutAt c l₁ l₂) : CutAt c (words l₁) (words l₂) := by
  constructor
  · intro e he
    obtain ⟨e, hm, rfl⟩ := List.mem_map.mp he
    exact h.below e hm
  · intro e he
    obtain ⟨e, hm, rfl⟩ := List.mem_map.mp he
    exact h.above e hm

theorem pack_lt_word (h : NulFree key) : pack CHUNK key < WORD := pack_lt h

theorem isTerminal_iff (hc : c < WORD) : isTerminal c = true ↔ HasZero CHUNK c := by
  rw [isTerminal, bne_iff_ne]
  exact swar_iff hc

/-- A chunk read off a key is terminal by its content exactly when the key ends in it. -/
theorem isTerminal_chunkAt (h : NulFree key) (off : ℕ) :
    isTerminal (chunkAt key off).1 = (chunkAt key off).2 := by
  have hlt : (chunkAt key off).1 < WORD := pack_lt_word (h.drop off)
  rw [Bool.eq_iff_iff, isTerminal_iff hlt, chunkAt, decide_eq_true_iff]
  exact hasZero_pack (h.drop off)

theorem termBytes_pack {s : List ℕ} (h : NulFree s) (hlt : s.length < CHUNK) :
    termBytes (pack CHUNK s) = s := by
  unfold termBytes pushTerminal
  rw [List.nil_append, List.length_nil, Nat.zero_add]
  exact take_unpack_pack h hlt

theorem pushTerminal_eq (out : List ℕ) (h : LastChunk c) : pushTerminal out c = out ++ termBytes c := by
  unfold termBytes pushTerminal
  rw [List.nil_append, List.length_nil, Nat.zero_add, List.take_append]
  obtain ⟨s, hs, hlt, rfl⟩ := h
  have hle : trailingZeros (8 * CHUNK) (pack CHUNK s) / 8 ≤ CHUNK := by
    by_contra hgt
    have h0 := take_unpack_pack hs hlt
    rw [Nat.sub_eq_zero_of_le (by omega), List.take_zero] at h0
    subst h0
    revert hgt
    decide
  rw [List.take_of_length_le (by omega), Nat.add_sub_assoc hle, Nat.add_sub_cancel_left]

theorem LastChunk.isTerminal (h : LastChunk c) : isTerminal c = true := by
  obtain ⟨s, hs, hlt, rfl⟩ := h
  exact (isTerminal_iff (pack_lt_word hs)).mpr ((hasZero_pack hs).mpr hlt)

theorem LastChunk.lt_word (h : LastChunk c) : c < WORD := by
  obtain ⟨s, hs, -, rfl⟩ := h
  exact pack_lt_word hs

theorem FullChunk.not_isTerminal (h : FullChunk c) : isTerminal c = false := by
  rw [← Bool.not_eq_true, isTerminal_iff h.1]
  exact h.2

theorem FullChunk.nulFree (h : FullChunk c) : NulFree (beBytes c) := nulFree_unpack h.2

theorem FullChunk.pack_append (h : FullChunk c) (t : List ℕ) : pack CHUNK (beBytes c ++ t) = c :=
  pack_unpack h.1 t

theorem lastChunk_of_lt {s : List ℕ} (h : NulFree s) (hlt : s.length < CHUNK) :
    LastChunk (pack CHUNK s) := ⟨s, h, hlt, rfl⟩

theorem fullChunk_of_le {s : List ℕ} (h : NulFree s) (hle : CHUNK ≤ s.length) :
    FullChunk (pack CHUNK s) :=
  ⟨pack_lt_word h, fun hz => absurd ((hasZero_pack h).mp hz) (Nat.not_lt.mpr hle)⟩

@[simp] theorem length_beBytes : (beBytes c).length = CHUNK := length_unpack

theorem beBytes_append_drop {s : List ℕ} (h : NulFree s) (hle : CHUNK ≤ s.length) :
    beBytes (pack CHUNK s) ++ s.drop CHUNK = s := unpack_append_drop h hle

mutual

/-- The keys below a chunk are free of zero bytes and start with that chunk. -/
theorem Item.nulFree_of_mem (c : ℕ) (x : Item) (h : x.Wf c) {e : List ℕ × ℕ}
    (he : e ∈ x.entries c) : NulFree e.1 ∧ pack CHUNK e.1 = c := by
  cases x with
  | value v =>
    rw [Item.Wf] at h
    rw [Item.entries, List.mem_singleton] at he
    obtain ⟨s, hs, hlt, rfl⟩ := h
    subst he
    rw [termBytes_pack hs hlt]
    exact ⟨hs, rfl⟩
  | suffix p bytes v =>
    rw [Item.Wf] at h
    rw [Item.entries, List.mem_singleton] at he
    subst he
    exact ⟨h.1.nulFree.append h.2, h.1.pack_append bytes⟩
  | child p kids =>
    rw [Item.Wf] at h
    rw [Item.entries, List.mem_map] at he
    obtain ⟨e, he, rfl⟩ := he
    exact ⟨h.1.nulFree.append (nulFree_of_mem kids h.2.2 he), h.1.pack_append e.1⟩

theorem nulFree_of_mem (kids : Kids) (h : Wf kids) {e : List ℕ × ℕ} (he : e ∈ entries kids) :
    NulFree e.1 := by
  cases kids with
  | nil => rw [entries] at he; exact absurd he List.not_mem_nil
  | cons k kids =>
    rw [Wf] at h
    rw [entries, List.mem_append] at he
    rcases he with he | he
    · exact (Item.nulFree_of_mem k.1 k.2 h.1 he).1
    · exact nulFree_of_mem kids h.2.2 he

end

mutual

/-- No chunk of a well-formed level leads nowhere. -/
theorem Item.entries_ne_nil (c : ℕ) (x : Item) (h : x.Wf c) : x.entries c ≠ [] := by
  cases x with
  | value v => rw [Item.entries]; simp
  | suffix p bytes v => rw [Item.entries]; simp
  | child p kids =>
    rw [Item.Wf] at h
    rw [Item.entries, Ne, List.map_eq_nil_iff]
    exact entries_ne_nil kids h.2.2 h.2.1

theorem entries_ne_nil (kids : Kids) (h : Wf kids) (hne : kids ≠ []) : entries kids ≠ [] := by
  cases kids with
  | nil => exact absurd rfl hne
  | cons k kids =>
    rw [Wf] at h
    rw [entries, Ne, List.append_eq_nil_iff]
    exact fun hnil => Item.entries_ne_nil k.1 k.2 h.1 hnil.1

end

theorem Item.pack_of_mem (h : x.Wf c) {e : List ℕ × ℕ} (he : e ∈ x.entries c) :
    pack CHUNK e.1 = c := (Item.nulFree_of_mem c x h he).2

/-- A key is bound in a level exactly where its chunk leads. -/
theorem mem_entries_iff (h : Wf kids) :
    (key, v) ∈ entries kids ↔
      ∃ x, (pack CHUNK key, x) ∈ kids ∧ (key, v) ∈ x.entries (pack CHUNK key) := by
  rw [entries_eq, List.mem_flatMap]
  constructor
  · rintro ⟨⟨c, x⟩, hm, he⟩
    have hc : pack CHUNK key = c := Item.pack_of_mem ((wf_iff.mp h).2 _ hm) he
    subst hc
    exact ⟨x, hm, he⟩
  · rintro ⟨x, hm, he⟩
    exact ⟨(pack CHUNK key, x), hm, he⟩

mutual

/-- The keys below a chunk ascend strictly. -/
theorem Item.entries_sorted (c : ℕ) (x : Item) (h : x.Wf c) :
    (x.entries c).Pairwise fun e f => e.1 < f.1 := by
  cases x with
  | value v => rw [Item.entries]; exact List.pairwise_singleton _ _
  | suffix p bytes v => rw [Item.entries]; exact List.pairwise_singleton _ _
  | child p kids =>
    rw [Item.Wf] at h
    rw [Item.entries, List.pairwise_map]
    refine (entries_sorted kids h.2.2).imp fun hlt => ?_
    exact (append_lt_append_iff _).mpr hlt

theorem entries_sorted (kids : Kids) (h : Wf kids) :
    (entries kids).Pairwise fun e f => e.1 < f.1 := by
  cases kids with
  | nil => rw [entries]; exact List.Pairwise.nil
  | cons k kids =>
    rw [Wf] at h
    rw [entries, List.pairwise_append]
    refine ⟨Item.entries_sorted k.1 k.2 h.1, entries_sorted kids h.2.2, fun e he f hf => ?_⟩
    obtain ⟨y, hy, hf'⟩ := (mem_entries_iff h.2.2).mp (show (f.1, f.2) ∈ entries kids from hf)
    have he' := Item.nulFree_of_mem k.1 k.2 h.1 he
    refine lt_of_pack_lt (n := CHUNK) he'.1 (nulFree_of_mem kids h.2.2 hf) ?_
    rw [he'.2]
    exact h.2.1 _ hy

end

end Expanse.StrMap
