import Expanse.BytesMap.Container
import Expanse.Library.Assoc

/-!
# The byte-string map answers as a partial map

`Rep` describes a state by a table: for each hash in use the address of its bucket and
the entries of that bucket, each with the box and the bytes of its key. The heaps hold
exactly the buckets and the keys of the table, so a box is owned by one bucket.
-/

namespace Expanse.BytesMap

open StrMap (WordMap WORD)
open SortedAssoc Runs

/-- One entry of a bucket: the box of its key, the bytes in it, and the value. -/
structure Item where
  box : ℕ
  key : List Byte
  val : ℕ

/-- A bucket in the table: its address and its entries. -/
structure Block where
  word : ℕ
  items : List Item

namespace Block

def bucket (B : Block) : Bucket := B.items.map fun i => (i.box, i.val)

def keyCells (B : Block) : List (ℕ × List Byte) := B.items.map fun i => (i.box, i.key)

def bindings (B : Block) : List (List Byte × ℕ) := B.items.map fun i => (i.key, i.val)

def find (B : Block) (key : List Byte) : Option ℕ := B.bindings.lookup key

def bytes (B : Block) : ℕ :=
  BUCKET_OVERHEAD + (B.items.map fun i => i.key.length + ENTRY_OVERHEAD).sum

variable {word : ℕ} {l₁ l₂ : List Item} {i : Item} {k : List Byte}

theorem fst_bindings (B : Block) : B.bindings.map Prod.fst = B.items.map Item.key := by
  simp [bindings]

theorem find_absent (h : k ∉ l₁.map Item.key) : find ⟨word, l₁⟩ k = none :=
  Assoc.lookup_absent (by rwa [fst_bindings])

theorem isSome_find {B : Block} : (B.find k).isSome ↔ k ∈ B.items.map Item.key := by
  rw [find, Assoc.isSome_lookup, fst_bindings]

/-- One entry of a bucket against all others; the address of the bucket does not matter. -/
theorem find_split (w : ℕ) (h : i.key ∉ l₁.map Item.key) :
    find ⟨word, l₁ ++ i :: l₂⟩ k = if k = i.key then some i.val else find ⟨w, l₁ ++ l₂⟩ k := by
  have h₁ : i.key ∉ (bindings ⟨w, l₁⟩).map Prod.fst := by rwa [fst_bindings]
  unfold find bindings at h₁ ⊢
  rw [List.map_append, List.map_cons, Assoc.lookup_middle h₁, ← List.map_append]

/-- A new entry goes behind the others. -/
theorem find_append (w : ℕ) (h : i.key ∉ l₁.map Item.key) :
    find ⟨word, l₁ ++ [i]⟩ k = if k = i.key then some i.val else find ⟨w, l₁⟩ k := by
  rw [find_split w h, List.append_nil]

end Block

abbrev Table : Type := List (ℕ × Block)

namespace Table

def bucketCells (T : Table) : Multiset (ℕ × Bucket) := T.map fun t => (t.2.word, t.2.bucket)

def keyCells (T : Table) : Multiset (ℕ × List Byte) := T.flatMap fun t => t.2.keyCells

def size (T : Table) : ℕ := (T.map fun t => t.2.items.length).sum

def bytes (T : Table) : ℕ := (T.map fun t => t.2.bytes).sum

variable (H : Hasher)

def view (T : Table) (key : List Byte) : Option ℕ :=
  (T.lookup (H.hashOne key)).bind fun B => B.find key

variable {T₁ T₂ : Table} {h : ℕ} {B : Block}

@[simp] theorem bucketCells_cut :
    bucketCells (T₁ ++ (h, B) :: T₂) = (B.word, B.bucket) ::ₘ bucketCells (T₁ ++ T₂) := by
  simp [bucketCells]

@[simp] theorem keyCells_cut :
    keyCells (T₁ ++ (h, B) :: T₂) = B.keyCells + keyCells (T₁ ++ T₂) := by
  simp only [keyCells, List.flatMap_append, List.flatMap_cons, ← Multiset.coe_add]
  abel

@[simp] theorem size_cut : size (T₁ ++ (h, B) :: T₂) = B.items.length + size (T₁ ++ T₂) := by
  simp [size]
  omega

@[simp] theorem bytes_cut : bytes (T₁ ++ (h, B) :: T₂) = B.bytes + bytes (T₁ ++ T₂) := by
  simp [bytes]
  omega

theorem view_absent {key : List Byte} (hs : KeySorted (T₁ ++ T₂)) (hcut : CutAt (H.hashOne key) T₁ T₂) :
    view H (T₁ ++ T₂) key = none := by
  rw [view, lookup_eq_none hs hcut.not_mem]
  rfl

theorem lookup_cut_ne {k : ℕ} (hk : k ≠ h) : (T₁ ++ (h, B) :: T₂).lookup k = (T₁ ++ T₂).lookup k := by
  induction T₁ with
  | nil => rw [List.nil_append, List.lookup_cons, beq_false_of_ne hk, List.nil_append]
  | cons t T₁ ih => rw [List.cons_append, List.cons_append, List.lookup_cons, List.lookup_cons, ih]

theorem view_cut (hs : KeySorted (T₁ ++ (h, B) :: T₂)) (key : List Byte) :
    view H (T₁ ++ (h, B) :: T₂) key =
      if H.hashOne key = h then B.find key else view H (T₁ ++ T₂) key := by
  split_ifs with hk
  · rw [view, hk, lookup_cut hs]
    rfl
  · rw [view, view, lookup_cut_ne hk]

end Table

section

variable {M : WordMap} {C : M.Correct} {H : Hasher} {P : Placing}

/-- The entries of a bucket have the bucket's hash and different keys. -/
structure Block.Valid (H : Hasher) (h : ℕ) (B : Block) : Prop where
  word : B.word ≠ 0
  ne_nil : B.items ≠ []
  hash : ∀ i ∈ B.items, H.hashOne i.key = h
  nodup : (B.items.map Item.key).Nodup

/-- The state `s` is the table `T`. -/
structure Rep (C : M.Correct) (H : Hasher) (s : ExpanseBytesMap M) (T : Table) : Prop where
  ok : C.Ok s.map
  entries : C.entries s.map = T.map fun t => (t.1, t.2.word)
  valid : ∀ t ∈ T, t.2.Valid H t.1
  buckets : s.buckets.Holds T.bucketCells
  keys : s.keys.Holds T.keyCells
  pop : s.pop = T.size
  bytes : s.extraBytes = T.bytes

variable {s : ExpanseBytesMap M} {T T₁ T₂ : Table} {h : ℕ} {B : Block} {key : List Byte}

theorem Rep.sorted (hr : Rep C H s T) : KeySorted T := by
  have hs := C.sorted hr.ok
  rw [hr.entries] at hs
  exact (List.pairwise_map.mp hs).imp fun hlt => hlt

theorem valid_cut_iff : (∀ t ∈ T₁ ++ (h, B) :: T₂, t.2.Valid H t.1) ↔
    B.Valid H h ∧ ∀ t ∈ T₁ ++ T₂, t.2.Valid H t.1 := by
  simp only [List.mem_append, List.mem_cons, or_imp, forall_and, forall_eq]
  tauto

theorem Rep.valid_cut (hr : Rep C H s (T₁ ++ (h, B) :: T₂)) : B.Valid H h :=
  (valid_cut_iff.mp hr.valid).1

theorem Rep.bucketAt (hr : Rep C H s (T₁ ++ (h, B) :: T₂)) : s.bucketAt B.word = .ok B.bucket := by
  have hb := hr.buckets
  rw [Table.bucketCells_cut] at hb
  rw [ExpanseBytesMap.bucketAt, hb.find]

theorem Rep.findKey (hr : Rep C H s T) {t : ℕ × Block} (ht : t ∈ T) {i : Item} (hi : i ∈ t.2.items) :
    s.keys.find i.box = some i.key := by
  rw [hr.keys.find_iff]
  exact Multiset.mem_coe.mpr (List.mem_flatMap.mpr ⟨t, ht, List.mem_map_of_mem hi⟩)

theorem position_cons {box val i : ℕ} {k : List Byte} {rest : Bucket} (hk : s.keys.find box = some k) :
    s.position key ((box, val) :: rest) i =
      if k = key then .ok (some i) else s.position key rest (i + 1) := by
  rw [ExpanseBytesMap.position, hk]

theorem position_spec {items : List Item} (hk : ∀ i ∈ items, s.keys.find i.box = some i.key) (n : ℕ) :
    (∃ l₁ i l₂, items = l₁ ++ i :: l₂ ∧ i.key = key ∧ key ∉ l₁.map Item.key ∧
      s.position key (items.map fun i => (i.box, i.val)) n = .ok (some (n + l₁.length))) ∨
    key ∉ items.map Item.key ∧ s.position key (items.map fun i => (i.box, i.val)) n = .ok none := by
  induction items generalizing n with
  | nil => exact .inr ⟨by simp, rfl⟩
  | cons j items ih =>
    rw [List.map_cons, position_cons (hk j List.mem_cons_self)]
    by_cases hj : j.key = key
    · exact .inl ⟨[], j, items, rfl, hj, by simp, by simp [hj]⟩
    · rw [if_neg hj]
      rcases ih (fun i hi => hk i (List.mem_cons_of_mem _ hi)) (n + 1) with
        ⟨l₁, i, l₂, rfl, hi, hn, hp⟩ | ⟨hn, hp⟩
      · refine .inl ⟨j :: l₁, i, l₂, rfl, hi, by simp [hn, Ne.symm hj], ?_⟩
        rw [hp, List.length_cons]
        congr 2
        omega
      · exact .inr ⟨by simp [hn, Ne.symm hj], hp⟩

theorem Rep.position (hr : Rep C H s (T₁ ++ (h, B) :: T₂)) (key : List Byte) :
    (∃ l₁ i l₂, B.items = l₁ ++ i :: l₂ ∧ i.key = key ∧ key ∉ l₁.map Item.key ∧
      s.position key B.bucket 0 = .ok (some l₁.length)) ∨
    key ∉ B.items.map Item.key ∧ s.position key B.bucket 0 = .ok none := by
  have hmem : (h, B) ∈ T₁ ++ (h, B) :: T₂ := by simp
  rcases position_spec (fun i hi => hr.findKey hmem hi) 0 with ⟨l₁, i, l₂, h₁, h₂, h₃, h₄⟩ | ⟨h₁, h₂⟩
  · rw [Nat.zero_add] at h₄
    exact .inl ⟨l₁, i, l₂, h₁, h₂, h₃, h₄⟩
  · exact .inr ⟨h₁, h₂⟩

theorem lookup_words (T : Table) (k : ℕ) :
    (T.map fun t => (t.1, t.2.word)).lookup k = (T.lookup k).map Block.word := by
  induction T with
  | nil => rfl
  | cons t T ih =>
    obtain ⟨j, B⟩ := t
    rw [List.map_cons, List.lookup_cons, List.lookup_cons, ih]
    cases k == j <;> rfl

theorem Rep.get_map (hr : Rep C H s T) (key : List Byte) :
    M.get s.map (H.hashOne key) = (T.lookup (H.hashOne key)).map Block.word := by
  rw [C.get_eq hr.ok (H.lt_word key), hr.entries, lookup_words]

theorem Rep.readValue (hr : Rep C H s (T₁ ++ (h, B) :: T₂)) {l₁ l₂ : List Item} {i : Item}
    (hB : B.items = l₁ ++ i :: l₂) : s.readValue ⟨B.word, l₁.length⟩ = .ok i.val := by
  have hget : B.bucket[l₁.length]? = some (i.box, i.val) := by
    rw [Block.bucket, hB]
    simp
  unfold ExpanseBytesMap.readValue
  rw [hr.bucketAt, ok_bind]
  simp only [hget]

theorem Rep.get (hr : Rep C H s T) (key : List Byte) : s.get H key = .ok (T.view H key) := by
  unfold ExpanseBytesMap.get ExpanseBytesMap.bucketOf
  rw [hr.get_map]
  rcases hr.sorted.cut_cases (H.hashOne key) with ⟨T₁, B, T₂, rfl, -⟩ | ⟨T₁, T₂, rfl, hcut⟩
  · have hv := hr.valid_cut
    rw [lookup_cut hr.sorted, Table.view_cut H hr.sorted, if_pos rfl]
    simp only [Option.map_some, Option.bind_some, if_neg hv.word, hr.bucketAt, ok_bind]
    rcases hr.position key with ⟨l₁, i, l₂, hB, hi, hn, hp⟩ | ⟨hn, hp⟩
    · obtain ⟨word, items⟩ := B
      dsimp only at hB
      subst hB
      rw [hp, ok_bind, Block.find_split word (hi ▸ hn), if_pos hi.symm]
      simp only [hr.readValue rfl, ok_bind]
      rfl
    · rw [hp, ok_bind]
      obtain ⟨word, items⟩ := B
      rw [Block.find_absent hn]
      rfl
  · rw [lookup_eq_none hr.sorted hcut.not_mem, Table.view_absent H hr.sorted hcut]
    rfl

variable {B' : Block} {x : Option ℕ}

theorem Table.view_replace (hs : KeySorted (T₁ ++ (H.hashOne key, B) :: T₂))
    (hB : ∀ k, B'.find k = if k = key then x else B.find k) :
    Table.view H (T₁ ++ (H.hashOne key, B') :: T₂) =
      Function.update (Table.view H (T₁ ++ (H.hashOne key, B) :: T₂)) key x := by
  have hs' : KeySorted (T₁ ++ (H.hashOne key, B') :: T₂) :=
    keySorted_cut hs.of_cut.1 hs.of_cut.2.1 hs.of_cut.2.2 B'
  funext k
  rw [Table.view_cut H hs', Function.update_apply, Table.view_cut H hs, hB]
  by_cases hk : k = key
  · simp [hk]
  · simp [hk]

theorem Table.view_new (hs : KeySorted (T₁ ++ T₂)) (hcut : CutAt (H.hashOne key) T₁ T₂)
    (hB : ∀ k, B'.find k = if k = key then x else none) :
    Table.view H (T₁ ++ (H.hashOne key, B') :: T₂) = Function.update (Table.view H (T₁ ++ T₂)) key x := by
  have hs' : KeySorted (T₁ ++ (H.hashOne key, B') :: T₂) :=
    keySorted_cut hs.of_append.1 hs.of_append.2 hcut B'
  funext k
  rw [Table.view_cut H hs', Function.update_apply, hB]
  by_cases hk : k = key
  · simp [hk]
  · rw [if_neg hk, if_neg hk]
    split_ifs with hh
    · rw [← hh] at hcut
      exact (Table.view_absent H hs hcut).symm
    · rfl

theorem Table.view_drop (hs : KeySorted (T₁ ++ (H.hashOne key, B) :: T₂))
    (hB : ∀ k, k ≠ key → B.find k = none) :
    Table.view H (T₁ ++ T₂) = Function.update (Table.view H (T₁ ++ (H.hashOne key, B) :: T₂)) key none := by
  obtain ⟨h₁, h₂, hcut⟩ := hs.of_cut
  have hs' : KeySorted (T₁ ++ T₂) := hs.sublist (by simp)
  funext k
  rw [Function.update_apply, Table.view_cut H hs]
  by_cases hh : H.hashOne k = H.hashOne key
  · rw [← hh] at hcut
    rw [Table.view_absent H hs' hcut, if_pos hh]
    split_ifs with hk
    · rfl
    · exact (hB k hk).symm
  · rw [if_neg hh, if_neg fun hk => hh (by rw [hk])]

/-- The slot is the value word of `key`. -/
def Points (H : Hasher) (T : Table) (slot : ValueSlot) (key : List Byte) : Prop :=
  ∃ T₁ word l₁ i l₂ T₂, T = T₁ ++ (H.hashOne key, ⟨word, l₁ ++ i :: l₂⟩) :: T₂ ∧ i.key = key ∧
    key ∉ l₁.map Item.key ∧ slot = ⟨word, l₁.length⟩

theorem Rep.read_slot (hr : Rep C H s T) {slot : ValueSlot} (hp : Points H T slot key) :
    ∃ v, s.readValue slot = .ok v ∧ T.view H key = some v := by
  obtain ⟨T₁, word, l₁, i, l₂, T₂, rfl, hi, hn, rfl⟩ := hp
  refine ⟨i.val, hr.readValue rfl, ?_⟩
  rw [Table.view_cut H hr.sorted, if_pos rfl, Block.find_split word (hi ▸ hn), if_pos hi.symm]

theorem Rep.write_slot (hr : Rep C H s T) {slot : ValueSlot} (hp : Points H T slot key) (v : ℕ) :
    ∃ s' T', s.writeValue slot v = .ok s' ∧ Rep C H s' T' ∧
      T'.view H = Function.update (T.view H) key (some v) := by
  obtain ⟨T₁, word, l₁, i, l₂, T₂, rfl, hi, hn, rfl⟩ := hp
  have hb := hr.buckets
  rw [Table.bucketCells_cut] at hb
  obtain ⟨buckets, hstore, hb'⟩ := hb.store
    (Block.bucket ⟨word, l₁ ++ { i with val := v } :: l₂⟩)
  have hget : (Block.bucket ⟨word, l₁ ++ i :: l₂⟩)[l₁.length]? = some (i.box, i.val) := by
    simp [Block.bucket]
  have hset : (Block.bucket ⟨word, l₁ ++ i :: l₂⟩).set l₁.length (i.box, v) =
      Block.bucket ⟨word, l₁ ++ { i with val := v } :: l₂⟩ := by
    simp [Block.bucket]
  have hv := hr.valid_cut
  refine ⟨{ s with buckets := buckets },
    T₁ ++ (H.hashOne key, ⟨word, l₁ ++ { i with val := v } :: l₂⟩) :: T₂, ?_,
      ⟨hr.ok, ?_, ?_, ?_, ?_, ?_, ?_⟩, ?_⟩
  · unfold ExpanseBytesMap.writeValue
    rw [hr.bucketAt, ok_bind]
    simp only [hget, hset, hstore]
  · rw [hr.entries]
    simp
  · refine valid_cut_iff.mpr ⟨⟨hv.word, by simp, ?_, by simpa using hv.nodup⟩,
      (valid_cut_iff.mp hr.valid).2⟩
    intro j hj
    have hold := hv.hash
    simp only [List.mem_append, List.mem_cons] at hj hold
    rcases hj with hj | rfl | hj
    · exact hold j (.inl hj)
    · exact hold i (.inr (.inl rfl))
    · exact hold j (.inr (.inr hj))
  · rw [Table.bucketCells_cut]
    exact hb'
  · have hk := hr.keys
    rw [Table.keyCells_cut] at hk ⊢
    simpa [Block.keyCells] using hk
  · rw [hr.pop, Table.size_cut, Table.size_cut]
    simp
  · rw [hr.bytes, Table.bytes_cut, Table.bytes_cut]
    simp [Block.bytes]
  · refine Table.view_replace hr.sorted fun k => ?_
    rw [Block.find_split word (hi ▸ hn), Block.find_split word (hi ▸ hn)]
    simp only [hi]
    split_ifs <;> rfl

variable {D : Multiset (ℕ × Bucket)} {E : Multiset (ℕ × List Byte)}

theorem disposeBucket_moved {word : ℕ} {b : Bucket} (hb : s.buckets.Holds ((word, b) ::ₘ D)) :
    ∃ buckets, s.disposeBucket word false = .ok { s with buckets := buckets } ∧ buckets.Holds D := by
  obtain ⟨buckets, hfree, hD⟩ := hb.free
  refine ⟨buckets, ?_, hD⟩
  unfold ExpanseBytesMap.disposeBucket ExpanseBytesMap.bucketAt
  rw [hb.find, ok_bind, if_neg (by decide), pure_eq_ok, ok_bind]
  simp only [hfree]

theorem disposeKeys {items : List Item} {E : Multiset (ℕ × List Byte)}
    (hk : s.keys.Holds ((items.map fun i => (i.box, i.key) : List _) + E)) :
    ∃ keys, (items.map Item.box).foldlM ExpanseBytesMap.disposeKey s = .ok { s with keys := keys } ∧
      keys.Holds E := by
  induction items generalizing s with
  | nil => exact ⟨s.keys, rfl, by simpa using hk⟩
  | cons i items ih =>
    rw [List.map_cons, ← Multiset.cons_coe, Multiset.cons_add] at hk
    obtain ⟨keys, hfree, hrest⟩ := hk.free
    obtain ⟨keys', hrun, hE⟩ := ih (s := { s with keys := keys }) hrest
    refine ⟨keys', ?_, hE⟩
    rw [List.map_cons, List.foldlM_cons]
    have hone : s.disposeKey i.box = .ok { s with keys := keys } := by
      rw [ExpanseBytesMap.disposeKey, hfree]
    rw [hone, ok_bind, hrun]

theorem disposeBucket_owned (hb : s.buckets.Holds ((B.word, B.bucket) ::ₘ D))
    (hk : s.keys.Holds (B.keyCells + E)) :
    ∃ buckets keys, s.disposeBucket B.word true = .ok { s with buckets := buckets, keys := keys } ∧
      buckets.Holds D ∧ keys.Holds E := by
  obtain ⟨keys, hkeys, hE⟩ := disposeKeys hk
  obtain ⟨buckets, hfree, hD⟩ := hb.free
  refine ⟨buckets, keys, ?_, hD, hE⟩
  have hboxes : B.bucket.map Prod.fst = B.items.map Item.box := by simp [Block.bucket]
  unfold ExpanseBytesMap.disposeBucket ExpanseBytesMap.bucketAt
  rw [hb.find, ok_bind, if_pos rfl, hboxes, hkeys, ok_bind]
  simp only [hfree]

theorem put_put {k v w : ℕ} {l : List (ℕ × ℕ)} (hs : KeySorted l) : put k w (put k v l) = put k w l := by
  rcases hs.cut_cases k with ⟨l₁, u, l₂, rfl, hcut⟩ | ⟨l₁, l₂, rfl, hcut⟩
  · rw [put_cut_mem hcut, put_cut_mem hcut, put_cut_mem hcut]
  · rw [put_cut_new hcut, put_cut_mem hcut, put_cut_new hcut]

/-- The slot of a word-map key reads its value, 0 if the key is new, and a store through it binds the
key. -/
theorem insSlot_map (hT : C.Total) {m : M.Map} {k : ℕ} (hok : C.Ok m) (hk : k < WORD) :
    ∃ slot m', M.insSlot m k = .ok (slot, m') ∧ C.Ok m' ∧
      C.entries m' = put k (((C.entries m).lookup k).getD 0) (C.entries m) ∧
      (M.readSlot m' slot).getD 0 = ((C.entries m).lookup k).getD 0 ∧
      ∀ w, C.Ok (M.writeSlot m' slot w) ∧ C.entries (M.writeSlot m' slot w) = put k w (C.entries m) := by
  obtain ⟨⟨slot, m'⟩, heq⟩ := hT.insSlot m k hok hk
  obtain ⟨hok', hentries, hslot⟩ := C.insSlot_ok hok hk heq
  have hs := C.sorted hok
  refine ⟨slot, m', heq, hok', hentries, ?_, fun w => ?_⟩
  · rw [C.readSlot_eq hok' hk hslot, hentries, StrMap.WordMap.lookup_put_self hs]
    rfl
  · obtain ⟨hw, he⟩ := C.writeSlot_ok w hok' hk hslot
    exact ⟨hw, by rw [he, hentries, put_put hs]⟩

/-- What an insertion leaves: a table in which `key` has a slot, with the old value or `init`. -/
theorem Rep.insertSlotInner (hT : C.Total) (hr : Rep C H s T) (key : List Byte) (init : ℕ) :
    ∃ slot s' T', s.insertSlotInner H P key init = .ok (slot, T.view H key, s') ∧ Rep C H s' T' ∧
      Points H T' slot key ∧
      T'.view H = Function.update (T.view H) key (some ((T.view H key).getD init)) := by
  obtain ⟨slot, map, heq, hok, hentries, hread, hwrite⟩ := insSlot_map hT hr.ok (H.lt_word key)
  rw [hr.entries, lookup_words] at hentries hread
  unfold ExpanseBytesMap.insertSlotInner
  rw [heq, ok_bind]
  dsimp only
  rw [hread]
  rcases hr.sorted.cut_cases (H.hashOne key) with ⟨T₁, B, T₂, rfl, hcut⟩ | ⟨T₁, T₂, rfl, hcut⟩
  · have hv := hr.valid_cut
    rw [lookup_cut hr.sorted] at hentries ⊢
    rw [Option.map_some, Option.getD_some] at hentries ⊢
    rw [if_neg hv.word]
    have hrep : Rep C H { s with map := map } (T₁ ++ (H.hashOne key, B) :: T₂) := by
      refine ⟨hok, ?_, hr.valid, hr.buckets, hr.keys, hr.pop, hr.bytes⟩
      rw [hentries, ← map_put, put_cut_mem hcut]
    rw [hrep.bucketAt, ok_bind]
    rcases hrep.position key with ⟨l₁, i, l₂, hB, hi, hn, hp⟩ | ⟨hn, hp⟩
    · obtain ⟨word, items⟩ := B
      dsimp only at hB
      subst hB
      have hview : Table.view H (T₁ ++ (H.hashOne key, ⟨word, l₁ ++ i :: l₂⟩) :: T₂) key = some i.val := by
        rw [Table.view_cut H hr.sorted, if_pos rfl, Block.find_split word (hi ▸ hn), if_pos hi.symm]
      rw [hp, ok_bind, hview]
      dsimp only
      rw [hrep.readValue rfl, ok_bind]
      refine ⟨_, _, _, rfl, hrep, ⟨T₁, word, l₁, i, l₂, T₂, rfl, hi, hn, rfl⟩, ?_⟩
      rw [Option.getD_some, ← hview, Function.update_eq_self]
    · -- another key of the same hash: a replacement with all entries of the old bucket
      have hview : Table.view H (T₁ ++ (H.hashOne key, B) :: T₂) key = none := by
        rw [Table.view_cut H hr.sorted, if_pos rfl]
        exact Block.find_absent hn
      rw [hp, ok_bind, hview]
      dsimp only
      have hkeys := hr.keys.alloc P key
      generalize s.keys.alloc P key = new at hkeys ⊢
      obtain ⟨box, keys⟩ := new
      have hbuckets := hr.buckets.alloc P (B.bucket ++ [(box, init)])
      have hpos := s.buckets.alloc_pos P (B.bucket ++ [(box, init)])
      generalize s.buckets.alloc P (B.bucket ++ [(box, init)]) = new at hbuckets hpos ⊢
      obtain ⟨raw, buckets⟩ := new
      dsimp only at hkeys hbuckets hpos ⊢
      rw [Table.bucketCells_cut, Multiset.cons_swap] at hbuckets
      obtain ⟨buckets', hdispose, hbuckets'⟩ := disposeBucket_moved
        (s := ⟨M.writeSlot map slot raw, s.pop, s.extraBytes, buckets, keys⟩) hbuckets
      rw [hdispose, ok_bind]
      refine ⟨_, _, T₁ ++ (H.hashOne key, ⟨raw, B.items ++ [⟨box, key, init⟩]⟩) :: T₂, rfl,
        ⟨(hwrite _).1, ?_, ?_, ?_, ?_, ?_, ?_⟩,
        ⟨T₁, raw, B.items, _, [], T₂, rfl, rfl, hn, by simp [Block.bucket]⟩, ?_⟩
      · have hput : put (H.hashOne key) ⟨raw, B.items ++ [⟨box, key, init⟩]⟩
            (T₁ ++ (H.hashOne key, B) :: T₂) = _ := put_cut_mem hcut
        rw [(hwrite _).2, hr.entries, ← hput, map_put]
      · refine valid_cut_iff.mpr ⟨⟨hpos.ne', by simp, ?_, ?_⟩, (valid_cut_iff.mp hr.valid).2⟩
        · intro i hi
          rcases List.mem_append.mp hi with hi | hi
          · exact hv.hash i hi
          · rw [List.mem_singleton.mp hi]
        · rw [List.map_append, List.nodup_append]
          refine ⟨hv.nodup, by simp, ?_⟩
          rintro _ ha _ hb rfl
          simp only [List.map_cons, List.map_nil, List.mem_singleton] at hb
          exact hn (hb ▸ ha)
      · rw [Table.bucketCells_cut]
        simpa [Block.bucket] using hbuckets'
      · rw [Table.keyCells_cut] at hkeys ⊢
        simpa [Block.keyCells, ← Multiset.coe_add, ← Multiset.singleton_add, add_assoc, add_comm,
          add_left_comm] using hkeys
      · simp only [hr.pop, Table.size_cut, List.length_append, List.length_singleton]
        omega
      · simp only [hr.bytes, Table.bytes_cut, Block.bytes, List.map_append, List.map_cons,
          List.map_nil, List.sum_append, List.sum_cons, List.sum_nil]
        omega
      · refine Table.view_replace hr.sorted fun k => ?_
        rw [Option.getD_none]
        exact Block.find_append B.word hn
  · -- no bucket of this hash: one entry in a bucket of its own
    rw [lookup_eq_none hr.sorted hcut.not_mem, Option.map_none, Option.getD_none, if_pos rfl,
      Table.view_absent H hr.sorted hcut]
    have hkeys := hr.keys.alloc P key
    generalize s.keys.alloc P key = new at hkeys ⊢
    obtain ⟨box, keys⟩ := new
    have hbuckets := hr.buckets.alloc P [(box, init)]
    have hpos := s.buckets.alloc_pos P [(box, init)]
    generalize s.buckets.alloc P [(box, init)] = new at hbuckets hpos ⊢
    obtain ⟨raw, buckets⟩ := new
    refine ⟨_, _, T₁ ++ (H.hashOne key, ⟨raw, [⟨box, key, init⟩]⟩) :: T₂, rfl,
      ⟨(hwrite _).1, ?_, ?_, ?_, ?_, ?_, ?_⟩, ⟨T₁, _, [], _, [], T₂, rfl, rfl, by simp, rfl⟩, ?_⟩
    · rw [(hwrite _).2, hr.entries, ← put_cut_new hcut, map_put]
    · refine valid_cut_iff.mpr ⟨⟨hpos.ne', by simp, ?_, by simp⟩, hr.valid⟩
      intro i hi
      rw [List.mem_singleton.mp hi]
    · rw [Table.bucketCells_cut]
      exact hbuckets
    · rw [Table.keyCells_cut]
      exact hkeys
    · rw [Table.size_cut, hr.pop]
      exact Nat.add_comm _ _
    · rw [Table.bytes_cut, hr.bytes]
      simp [Block.bytes]
      omega
    · refine Table.view_new hr.sorted hcut fun k => ?_
      show Block.find ⟨raw, [] ++ [⟨box, key, init⟩]⟩ k = _
      rw [Block.find_append 0 (by simp)]
      rfl

theorem Rep.insert (hT : C.Total) (hr : Rep C H s T) (key : List Byte) (val : ℕ) :
    ∃ s' T', s.insert H P key val = .ok (T.view H key, s') ∧ Rep C H s' T' ∧
      T'.view H = Function.update (T.view H) key (some val) := by
  obtain ⟨slot, s₁, T', heq, hr₁, hp, hview⟩ := hr.insertSlotInner (P := P) hT key val
  unfold ExpanseBytesMap.insert
  rw [heq, ok_bind]
  dsimp only
  cases hv : T.view H key with
  | none =>
    rw [hv, Option.getD_none] at hview
    exact ⟨s₁, T', rfl, hr₁, hview⟩
  | some old =>
    obtain ⟨s₂, T₂, hwrite, hr₂, hview₂⟩ := hr₁.write_slot hp val
    rw [Option.isSome_some, if_pos rfl, hwrite, ok_bind]
    refine ⟨s₂, T₂, rfl, hr₂, ?_⟩
    rw [hview₂, hview, Function.update_idem]

theorem Rep.insSlot (hT : C.Total) (hr : Rep C H s T) (key : List Byte) (val : ℕ) :
    ∃ slot s₁ s₂ T', s.insSlot H P key = .ok (slot, s₁) ∧
      s₁.readValue slot = .ok ((T.view H key).getD 0) ∧ s₁.writeValue slot val = .ok s₂ ∧
      Rep C H s₂ T' ∧ T'.view H = Function.update (T.view H) key (some val) := by
  obtain ⟨slot, s₁, T', heq, hr₁, hp, hview⟩ := hr.insertSlotInner (P := P) hT key 0
  obtain ⟨s₂, T₂, hwrite, hr₂, hview₂⟩ := hr₁.write_slot hp val
  obtain ⟨v, hread, hv⟩ := hr₁.read_slot hp
  rw [hview, Function.update_self] at hv
  cases hv
  refine ⟨slot, s₁, s₂, T₂, ?_, hread, hwrite, hr₂, ?_⟩
  · unfold ExpanseBytesMap.insSlot
    rw [heq]
    rfl
  · rw [hview₂, hview, Function.update_idem]

theorem Rep.removeLast {word : ℕ} {i : Item}
    (hr : Rep C H s (T₁ ++ (H.hashOne key, ⟨word, [i]⟩) :: T₂)) (hi : i.key = key) :
    ∃ map s', M.remove s.map (H.hashOne key) = .ok (some word, map) ∧
      ExpanseBytesMap.disposeBucket { s with map := map } word true = .ok s' ∧
      Rep C H { s' with
        pop := s'.pop - 1
        extraBytes := s'.extraBytes - BUCKET_OVERHEAD - (key.length + ENTRY_OVERHEAD) } (T₁ ++ T₂) := by
  obtain ⟨map, hmap, hok, hentries⟩ := C.remove_ok hr.ok (H.lt_word key)
  rw [hr.entries, lookup_words, lookup_cut hr.sorted, Option.map_some] at hmap
  have hb := hr.buckets
  have hk := hr.keys
  rw [Table.bucketCells_cut] at hb
  rw [Table.keyCells_cut] at hk
  obtain ⟨buckets, keys, hdispose, hb', hk'⟩ :=
    disposeBucket_owned (s := { s with map := map }) (B := ⟨word, [i]⟩) hb hk
  refine ⟨map, _, hmap, hdispose, hok, ?_, (valid_cut_iff.mp hr.valid).2, hb', hk', ?_, ?_⟩
  · show C.entries map = _
    rw [hentries, hr.entries, ← map_del, del_cut_mem hr.sorted.of_cut.2.2]
  · show s.pop - 1 = _
    rw [hr.pop, Table.size_cut]
    simp
  · show s.extraBytes - BUCKET_OVERHEAD - (key.length + ENTRY_OVERHEAD) = _
    rw [hr.bytes, Table.bytes_cut, Block.bytes, ← hi]
    simp only [List.map_cons, List.map_nil, List.sum_cons, List.sum_nil]
    omega

/-- An entry beside others: they move into a replacement, and its key is freed. -/
theorem Rep.removeOne {word raw : ℕ} {l₁ l₂ : List Item} {i : Item} {buckets : Boxes Bucket}
    (hT : C.Total) (hr : Rep C H s (T₁ ++ (H.hashOne key, ⟨word, l₁ ++ i :: l₂⟩) :: T₂)) (hi : i.key = key)
    (hne : l₁ ++ l₂ ≠ []) (hraw : 0 < raw)
    (hb : buckets.Holds ((raw, Block.bucket ⟨word, l₁ ++ l₂⟩) ::ₘ
      Table.bucketCells (T₁ ++ (H.hashOne key, ⟨word, l₁ ++ i :: l₂⟩) :: T₂))) :
    ∃ map s₁ s₂, M.insert s.map (H.hashOne key) raw = .ok (some word, map) ∧
      ExpanseBytesMap.disposeBucket { s with map := map, buckets := buckets } word false = .ok s₁ ∧
      s₁.disposeKey i.box = .ok s₂ ∧
      Rep C H { s₂ with
        pop := s₂.pop - 1
        extraBytes := s₂.extraBytes - (key.length + ENTRY_OVERHEAD) }
        (T₁ ++ (H.hashOne key, ⟨raw, l₁ ++ l₂⟩) :: T₂) := by
  have hv := hr.valid_cut
  obtain ⟨⟨prev, map⟩, hmap⟩ := hT.insert s.map (H.hashOne key) raw hr.ok (H.lt_word key)
  obtain ⟨hok, hentries, hprev⟩ := C.insert_ok hr.ok (H.lt_word key) hmap
  rw [hr.entries, lookup_words, lookup_cut hr.sorted, Option.map_some] at hprev
  subst hprev
  rw [Table.bucketCells_cut, Multiset.cons_swap] at hb
  obtain ⟨buckets', hdispose, hb'⟩ := disposeBucket_moved (s := { s with map := map, buckets := buckets }) hb
  have hk := hr.keys
  rw [Table.keyCells_cut] at hk
  have hcells : ((Block.keyCells ⟨word, l₁ ++ i :: l₂⟩ : List _) : Multiset (ℕ × List Byte)) =
      (i.box, i.key) ::ₘ (Block.keyCells ⟨raw, l₁ ++ l₂⟩ : List _) := by
    simp [Block.keyCells]
  rw [hcells, Multiset.cons_add] at hk
  obtain ⟨keys, hfree, hk'⟩ := hk.free
  refine ⟨map, _, { s with map := map, buckets := buckets', keys := keys }, hmap, hdispose, ?_, hok, ?_, ?_,
    ?_, ?_, ?_, ?_⟩
  · rw [ExpanseBytesMap.disposeKey, hfree]
  · have hput : put (H.hashOne key) ⟨raw, l₁ ++ l₂⟩
        (T₁ ++ (H.hashOne key, ⟨word, l₁ ++ i :: l₂⟩) :: T₂) = _ := put_cut_mem hr.sorted.of_cut.2.2
    show C.entries map = _
    rw [hentries, hr.entries, ← hput, map_put]
  · refine valid_cut_iff.mpr ⟨⟨hraw.ne', hne, ?_, ?_⟩, (valid_cut_iff.mp hr.valid).2⟩
    · intro j hj
      refine hv.hash j ?_
      simp only [List.mem_append, List.mem_cons] at hj ⊢
      tauto
    · exact hv.nodup.sublist (by simp)
  · rw [Table.bucketCells_cut]
    exact hb'
  · rw [Table.keyCells_cut]
    exact hk'
  · show s.pop - 1 = _
    rw [hr.pop, Table.size_cut, Table.size_cut]
    simp only [List.length_append, List.length_cons]
    omega
  · show s.extraBytes - (key.length + ENTRY_OVERHEAD) = _
    rw [hr.bytes, Table.bytes_cut, Table.bytes_cut, Block.bytes, Block.bytes, ← hi]
    simp only [List.map_append, List.map_cons, List.sum_append, List.sum_cons]
    omega

theorem Rep.remove (hT : C.Total) (hr : Rep C H s T) (key : List Byte) :
    ∃ s' T', s.remove H P key = .ok (T.view H key, s') ∧ Rep C H s' T' ∧
      T'.view H = Function.update (T.view H) key none := by
  -- nothing changes when the key is absent
  have hkeep : ∀ {x : Option ℕ}, x = T.view H key → x = none →
      T.view H = Function.update (T.view H) key none := by
    intro x hx hn
    rw [← hn, hx, Function.update_eq_self]
  unfold ExpanseBytesMap.remove
  rw [hr.get_map]
  rcases hr.sorted.cut_cases (H.hashOne key) with ⟨T₁, B, T₂, rfl, hcut⟩ | ⟨T₁, T₂, rfl, hcut⟩
  · have hv := hr.valid_cut
    rw [lookup_cut hr.sorted]
    simp only [Option.map_some]
    rw [hr.bucketAt, ok_bind]
    rcases hr.position key with ⟨l₁, i, l₂, hB, hi, hn, hp⟩ | ⟨hn, hp⟩
    · obtain ⟨word, items⟩ := B
      dsimp only at hB
      subst hB
      have hview : Table.view H (T₁ ++ (H.hashOne key, ⟨word, l₁ ++ i :: l₂⟩) :: T₂) key = some i.val := by
        rw [Table.view_cut H hr.sorted, if_pos rfl, Block.find_split word (hi ▸ hn), if_pos hi.symm]
      have hnodup : i.key ∉ (l₁ ++ l₂).map Item.key := by
        have := hv.nodup
        rw [List.map_append, List.map_cons, List.nodup_middle, List.nodup_cons] at this
        simpa using this.1
      rw [hp, ok_bind]
      dsimp only
      rw [hr.readValue rfl, ok_bind, hview]
      by_cases hlen : (Block.bucket ⟨word, l₁ ++ i :: l₂⟩).length = 1
      · have hnil : l₁ = [] ∧ l₂ = [] := by
          simp only [Block.bucket, List.length_map, List.length_append, List.length_cons] at hlen
          exact ⟨List.eq_nil_of_length_eq_zero (by omega), List.eq_nil_of_length_eq_zero (by omega)⟩
        obtain ⟨rfl, rfl⟩ := hnil
        obtain ⟨map, s', hmap, hdispose, hr'⟩ := hr.removeLast hi
        rw [if_pos hlen, hmap, ok_bind, hdispose, ok_bind]
        refine ⟨_, T₁ ++ T₂, rfl, hr', Table.view_drop hr.sorted fun k hk => ?_⟩
        rw [Block.find_split word (by simp), if_neg (hi ▸ hk)]
        rfl
      · rw [if_neg hlen]
        have herase : (Block.bucket ⟨word, l₁ ++ i :: l₂⟩).eraseIdx l₁.length =
            Block.bucket ⟨word, l₁ ++ l₂⟩ := by
          simp [Block.bucket, List.eraseIdx_append_of_length_le]
        have hbox : ((Block.bucket ⟨word, l₁ ++ i :: l₂⟩).map Prod.fst).getD l₁.length 0 = i.box := by
          simp [Block.bucket]
        rw [herase, hbox]
        have hbuckets := hr.buckets.alloc P (Block.bucket ⟨word, l₁ ++ l₂⟩)
        have hpos := s.buckets.alloc_pos P (Block.bucket ⟨word, l₁ ++ l₂⟩)
        generalize s.buckets.alloc P (Block.bucket ⟨word, l₁ ++ l₂⟩) = new at hbuckets hpos ⊢
        obtain ⟨raw, buckets⟩ := new
        have hne : l₁ ++ l₂ ≠ [] := by
          intro hnil
          have := congrArg List.length hnil
          simp only [Block.bucket, List.length_map, List.length_append, List.length_cons,
            List.length_nil] at hlen this
          omega
        obtain ⟨map, s₁, s₂, hmap, hdispose, hkey, hr'⟩ := hr.removeOne hT hi hne hpos hbuckets
        dsimp only
        rw [hmap, ok_bind]
        dsimp only
        rw [if_pos rfl, hdispose, ok_bind, hkey, ok_bind]
        refine ⟨_, _, rfl, hr', Table.view_replace hr.sorted fun k => ?_⟩
        rw [Block.find_split raw (hi ▸ hn), hi]
        split_ifs with hk
        · exact Block.find_absent (hk ▸ hi ▸ hnodup)
        · rfl
    · have hnone : Table.view H (T₁ ++ (H.hashOne key, B) :: T₂) key = none := by
        rw [Table.view_cut H hr.sorted, if_pos rfl]
        exact Block.find_absent hn
      rw [hp, ok_bind]
      exact ⟨s, _, by rw [hnone]; rfl, hr, hkeep rfl hnone⟩
  · have hnone := Table.view_absent H hr.sorted hcut
    rw [lookup_eq_none hr.sorted hcut.not_mem]
    exact ⟨s, _, by rw [hnone]; rfl, hr, hkeep rfl hnone⟩

theorem disposeTable (hb : s.buckets.Holds T.bucketCells) (hk : s.keys.Holds T.keyCells) :
    ∃ buckets keys, (T.map fun t => t.2.word).foldlM (fun s word => s.disposeBucket word true) s =
        .ok { s with buckets := buckets, keys := keys } ∧ buckets.Holds 0 ∧ keys.Holds 0 := by
  induction T generalizing s with
  | nil => exact ⟨s.buckets, s.keys, rfl, hb, hk⟩
  | cons t T ih =>
    obtain ⟨h, B⟩ := t
    have hb' : s.buckets.Holds ((B.word, B.bucket) ::ₘ Table.bucketCells T) := hb
    have hk' : s.keys.Holds (B.keyCells + Table.keyCells T) := by
      simpa [Table.keyCells, ← Multiset.coe_add] using hk
    obtain ⟨buckets, keys, hone, hb₁, hk₁⟩ := disposeBucket_owned hb' hk'
    obtain ⟨buckets', keys', hrest, hb₂, hk₂⟩ := ih (s := { s with buckets := buckets, keys := keys }) hb₁ hk₁
    refine ⟨buckets', keys', ?_, hb₂, hk₂⟩
    rw [List.map_cons, List.foldlM_cons, hone, ok_bind, hrest]

theorem Rep.clear (hr : Rep C H s T) : ∃ s', s.clear = .ok s' ∧ Rep C H s' [] := by
  have hwords : (M.iter s.map).map Prod.snd = T.map fun t => t.2.word := by
    rw [C.iter_eq hr.ok, hr.entries, List.map_map]
    rfl
  obtain ⟨buckets, keys, hdispose, hb, hk⟩ :=
    disposeTable (s := { s with map := M.new }) hr.buckets hr.keys
  unfold ExpanseBytesMap.clear
  rw [hwords]
  dsimp only
  rw [hdispose, ok_bind]
  exact ⟨_, rfl, C.new_ok, C.entries_new, by simp, hb, hk, rfl, rfl⟩

def Table.keys (T : Table) : List (List Byte) := T.flatMap fun t => t.2.items.map Item.key

theorem Table.length_keys (T : Table) : T.keys.length = T.size := by
  simp [Table.keys, Table.size, List.length_flatMap]

theorem Rep.nodup_keys (hr : Rep C H s T) : T.keys.Nodup := by
  rw [Table.keys, List.nodup_flatMap]
  refine ⟨fun t ht => (hr.valid t ht).nodup, ?_⟩
  -- keys of two buckets have different hashes
  refine hr.sorted.imp_of_mem fun {t u} ht hu hlt => ?_
  intro k hk hk'
  obtain ⟨i, hi, rfl⟩ := List.mem_map.mp hk
  obtain ⟨j, hj, heq⟩ := List.mem_map.mp hk'
  have h₁ := (hr.valid t ht).hash i hi
  have h₂ := (hr.valid u hu).hash j hj
  rw [heq, h₁] at h₂
  exact absurd h₂ hlt.ne

theorem Rep.isSome_view (hr : Rep C H s T) (k : List Byte) : (T.view H k).isSome ↔ k ∈ T.keys := by
  unfold Table.view Table.keys
  rw [List.mem_flatMap]
  constructor
  · intro hsome
    cases hl : T.lookup (H.hashOne k) with
    | none => simp [hl] at hsome
    | some B =>
      rw [hl, Option.bind_some, Block.isSome_find] at hsome
      exact ⟨_, (lookup_eq_some_iff hr.sorted).mp hl, hsome⟩
  · rintro ⟨⟨h, B⟩, ht, hk⟩
    obtain ⟨i, hi, rfl⟩ := List.mem_map.mp hk
    have hh : H.hashOne i.key = h := (hr.valid _ ht).hash i hi
    rw [hh, lookup_of_mem hr.sorted ht, Option.bind_some, Block.isSome_find]
    exact hk

theorem Rep.ncard (hr : Rep C H s T) : {k | (T.view H k).isSome}.ncard = T.size := by
  have hset : {k | (T.view H k).isSome} = (T.keys.toFinset : Set (List Byte)) := by
    ext k
    simp [hr.isSome_view]
  rw [hset, Set.ncard_coe_finset, List.toFinset_card_of_nodup hr.nodup_keys, Table.length_keys]

/-- Each live bucket is published under one hash, and each live key is in one entry of one live
bucket. -/
structure OwnedOnce (C : M.Correct) (s : ExpanseBytesMap M) : Prop where
  published : ((C.entries s.map).map Prod.snd).Perm (s.buckets.cells.map Prod.fst)
  boxed : (s.buckets.cells.flatMap fun c => c.2.map Prod.fst).Perm (s.keys.cells.map Prod.fst)

theorem Rep.ownedOnce (hr : Rep C H s T) : OwnedOnce C s := by
  have hb : s.buckets.cells.Perm (T.map fun t => (t.2.word, t.2.bucket)) :=
    Multiset.coe_eq_coe.mp hr.buckets
  have hk : s.keys.cells.Perm (T.flatMap fun t => t.2.keyCells) := Multiset.coe_eq_coe.mp hr.keys
  constructor
  · refine List.Perm.trans ?_ (hb.map Prod.fst).symm
    rw [hr.entries, List.map_map, List.map_map]
    exact List.Perm.of_eq rfl
  · refine (hb.flatMap_right _).trans (List.Perm.trans ?_ (hk.map Prod.fst).symm)
    rw [List.flatMap_map, List.map_flatMap]
    refine List.Perm.of_eq (List.flatMap_congr fun t _ => ?_)
    simp [Block.bucket, Block.keyCells]

/-- The state answers as the partial map `m`. -/
structure Answers (C : M.Correct) (H : Hasher) (s : ExpanseBytesMap M) (m : List Byte → Option ℕ) :
    Prop where
  get : ∀ key, s.get H key = .ok (m key)
  len : s.len = {k | (m k).isSome}.ncard
  owned : OwnedOnce C s
  drained : (∀ key, m key = none) → s.memUsed = 0

theorem Rep.answers (hr : Rep C H s T) : Answers C H s (T.view H) where
  get := hr.get
  len := by rw [hr.ncard]; exact hr.pop
  owned := hr.ownedOnce
  drained hnone := by
    cases T with
    | nil =>
      have hbytes := hr.bytes
      rw [ExpanseBytesMap.memUsed, C.bytes_empty hr.ok hr.entries, hbytes]
      rfl
    | cons t T =>
      obtain ⟨i, l, hl⟩ := List.exists_cons_of_ne_nil (hr.valid t List.mem_cons_self).ne_nil
      have hmem : i.key ∈ Table.keys (t :: T) := by
        simp [Table.keys, hl]
      rw [← hr.isSome_view, hnone] at hmem
      cases hmem

theorem rep_new : Rep C H (ExpanseBytesMap.new : ExpanseBytesMap M) [] :=
  ⟨C.new_ok, C.entries_new, by simp, Boxes.holds_empty, Boxes.holds_empty, rfl, rfl⟩

theorem Rep.update (hT : C.Total) (hr : Rep C H s T) (key : List Byte) (f : Option ℕ → Option ℕ) :
    ∃ s' T', s.update H P key f = .ok (T.view H key, s') ∧ Rep C H s' T' ∧
      T'.view H = Function.update (T.view H) key (f (T.view H key)) := by
  unfold ExpanseBytesMap.update
  rw [hr.get, ok_bind]
  cases hf : f (T.view H key) with
  | some v =>
    obtain ⟨s', T', heq, hr', hview⟩ := hr.insert (P := P) hT key v
    dsimp only
    rw [heq, ok_bind]
    exact ⟨s', T', rfl, hr', hview⟩
  | none =>
    obtain ⟨s', T', heq, hr', hview⟩ := hr.remove (P := P) hT key
    dsimp only
    cases hv : T.view H key with
    | some v =>
      rw [Option.isSome_some, if_pos rfl, heq, ok_bind]
      exact ⟨s', T', rfl, hr', hview⟩
    | none =>
      rw [Option.isSome_none, if_neg (by decide)]
      exact ⟨s, T, rfl, hr, by rw [← hv, Function.update_eq_self]⟩

theorem Rep.step (hT : C.Total) (hr : Rep C H s T) (op : ExpanseBytesMap.Op) :
    ∃ s' T', s.step H P op = .ok ((refStep (T.view H) op).1, s') ∧ Rep C H s' T' ∧
      T'.view H = (refStep (T.view H) op).2 := by
  cases op with
  | insert key val =>
    obtain ⟨s', T', heq, hr', hview⟩ := hr.insert (P := P) hT key val
    exact ⟨s', T', by rw [ExpanseBytesMap.step, heq]; rfl, hr', hview⟩
  | insSlot key val =>
    obtain ⟨slot, s₁, s₂, T', heq, hread, hwrite, hr', hview⟩ := hr.insSlot (P := P) hT key val
    refine ⟨s₂, T', ?_, hr', hview⟩
    rw [ExpanseBytesMap.step, heq, ok_bind]
    dsimp only
    rw [hread, ok_bind, hwrite]
    rfl
  | get key => exact ⟨s, T, by rw [ExpanseBytesMap.step, hr.get]; rfl, hr, rfl⟩
  | remove key =>
    obtain ⟨s', T', heq, hr', hview⟩ := hr.remove (P := P) hT key
    exact ⟨s', T', by rw [ExpanseBytesMap.step, heq]; rfl, hr', hview⟩
  | update key f =>
    obtain ⟨s', T', heq, hr', hview⟩ := hr.update (P := P) hT key f
    exact ⟨s', T', by rw [ExpanseBytesMap.step, heq]; rfl, hr', hview⟩
  | clear =>
    obtain ⟨s', heq, hr'⟩ := hr.clear
    exact ⟨s', [], by rw [ExpanseBytesMap.step, heq]; rfl, hr', rfl⟩
  | len =>
    refine ⟨s, T, ?_, hr, rfl⟩
    rw [ExpanseBytesMap.step, hr.answers.len]
    rfl

end

/-- Over a word map that is a correct map, and for every hash function, any sequence of calls on a new
map returns and answers as a partial map from byte strings. After it every key buffer belongs to one
live bucket, and no memory is used once all keys are gone. -/
theorem run_answers_byte_exact (M : WordMap) (C : M.Correct) (hT : C.Total) (H : Hasher) (P : Placing)
    (ops : List ExpanseBytesMap.Op) :
    ∃ s : ExpanseBytesMap M,
      run (ExpanseBytesMap.step H P) ExpanseBytesMap.new ops =
        .ok ((refRun refStep (fun _ => none) ops).1, s) ∧
      Answers C H s (refRun refStep (fun _ => none) ops).2 := by
  have hstep : ∀ (s : ExpanseBytesMap M) (m : List Byte → Option ℕ) (op : ExpanseBytesMap.Op),
      (∃ T, Rep C H s T ∧ Table.view H T = m) → True →
      ∃ s', s.step H P op = .ok ((refStep m op).1, s') ∧
        ∃ T, Rep C H s' T ∧ Table.view H T = (refStep m op).2 := by
    rintro s _ op ⟨T, hr, rfl⟩ -
    obtain ⟨s', T', heq, hr', hview⟩ := hr.step (P := P) hT op
    exact ⟨s', heq, T', hr', hview⟩
  obtain ⟨s, hrun, T, hr, hview⟩ := run_refines hstep ⟨[], rep_new, rfl⟩ (along_trivial _ _ ops)
  exact ⟨s, hrun, hview ▸ hr.answers⟩

def Hasher.zero : Hasher := ⟨fun _ => 0, fun _ => by decide⟩

theorem run_answers_byte_exact_colliding :
    ∃ s : ExpanseBytesMap WordMap.sortedList,
      run (ExpanseBytesMap.step Hasher.zero Placing.above) ExpanseBytesMap.new
        [.insert [0, 1] 5, .insert [0] 6, .insSlot [] 7, .insert [0] 8, .remove [0, 1], .get [0, 1],
          .get [0], .get [], .clear, .get []] =
        .ok ([.value none, .value none, .slot 0, .value (some 6), .value (some 5), .value none,
          .value (some 8), .value (some 7), .unit, .value none], s) := by
  obtain ⟨s, hs, -⟩ := run_answers_byte_exact WordMap.sortedList WordMap.sortedListCorrect
    WordMap.sortedListCorrect_total Hasher.zero Placing.above _
  exact ⟨s, hs.trans (by simp [refRun, refStep, Function.update])⟩

end Expanse.BytesMap
