import Expanse.StrMap.Heap

/-!
# Finding a key, and writing where it was found

The chunk loop of a lookup ends at the place of its key. `Place` says what that means for
the trie: the place holds the key's value, and a store there changes the binding of that
key and of no other.
-/

namespace Expanse.StrMap

open SortedAssoc BigEndian NodeAlloc

section Bindings

variable {α β : Type} {k : α} {v w : β} {l l' l₁ l₂ : List (α × β)}

/-- `l'` is `l` with one more binding. -/
def Inserted (k : α) (v : β) (l l' : List (α × β)) : Prop :=
  ∃ l₁ l₂, l = l₁ ++ l₂ ∧ l' = l₁ ++ (k, v) :: l₂

/-- `l'` is `l` with the binding of `k` to `w` turned into one to `v`. -/
def Replaced (k : α) (w v : β) (l l' : List (α × β)) : Prop :=
  ∃ l₁ l₂, l = l₁ ++ (k, w) :: l₂ ∧ l' = l₁ ++ (k, v) :: l₂

theorem Inserted.append (h : Inserted k v l l') : Inserted k v (l₁ ++ (l ++ l₂)) (l₁ ++ (l' ++ l₂)) := by
  obtain ⟨r₁, r₂, rfl, rfl⟩ := h
  exact ⟨l₁ ++ r₁, r₂ ++ l₂, by simp, by simp⟩

theorem Replaced.append (h : Replaced k w v l l') :
    Replaced k w v (l₁ ++ (l ++ l₂)) (l₁ ++ (l' ++ l₂)) := by
  obtain ⟨r₁, r₂, rfl, rfl⟩ := h
  exact ⟨l₁ ++ r₁, r₂ ++ l₂, by simp, by simp⟩

theorem Inserted.map {γ : Type} (f : α → γ) (h : Inserted k v l l') :
    Inserted (f k) v (l.map fun e => (f e.1, e.2)) (l'.map fun e => (f e.1, e.2)) := by
  obtain ⟨r₁, r₂, rfl, rfl⟩ := h
  exact ⟨_, _, List.map_append, by rw [List.map_append, List.map_cons]⟩

theorem Replaced.map {γ : Type} (f : α → γ) (h : Replaced k w v l l') :
    Replaced (f k) w v (l.map fun e => (f e.1, e.2)) (l'.map fun e => (f e.1, e.2)) := by
  obtain ⟨r₁, r₂, rfl, rfl⟩ := h
  exact ⟨_, _, by rw [List.map_append, List.map_cons], by rw [List.map_append, List.map_cons]⟩

theorem Inserted.length (h : Inserted k v l l') : l'.length = l.length + 1 := by
  obtain ⟨r₁, r₂, rfl, rfl⟩ := h
  simp only [List.length_append, List.length_cons]
  omega

theorem Replaced.length (h : Replaced k w v l l') : l'.length = l.length := by
  obtain ⟨r₁, r₂, rfl, rfl⟩ := h
  simp only [List.length_append, List.length_cons]

theorem Inserted.ne_nil (h : Inserted k v l l') : l' ≠ [] := by
  obtain ⟨r₁, r₂, rfl, rfl⟩ := h
  simp

end Bindings

variable {M : WordMap} {C : M.Correct} {a a' : NodeAlloc M} {kids l₁ l₂ g : Kids} {c p q off : ℕ}
  {x : Item} {key : List ℕ} {v w : ℕ}

theorem even_of_aligned (h : RAW_ALIGN ∣ p) : p % 2 = 0 := by
  unfold RAW_ALIGN at h
  omega

theorem packSuffix_eq (h : RAW_ALIGN ∣ p) : packSuffix p = p + 1 := by
  have hp := even_of_aligned h
  obtain ⟨n, rfl⟩ : ∃ n, p = 2 * n := ⟨p / 2, by omega⟩
  unfold packSuffix
  exact (Nat.two_pow_add_eq_or_of_lt (i := 1) (by norm_num) n).symm

theorem isSuffixPtr_packSuffix (h : RAW_ALIGN ∣ p) : isSuffixPtr (packSuffix p) = true := by
  have := even_of_aligned h
  rw [packSuffix_eq h, isSuffixPtr, beq_iff_eq]
  omega

theorem unpackSuffix_packSuffix (h : RAW_ALIGN ∣ p) : unpackSuffix (packSuffix p) = p := by
  have := even_of_aligned h
  rw [packSuffix_eq h, unpackSuffix]
  omega

theorem isSuffixPtr_packChild (h : RAW_ALIGN ∣ p) : isSuffixPtr (packChild p) = false := by
  have := even_of_aligned h
  rw [packChild, isSuffixPtr, beq_eq_false_iff_ne]
  omega

theorem lookup_words (hs : KeySorted kids) (hm : (c, x) ∈ kids) :
    (words kids).lookup c = some x.word :=
  (lookup_eq_some_iff (keySorted_words hs)).mpr (mem_words.mpr ⟨x, hm, rfl⟩)

theorem lookup_words_none (hs : KeySorted kids) (hm : ∀ x, (c, x) ∉ kids) :
    (words kids).lookup c = none := by
  rw [Option.eq_none_iff_forall_ne_some]
  intro w hw
  obtain ⟨x, hx, -⟩ := mem_words.mp ((lookup_eq_some_iff (keySorted_words hs)).mp hw)
  exact hm x hx

/-- A level holds an item at a chunk, between two sides, or a gap there. -/
theorem Wf.cases (h : Wf kids) (c : ℕ) :
    (∃ x l₁ l₂, kids = l₁ ++ (c, x) :: l₂ ∧ CutAt c l₁ l₂) ∨
      (∃ l₁ l₂, kids = l₁ ++ l₂ ∧ CutAt c l₁ l₂ ∧ ∀ x, (c, x) ∉ kids) := by
  by_cases hm : ∃ x, (c, x) ∈ kids
  · obtain ⟨x, hx⟩ := hm
    obtain ⟨l₁, l₂, heq, hcut⟩ := exists_cut_of_mem h.sorted hx
    exact .inl ⟨x, l₁, l₂, heq, hcut⟩
  · obtain ⟨l₁, l₂, heq, hcut⟩ := exists_cut_of_not_mem h.sorted fun x hx => hm ⟨x, hx⟩
    exact .inr ⟨l₁, l₂, heq, hcut, fun x hx => hm ⟨x, hx⟩⟩

theorem Node.aligned (h : Node C a p kids) (hs : a.Sound) : ∀ q ∈ p :: addrs kids, RAW_ALIGN ∣ q :=
  fun q hq => hs.aligned q (h.mem q hq)

theorem Node.aligned_suffix {bs : List ℕ} (h : Node C a p (l₁ ++ (c, .suffix q bs v) :: l₂))
    (hs : a.Sound) : RAW_ALIGN ∣ q :=
  h.aligned hs q (by simp [addrs_cut, Item.addrs])

theorem Node.aligned_child (h : Node C a p (l₁ ++ (c, .child q g) :: l₂)) (hs : a.Sound) :
    RAW_ALIGN ∣ q :=
  h.aligned hs q (by simp [addrs_cut, Item.addrs])

/-- A terminal chunk can only hold a value; a full chunk never does. -/
theorem Item.value_of_last (hx : x.Wf c) (hc : LastChunk c) : ∃ v, x = .value v := by
  cases x with
  | value v => exact ⟨v, rfl⟩
  | suffix p bs v =>
    rw [Item.Wf] at hx
    exact absurd hc.isTerminal (by rw [hx.1.not_isTerminal]; simp)
  | child p kids =>
    rw [Item.Wf] at hx
    exact absurd hc.isTerminal (by rw [hx.1.not_isTerminal]; simp)

theorem Item.not_value_of_full (hx : x.Wf c) (hc : FullChunk c) : ∀ v, x ≠ .value v := by
  rintro v rfl
  rw [Item.Wf] at hx
  exact absurd hx.isTerminal (by rw [hc.not_isTerminal]; simp)

/-- What the end of a lookup for `key` at the level `kids` under `p` stands for. -/
def Place (C : M.Correct) (a : NodeAlloc M) (p : ℕ) (kids : Kids) (key : List ℕ) : Found → Prop
  | .absent => ∀ v, (key, v) ∉ entries kids
  | .suffix q => ∃ bs w, a.cells.lookup q = some (.suffix bs w) ∧ (key, w) ∈ entries kids ∧
      ∀ a' v, Edits a a' [q] [q] → a'.cells.lookup q = some (.suffix bs v) →
        ∃ kids', Node C a' p kids' ∧ Edits a a' (p :: addrs kids) (p :: addrs kids') ∧
          Replaced key w v (entries kids) (entries kids')
  | .terminal q c => ∃ m, a.cells.lookup q = some (.shell m) ∧ C.Ok m ∧ c < WORD ∧
      (∀ v, (key, v) ∈ entries kids ↔ (C.entries m).lookup c = some v) ∧
      ∀ a' m' v, Edits a a' [q] [q] → a'.cells.lookup q = some (.shell m') → C.Ok m' →
        C.entries m' = put c v (C.entries m) →
        ∃ kids', Node C a' p kids' ∧ Edits a a' (p :: addrs kids) (p :: addrs kids') ∧
          ((∃ w, (C.entries m).lookup c = some w ∧ Replaced key w v (entries kids) (entries kids')) ∨
            (C.entries m).lookup c = none ∧ Inserted key v (entries kids) (entries kids'))

theorem place_terminal (h : Node C a p kids) (hn : NulFree key) (hlt : key.length < CHUNK) :
    Place C a p kids key (.terminal p (pack CHUNK key)) := by
  obtain ⟨m, hm, hok, hent⟩ := h.shell
  have hlast := lastChunk_of_lt hn hlt
  have hval : ∀ v, Item.entries (pack CHUNK key) (.value v) = [(key, v)] := by
    intro v
    rw [Item.entries, termBytes_pack hn hlt]
  refine ⟨m, hm, hok, pack_lt_word hn, fun v => ?_, fun a' m' v hE hm' hok' hent' => ?_⟩
  · rw [mem_entries_iff h.wf, hent, lookup_eq_some_iff (keySorted_words h.wf.sorted), mem_words]
    constructor
    · rintro ⟨x, hx, he⟩
      obtain ⟨w, rfl⟩ := Item.value_of_last ((wf_iff.mp h.wf).2 _ hx) hlast
      rw [hval, List.mem_singleton, Prod.mk.injEq] at he
      exact ⟨_, hx, he.2.symm⟩
    · rintro ⟨x, hx, rfl⟩
      obtain ⟨w, rfl⟩ := Item.value_of_last ((wf_iff.mp h.wf).2 _ hx) hlast
      exact ⟨_, hx, by rw [hval]; exact List.mem_singleton.mpr rfl⟩
  · have hX : ∀ v, addrs [(pack CHUNK key, Item.value v)] = [] := by
      intro v
      simp [addrs, Item.addrs]
    rcases h.wf.cases (pack CHUNK key) with ⟨x, l₁, l₂, rfl, hcut⟩ | ⟨l₁, l₂, rfl, hcut, hno⟩
    · obtain ⟨w, rfl⟩ := Item.value_of_last h.item.2.1 hlast
      refine ⟨l₁ ++ (pack CHUNK key, .value v) :: l₂, ?_⟩
      have hsh : Shell C a' p (l₁ ++ (pack CHUNK key, .value v) :: l₂) := by
        refine ⟨m', hm', hok', ?_⟩
        rw [hent', hent, words_cut, put_cut_mem (cutAt_words hcut), words_cut]
        rfl
      obtain ⟨h1, h2⟩ := Node.splice (X := [(pack CHUNK key, .value w)])
        (Y := [(pack CHUNK key, .value v)]) h (by rw [hX, hX]; exact hE) hsh
        (by simp [Held, Item.Held]) (by simp [hX]) (by simp [hX]) (wf_cut h.wf (by rw [Item.Wf]; exact hlast))
      refine ⟨h1, h2, .inl ⟨w, ?_, ?_⟩⟩
      · rw [hent, lookup_words h.wf.sorted List.mem_append_cons_self]
        rfl
      · rw [entries_cut, entries_cut, hval, hval]
        exact Replaced.append ⟨[], [], rfl, rfl⟩
    · refine ⟨l₁ ++ (pack CHUNK key, .value v) :: l₂, ?_⟩
      have hsh : Shell C a' p (l₁ ++ (pack CHUNK key, .value v) :: l₂) := by
        refine ⟨m', hm', hok', ?_⟩
        rw [hent', hent, words_append, put_cut_new (cutAt_words hcut), words_cut]
        rfl
      obtain ⟨h1, h2⟩ := Node.splice (X := []) (Y := [(pack CHUNK key, .value v)]) h
        (by rw [hX]; simpa [addrs] using hE) hsh
        (by simp [Held, Item.Held]) (by simp [hX]) (by simp [hX])
        (wf_cut_new h.wf hcut (by rw [Item.Wf]; exact hlast))
      refine ⟨h1, h2, .inr ⟨?_, ?_⟩⟩
      · rw [hent, lookup_words_none h.wf.sorted hno]
      · rw [entries_append, entries_cut, hval]
        exact ⟨entries l₁, entries l₂, rfl, rfl⟩

theorem place_suffix {bs : List ℕ} (h : Node C a p (l₁ ++ (c, .suffix q bs w) :: l₂)) :
    Place C a p (l₁ ++ (c, .suffix q bs w) :: l₂) (beBytes c ++ bs) (.suffix q) := by
  obtain ⟨hheld, hwf, -⟩ := h.item
  have hone : ∀ v, Item.entries c (.suffix q bs v) = [(beBytes c ++ bs, v)] := by
    intro v
    rw [Item.entries]
  refine ⟨bs, w, by rwa [Item.Held] at hheld, ?_, fun a' v hE hl => ?_⟩
  · rw [entries_cut, hone]
    simp
  · obtain ⟨h1, h2⟩ := h.replace (y := .suffix q bs v) (by rw [Item.addrs, Item.addrs]; exact hE)
      (by rw [Item.Held]; exact hl) (by simp [Item.addrs]) (by rw [Item.Wf] at hwf ⊢; exact hwf) rfl
    refine ⟨_, h1, h2, ?_⟩
    rw [entries_cut, entries_cut, hone, hone]
    exact Replaced.append ⟨[], [], rfl, rfl⟩

theorem place_child {f : Found} (h : Node C a p (l₁ ++ (c, .child q g) :: l₂))
    (hf : Place C a q g key f) :
    Place C a p (l₁ ++ (c, .child q g) :: l₂) (beBytes c ++ key) f := by
  obtain ⟨hheld, hwf, -⟩ := h.item
  rw [Item.Wf] at hwf
  have hents : ∀ g, Item.entries c (.child q g) = (entries g).map (underChunk c) := by
    intro g
    rw [Item.entries]
  -- a key under this chunk is bound here exactly when its rest is bound in the child
  have hmem : ∀ v, (beBytes c ++ key, v) ∈ entries (l₁ ++ (c, .child q g) :: l₂) ↔
      (key, v) ∈ entries g := by
    intro v
    rw [mem_entries_iff h.wf, hwf.1.pack_append]
    constructor
    · rintro ⟨x, hx, he⟩
      have hxe : x = .child q g := KeySorted.value_unique h.wf.sorted hx List.mem_append_cons_self
      rw [hxe, hents, List.mem_map] at he
      obtain ⟨e, he, heq⟩ := he
      rw [underChunk, Prod.mk.injEq] at heq
      have hk : e.1 = key := List.append_cancel_left heq.1
      rw [← hk, ← heq.2]
      exact he
    · intro he
      refine ⟨.child q g, by simp, ?_⟩
      rw [hents, List.mem_map]
      exact ⟨(key, v), he, rfl⟩
  -- the parent follows a change of the child
  have hup : ∀ a' g', Node C a' q g' → Edits a a' (q :: addrs g) (q :: addrs g') → g' ≠ [] →
      Node C a' p (l₁ ++ (c, .child q g') :: l₂) ∧ Edits a a'
        (p :: addrs (l₁ ++ (c, .child q g) :: l₂)) (p :: addrs (l₁ ++ (c, .child q g') :: l₂)) := by
    intro a' g' hg hE hne
    refine h.replace (y := .child q g') (by rw [Item.addrs, Item.addrs]; exact hE) ?_ ?_ ?_ rfl
    · rw [Item.Held]
      exact ⟨hg.shell, hg.held⟩
    · rw [Item.addrs]
      exact hg.nodup
    · rw [Item.Wf]
      exact ⟨hwf.1, hne, hg.wf⟩
  have hnil : ∀ g', entries g' ≠ [] → g' ≠ [] := by
    rintro _ h rfl
    exact h (by rw [entries])
  cases f with
  | absent => exact fun v hv => hf v ((hmem v).mp hv)
  | suffix r =>
    obtain ⟨bs, w, hl, hw, hupd⟩ := hf
    refine ⟨bs, w, hl, (hmem w).mpr hw, fun a' v hE hl' => ?_⟩
    obtain ⟨g', hg, hE', hrep⟩ := hupd a' v hE hl'
    have hne : entries g' ≠ [] := by
      obtain ⟨r₁, r₂, -, heq⟩ := hrep
      simp [heq]
    obtain ⟨h1, h2⟩ := hup a' g' hg hE' (hnil g' hne)
    refine ⟨_, h1, h2, ?_⟩
    rw [entries_cut, entries_cut, hents, hents]
    exact (hrep.map (beBytes c ++ ·)).append
  | terminal r d =>
    obtain ⟨m, hl, hok, hd, hiff, hupd⟩ := hf
    refine ⟨m, hl, hok, hd, fun v => (hmem v).trans (hiff v), fun a' m' v hE hl' hok' hent' => ?_⟩
    obtain ⟨g', hg, hE', hcase⟩ := hupd a' m' v hE hl' hok' hent'
    have hne : entries g' ≠ [] := by
      rcases hcase with ⟨w, -, r₁, r₂, -, heq⟩ | ⟨-, hins⟩
      · simp [heq]
      · exact hins.ne_nil
    obtain ⟨h1, h2⟩ := hup a' g' hg hE' (hnil g' hne)
    refine ⟨_, h1, h2, ?_⟩
    rw [entries_cut, entries_cut, hents, hents]
    rcases hcase with ⟨w, hw, hrep⟩ | ⟨hnone, hins⟩
    · exact .inl ⟨w, hw, (hrep.map (beBytes c ++ ·)).append⟩
    · exact .inr ⟨hnone, (hins.map (beBytes c ++ ·)).append⟩

theorem chunkAt_of_lt (h : (key.drop off).length < CHUNK) :
    chunkAt key off = (pack CHUNK (key.drop off), true) := by
  rw [chunkAt, decide_eq_true h]

theorem chunkAt_of_le (h : CHUNK ≤ (key.drop off).length) :
    chunkAt key off = (pack CHUNK (key.drop off), false) := by
  rw [chunkAt, decide_eq_false (Nat.not_lt.mpr h)]

section Turn

variable {fuel : ℕ}

theorem locateKey_terminal (h : (key.drop off).length < CHUNK) :
    locateKey a key (fuel + 1) p off = .ok (.terminal p (pack CHUNK (key.drop off))) := by
  rw [locateKey, chunkAt_of_lt h]
  rfl

theorem locateKey_none (h : Node C a p kids) (hn : NulFree key) (hle : CHUNK ≤ (key.drop off).length)
    (hno : ∀ x, (pack CHUNK (key.drop off), x) ∉ kids) :
    locateKey a key (fuel + 1) p off = .ok .absent := by
  obtain ⟨m, hm, hok, hent⟩ := h.shell
  have hget : M.get m (pack CHUNK (key.drop off)) = none := by
    rw [C.get_eq hok (pack_lt_word (hn.drop off)), hent, lookup_words_none h.wf.sorted hno]
  rw [locateKey, chunkAt_of_le hle]
  simp only [Bool.false_eq_true, if_false, shell_eq hm, ok_bind, hget, pure_eq_ok]

theorem locateKey_suffix {bs : List ℕ} (h : Node C a p kids) (hs : a.Sound) (hn : NulFree key)
    (hle : CHUNK ≤ (key.drop off).length)
    (hx : (pack CHUNK (key.drop off), Item.suffix q bs v) ∈ kids) :
    locateKey a key (fuel + 1) p off =
      .ok (if key.drop (off + CHUNK) = bs then .suffix q else .absent) := by
  obtain ⟨m, hm, hok, hent⟩ := h.shell
  obtain ⟨l₁, l₂, rfl, -⟩ := exists_cut_of_mem h.wf.sorted hx
  have hq := h.aligned_suffix hs
  have hget : M.get m (pack CHUNK (key.drop off)) = some (packSuffix q) := by
    rw [C.get_eq hok (pack_lt_word (hn.drop off)), hent, lookup_words h.wf.sorted hx]
    rfl
  have hsfx : a.suffix q = .ok (bs, v) := suffix_eq (by have := h.item.1; rwa [Item.Held] at this)
  rw [locateKey, chunkAt_of_le hle]
  simp only [Bool.false_eq_true, if_false, shell_eq hm, ok_bind, hget, isSuffixPtr_packSuffix hq,
    unpackSuffix_packSuffix hq, hsfx, if_true, pure_eq_ok]

theorem locateKey_child (h : Node C a p kids) (hs : a.Sound) (hn : NulFree key)
    (hle : CHUNK ≤ (key.drop off).length) (hx : (pack CHUNK (key.drop off), Item.child q g) ∈ kids) :
    locateKey a key (fuel + 1) p off = locateKey a key fuel q (off + CHUNK) := by
  obtain ⟨m, hm, hok, hent⟩ := h.shell
  obtain ⟨l₁, l₂, rfl, -⟩ := exists_cut_of_mem h.wf.sorted hx
  have hq := h.aligned_child hs
  have hget : M.get m (pack CHUNK (key.drop off)) = some (packChild q) := by
    rw [C.get_eq hok (pack_lt_word (hn.drop off)), hent, lookup_words h.wf.sorted hx]
    rfl
  rw [locateKey, chunkAt_of_le hle]
  simp only [Bool.false_eq_true, if_false, shell_eq hm, ok_bind, hget, isSuffixPtr_packChild hq]
  rfl

end Turn

/-- The turns left cover the chunks left. -/
def Enough (key : List ℕ) (off fuel : ℕ) : Prop := (key.drop off).length / CHUNK < fuel

theorem enough_turns (key : List ℕ) : Enough key 0 (turns key) := by
  rw [Enough, List.drop_zero]
  exact Nat.lt_succ_self _

theorem Enough.next {fuel : ℕ} (h : Enough key off (fuel + 1)) (hle : CHUNK ≤ (key.drop off).length) :
    Enough key (off + CHUNK) fuel := by
  unfold Enough CHUNK at *
  rw [List.length_drop] at *
  omega

theorem split_key (hn : NulFree key) (hle : CHUNK ≤ (key.drop off).length) :
    key.drop off = beBytes (pack CHUNK (key.drop off)) ++ key.drop (off + CHUNK) := by
  conv_lhs => rw [← beBytes_append_drop (hn.drop off) hle]
  rw [List.drop_drop]

theorem locateKey_spec {fuel : ℕ} (hf : Enough key off fuel) (h : Node C a p kids) (hs : a.Sound)
    (hn : NulFree key) :
    ∃ f, locateKey a key fuel p off = .ok f ∧ Place C a p kids (key.drop off) f := by
  induction fuel generalizing p kids off with
  | zero => exact absurd hf (Nat.not_lt_zero _)
  | succ fuel ih =>
    by_cases hlt : (key.drop off).length < CHUNK
    · exact ⟨_, locateKey_terminal hlt, place_terminal h (hn.drop off) hlt⟩
    · have hle : CHUNK ≤ (key.drop off).length := Nat.not_lt.mp hlt
      have hsplit := split_key hn hle
      rcases h.wf.cases (pack CHUNK (key.drop off)) with ⟨x, l₁, l₂, rfl, hcut⟩ | ⟨l₁, l₂, rfl, hcut, hno⟩
      · cases x with
        | value v =>
          exact absurd rfl (Item.not_value_of_full h.item.2.1 (fullChunk_of_le (hn.drop off) hle) v)
        | suffix q bs v =>
          refine ⟨_, locateKey_suffix h hs hn hle List.mem_append_cons_self, ?_⟩
          by_cases hb : key.drop (off + CHUNK) = bs
          · rw [if_pos hb]
            subst hb
            have hpl := place_suffix h
            rwa [← hsplit] at hpl
          · rw [if_neg hb]
            intro v' hv
            obtain ⟨x, hx, he⟩ := (mem_entries_iff h.wf).mp hv
            have hxe : x = .suffix q bs v := KeySorted.value_unique h.wf.sorted hx List.mem_append_cons_self
            rw [hxe, Item.entries, List.mem_singleton, Prod.mk.injEq] at he
            exact hb (List.append_cancel_left (hsplit.symm.trans he.1))
        | child q g =>
          obtain ⟨f, hf', hpl⟩ := ih (hf.next hle) h.child
          refine ⟨f, by rw [locateKey_child h hs hn hle List.mem_append_cons_self, hf'], ?_⟩
          have hpl' := place_child h hpl
          rwa [← hsplit] at hpl'
      · refine ⟨_, locateKey_none h hn hle hno, fun v hv => ?_⟩
        obtain ⟨x, hx, -⟩ := (mem_entries_iff h.wf).mp hv
        exact hno x hx

end Expanse.StrMap
