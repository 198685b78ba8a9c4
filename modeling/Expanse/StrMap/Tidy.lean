import Mathlib.Algebra.BigOperators.Group.List.Basic
import Expanse.StrMap.ContainerSpec

/-!
# The heap of a string map

What holds of the blocks themselves in every state a run reaches: which word leads where,
that each block is reached along one path, and that the population and the byte counter
are counted block by block. A map without keys therefore has no blocks.
-/

namespace Expanse.StrMap

open SortedAssoc BigEndian NodeAlloc Runs

variable {M : WordMap} {C : M.Correct} {s : ExpanseStrMap M} {a : NodeAlloc M} {kids g : Kids}
  {c p q v : ℕ} {x : Item} {path path' : List ℕ}

/-- The block a continuation word names. -/
def target (v : ℕ) : ℕ := if isSuffixPtr v then unpackSuffix v else unpackChild v

/-- `path` is the list of chunks from the shell at `p` down to the block `q`. -/
inductive Leads (C : M.Correct) (a : NodeAlloc M) : ℕ → List ℕ → ℕ → Prop
  | here (p : ℕ) : Leads C a p [] p
  | down {p c v q : ℕ} {m : M.Map} {path : List ℕ} : a.cells.lookup p = some (.shell m) →
      (c, v) ∈ C.entries m → isTerminal c = false → Leads C a (target v) path q →
      Leads C a p (c :: path) q

/-- Keys that end in a block: terminal entries of a shell, the one key of a suffix leaf. -/
def keysIn (C : M.Correct) : Cell M → ℕ
  | .shell m => (C.entries m).countP fun e => isTerminal e.1
  | .suffix _ _ => 1

structure Tidy (C : M.Correct) (s : ExpanseStrMap M) : Prop where
  root_iff : s.root.isSome ↔ 0 < s.len
  nonempty : ∀ p m, s.alloc.cells.lookup p = some (.shell m) → C.entries m ≠ []
  terminal : ∀ p m c v, s.alloc.cells.lookup p = some (.shell m) → (c, v) ∈ C.entries m →
    isTerminal c = true → ∀ i j, i ≤ j → (beBytes c)[i]? = some 0 → j < CHUNK →
      (beBytes c)[j]? = some 0
  suffixes : ∀ p m c v, s.alloc.cells.lookup p = some (.shell m) → (c, v) ∈ C.entries m →
    isTerminal c = false → isSuffixPtr v = true →
      ∃ bytes w, s.alloc.cells.lookup (unpackSuffix v) = some (.suffix bytes w)
  children : ∀ p m c v, s.alloc.cells.lookup p = some (.shell m) → (c, v) ∈ C.entries m →
    isTerminal c = false → isSuffixPtr v = false →
      ∃ m', s.alloc.cells.lookup (unpackChild v) = some (.shell m')
  onePath : ∀ root, s.root = some root → ∀ q, q ∈ s.alloc.cells ↔ ∃! path, Leads C s.alloc root path q
  noRoot : s.root = none → ∀ q, q ∉ s.alloc.cells
  pop : s.len = (s.alloc.cells.entries.map fun e => keysIn C e.2).sum
  bytes : s.memUsed = total s.alloc.cells

mutual

/-- A live shell inside an item is a level of the trie, and is not empty. -/
theorem Item.level_of_mem (c : ℕ) (x : Item) (hx : x.Held C a) (hw : x.Wf c) (hq : q ∈ x.addrs)
    {m : M.Map} (hl : a.cells.lookup q = some (.shell m)) :
    ∃ g, g ≠ [] ∧ C.entries m = words g ∧ Held C a g ∧ Wf g := by
  cases x with
  | value v => rw [Item.addrs] at hq; exact absurd hq List.not_mem_nil
  | suffix r bs v =>
    rw [Item.addrs, List.mem_singleton] at hq
    rw [Item.Held] at hx
    subst hq
    rw [hx] at hl
    cases hl
  | child r g =>
    rw [Item.addrs, List.mem_cons] at hq
    rw [Item.Held] at hx
    rw [Item.Wf] at hw
    rcases hq with rfl | hq
    · obtain ⟨m', hm', -, hent⟩ := hx.1
      rw [hl] at hm'
      cases hm'
      exact ⟨g, hw.2.1, hent, hx.2, hw.2.2⟩
    · exact level_of_mem g hx.2 hw.2.2 hq hl

theorem level_of_mem (kids : Kids) (hx : Held C a kids) (hw : Wf kids) (hq : q ∈ addrs kids)
    {m : M.Map} (hl : a.cells.lookup q = some (.shell m)) :
    ∃ g, g ≠ [] ∧ C.entries m = words g ∧ Held C a g ∧ Wf g := by
  cases kids with
  | nil => rw [addrs] at hq; exact absurd hq List.not_mem_nil
  | cons e kids =>
    rw [addrs, List.mem_append] at hq
    rw [Held] at hx
    rw [Wf] at hw
    rcases hq with hq | hq
    · exact Item.level_of_mem e.1 e.2 hx.1 hw.1 hq hl
    · exact level_of_mem kids hx.2 hw.2.2 hq hl

end

theorem Node.level (h : Node C a p kids) (hne : kids ≠ []) (hq : q ∈ p :: addrs kids) {m : M.Map}
    (hl : a.cells.lookup q = some (.shell m)) :
    ∃ g, g ≠ [] ∧ C.entries m = words g ∧ Held C a g ∧ Wf g := by
  rcases List.mem_cons.mp hq with rfl | hq
  · obtain ⟨m', hm', -, hent⟩ := h.shell
    rw [hl] at hm'
    cases hm'
    exact ⟨kids, hne, hent, h.held, h.wf⟩
  · exact level_of_mem kids h.held h.wf hq hl

theorem LastChunk.padded (h : LastChunk c) {i j : ℕ} (hij : i ≤ j) (hi : (beBytes c)[i]? = some 0)
    (hj : j < CHUNK) : (beBytes c)[j]? = some 0 := by
  obtain ⟨t, ht, hlt, rfl⟩ := h
  unfold beBytes at hi ⊢
  rw [unpack_pack ht, List.take_of_length_le (Nat.le_of_lt hlt)] at hi ⊢
  have hle : t.length ≤ i := by
    by_contra hgt
    rw [List.getElem?_append_left (by omega)] at hi
    exact absurd (ht 0 (List.mem_of_getElem? hi)).1 (Nat.lt_irrefl 0)
  rw [List.getElem?_append_right (by omega), List.getElem?_replicate, if_pos (by omega)]

theorem target_suffix (h : RAW_ALIGN ∣ q) : target (packSuffix q) = q := by
  rw [target, if_pos (isSuffixPtr_packSuffix h), unpackSuffix_packSuffix h]

theorem target_child (h : RAW_ALIGN ∣ q) : target (packChild q) = q := by
  rw [target, if_neg (by rw [isSuffixPtr_packChild h]; simp)]
  rfl

/-- The first step of a path from a level goes through one of its items. -/
theorem leads_cons (h : Node C a p kids) (hs : a.Sound) (hl : Leads C a p (c :: path) q) :
    ∃ x, (c, x) ∈ kids ∧ ((∃ bs v, x = .suffix q bs v ∧ path = []) ∨
      ∃ r g, x = .child r g ∧ Leads C a r path q) := by
  cases hl with
  | down hm hmem hterm hrest =>
    obtain ⟨m, hm', -, hent⟩ := h.shell
    rw [hm] at hm'
    cases hm'
    rw [hent, mem_words] at hmem
    obtain ⟨x, hx, rfl⟩ := hmem
    obtain ⟨l₁, l₂, rfl, -⟩ := exists_cut_of_mem h.wf.sorted hx
    refine ⟨x, hx, ?_⟩
    cases x with
    | value w =>
      have hw := h.item.2.1
      rw [Item.Wf] at hw
      rw [hw.isTerminal] at hterm
      cases hterm
    | suffix r bs w =>
      have hheld := h.item.1
      rw [Item.Held] at hheld
      rw [Item.word, target_suffix (h.aligned_suffix hs)] at hrest
      cases hrest with
      | here => exact .inl ⟨bs, w, rfl, rfl⟩
      | down hm₂ =>
        rw [hheld] at hm₂
        cases hm₂
    | child r g =>
      rw [Item.word, target_child (h.aligned_child hs)] at hrest
      exact .inr ⟨r, g, rfl, hrest⟩

theorem leads_mem (hs : a.Sound) (h : Node C a p kids) (hl : Leads C a p path q) : q ∈ p :: addrs kids := by
  induction path generalizing p kids with
  | nil =>
    cases hl
    exact List.mem_cons_self
  | cons c path ih =>
    obtain ⟨x, hx, hcase⟩ := leads_cons h hs hl
    have hin : q ∈ x.addrs → q ∈ p :: addrs kids := fun hq => by
      rw [addrs_eq]
      exact List.mem_cons_of_mem p (List.mem_flatMap.mpr ⟨(c, x), hx, hq⟩)
    apply hin
    obtain ⟨l₁, l₂, rfl, -⟩ := exists_cut_of_mem h.wf.sorted hx
    rcases hcase with ⟨bs, v, rfl, -⟩ | ⟨r, g, rfl, hrest⟩
    · rw [Item.addrs]
      exact List.mem_singleton.mpr rfl
    · rw [Item.addrs]
      exact ih h.child hrest

theorem Node.item_unique {y : Item} {d : ℕ} (h : Node C a p kids) (hx : (c, x) ∈ kids) (hy : (d, y) ∈ kids)
    (hqx : q ∈ x.addrs) (hqy : q ∈ y.addrs) : c = d ∧ x = y := by
  obtain ⟨l₁, l₂, rfl, -⟩ := exists_cut_of_mem h.wf.sorted hx
  have hnd := h.nodup
  rw [addrs_cut, List.nodup_cons, List.nodup_append, List.nodup_append] at hnd
  obtain ⟨-, -, ⟨-, -, h₂⟩, h₁⟩ := hnd
  rcases List.mem_append.mp hy with hm | hm
  · refine absurd rfl (h₁ q ?_ q (List.mem_append_left _ hqx))
    rw [addrs_eq]
    exact List.mem_flatMap.mpr ⟨(d, y), hm, hqy⟩
  · rcases List.mem_cons.mp hm with heq | hm
    · cases heq
      exact ⟨rfl, rfl⟩
    · refine absurd rfl (h₂ q hqx q ?_)
      rw [addrs_eq]
      exact List.mem_flatMap.mpr ⟨(d, y), hm, hqy⟩

theorem leads_unique (hs : a.Sound) (h : Node C a p kids) (hl : Leads C a p path q)
    (hl' : Leads C a p path' q) : path = path' := by
  induction path generalizing p kids path' with
  | nil =>
    cases hl
    cases path' with
    | nil => rfl
    | cons c path' =>
      obtain ⟨x, hx, hcase⟩ := leads_cons h hs hl'
      obtain ⟨l₁, l₂, rfl, -⟩ := exists_cut_of_mem h.wf.sorted hx
      refine absurd ?_ h.not_mem_item
      rcases hcase with ⟨bs, v, rfl, -⟩ | ⟨r, g, rfl, hrest⟩
      · simp [Item.addrs]
      · rw [Item.addrs]
        exact leads_mem hs h.child hrest
  | cons c path ih =>
    obtain ⟨x, hx, hcase⟩ := leads_cons h hs hl
    have hqx : q ∈ x.addrs := by
      obtain ⟨l₁, l₂, rfl, -⟩ := exists_cut_of_mem h.wf.sorted hx
      rcases hcase with ⟨bs, v, rfl, -⟩ | ⟨r, g, rfl, hrest⟩
      · simp [Item.addrs]
      · rw [Item.addrs]
        exact leads_mem hs h.child hrest
    cases path' with
    | nil =>
      cases hl'
      obtain ⟨l₁, l₂, rfl, -⟩ := exists_cut_of_mem h.wf.sorted hx
      exact absurd hqx h.not_mem_item
    | cons d path' =>
      obtain ⟨y, hy, hcase'⟩ := leads_cons h hs hl'
      have hqy : q ∈ y.addrs := by
        obtain ⟨l₁, l₂, rfl, -⟩ := exists_cut_of_mem h.wf.sorted hy
        rcases hcase' with ⟨bs, v, rfl, -⟩ | ⟨r, g, rfl, hrest⟩
        · simp [Item.addrs]
        · rw [Item.addrs]
          exact leads_mem hs h.child hrest
      obtain ⟨rfl, rfl⟩ := h.item_unique hx hy hqx hqy
      obtain ⟨l₁, l₂, rfl, -⟩ := exists_cut_of_mem h.wf.sorted hx
      rcases hcase with ⟨bs, v, rfl, rfl⟩ | ⟨r, g, rfl, hrest⟩
      · rcases hcase' with ⟨_, _, heq, rfl⟩ | ⟨r, g, heq, -⟩
        · rfl
        · cases heq
      · rcases hcase' with ⟨_, _, heq, -⟩ | ⟨r', g', heq, hrest'⟩
        · cases heq
        · cases heq
          rw [ih h.child hrest hrest']

mutual

/-- Every block of an item is reached from the block its word names. -/
theorem Item.leads (c : ℕ) (x : Item) (hx : x.Held C a) (hw : x.Wf c)
    (hal : ∀ r ∈ x.addrs, RAW_ALIGN ∣ r) (hq : q ∈ x.addrs) :
    isTerminal c = false ∧ ∃ path, Leads C a (target x.word) path q := by
  cases x with
  | value v => rw [Item.addrs] at hq; exact absurd hq List.not_mem_nil
  | suffix r bs v =>
    rw [Item.addrs] at hq hal
    rw [Item.Wf] at hw
    rw [List.mem_singleton] at hq
    subst hq
    rw [Item.word, target_suffix (hal q List.mem_cons_self)]
    exact ⟨hw.1.not_isTerminal, [], .here q⟩
  | child r g =>
    rw [Item.addrs] at hq hal
    rw [Item.Held] at hx
    rw [Item.Wf] at hw
    rw [Item.word, target_child (hal r List.mem_cons_self)]
    refine ⟨hw.1.not_isTerminal, ?_⟩
    rcases List.mem_cons.mp hq with rfl | hq
    · exact ⟨[], .here q⟩
    · obtain ⟨c', y, path, hy, hterm, hl⟩ :=
        leads_of_mem g hx.2 hw.2.2 (fun r hr => hal r (List.mem_cons_of_mem _ hr)) hq
      obtain ⟨m, hm, -, hent⟩ := hx.1
      exact ⟨c' :: path, .down hm (by rw [hent, mem_words]; exact ⟨y, hy, rfl⟩) hterm hl⟩

theorem leads_of_mem (kids : Kids) (hx : Held C a kids) (hw : Wf kids)
    (hal : ∀ r ∈ addrs kids, RAW_ALIGN ∣ r) (hq : q ∈ addrs kids) :
    ∃ c x path, (c, x) ∈ kids ∧ isTerminal c = false ∧ Leads C a (target x.word) path q := by
  cases kids with
  | nil => rw [addrs] at hq; exact absurd hq List.not_mem_nil
  | cons e kids =>
    rw [addrs] at hq hal
    rw [Held] at hx
    rw [Wf] at hw
    rcases List.mem_append.mp hq with hq | hq
    · obtain ⟨hterm, path, hl⟩ :=
        Item.leads e.1 e.2 hx.1 hw.1 (fun r hr => hal r (List.mem_append_left _ hr)) hq
      exact ⟨e.1, e.2, path, List.mem_cons_self, hterm, hl⟩
    · obtain ⟨c, x, path, hx', hterm, hl⟩ :=
        leads_of_mem kids hx.2 hw.2.2 (fun r hr => hal r (List.mem_append_right _ hr)) hq
      exact ⟨c, x, path, List.mem_cons_of_mem _ hx', hterm, hl⟩

end

theorem Node.leads (h : Node C a p kids) (hs : a.Sound) (hq : q ∈ p :: addrs kids) :
    ∃ path, Leads C a p path q := by
  have hal := h.aligned hs
  rcases List.mem_cons.mp hq with rfl | hq
  · exact ⟨[], .here q⟩
  · obtain ⟨c, x, path, hx, hterm, hl⟩ :=
      leads_of_mem kids h.held h.wf (fun r hr => hal r (List.mem_cons_of_mem _ hr)) hq
    obtain ⟨m, hm, -, hent⟩ := h.shell
    exact ⟨c :: path, .down hm (by rw [hent, mem_words]; exact ⟨x, hx, rfl⟩) hterm hl⟩

/-- The keys that end in the block at `q`. -/
def weight (C : M.Correct) (a : NodeAlloc M) (q : ℕ) : ℕ := (a.cells.lookup q).elim 0 (keysIn C)

/-- The words of `kids` that are values. -/
def terminals (kids : Kids) : ℕ := (words kids).countP fun e => isTerminal e.1

theorem weight_shell (h : Shell C a p kids) : weight C a p = terminals kids := by
  obtain ⟨m, hm, -, hent⟩ := h
  rw [weight, hm, Option.elim_some, keysIn, hent, terminals]

theorem weight_suffix {bs : List ℕ} (h : a.cells.lookup q = some (.suffix bs v)) : weight C a q = 1 := by
  rw [weight, h]
  rfl

theorem terminals_cons (e : ℕ × Item) (kids : Kids) :
    terminals (e :: kids) = terminals kids + if isTerminal e.1 then 1 else 0 :=
  List.countP_cons

mutual

/-- A value is counted at its own level; the keys of any other item in its blocks. -/
theorem Item.keys_eq (c : ℕ) (x : Item) (hx : x.Held C a) (hw : x.Wf c) :
    (x.addrs.map (weight C a)).sum + (if isTerminal c then 1 else 0) = (x.entries c).length := by
  cases x with
  | value v =>
    rw [Item.Wf] at hw
    rw [Item.addrs, Item.entries, hw.isTerminal]
    rfl
  | suffix r bs v =>
    rw [Item.Wf] at hw
    rw [Item.Held] at hx
    rw [Item.addrs, Item.entries, hw.1.not_isTerminal, List.map_singleton, weight_suffix hx]
    rfl
  | child r g =>
    rw [Item.Wf] at hw
    rw [Item.Held] at hx
    have := keys_eq g hx.2 hw.2.2
    rw [Item.addrs, Item.entries, hw.1.not_isTerminal, List.map_cons, List.sum_cons,
      weight_shell hx.1, List.length_map, if_neg (by simp)]
    omega

theorem keys_eq (kids : Kids) (hx : Held C a kids) (hw : Wf kids) :
    ((addrs kids).map (weight C a)).sum + terminals kids = (entries kids).length := by
  cases kids with
  | nil =>
    rw [addrs, entries]
    rfl
  | cons e kids =>
    rw [Held] at hx
    rw [Wf] at hw
    have h₁ := Item.keys_eq e.1 e.2 hx.1 hw.1
    have h₂ := keys_eq kids hx.2 hw.2.2
    rw [addrs, entries, terminals_cons, List.map_append, List.sum_append, List.length_append]
    omega

end

theorem sum_cells (a : NodeAlloc M) :
    (a.cells.entries.map fun e => keysIn C e.2).sum = (a.cells.keys.map (weight C a)).sum := by
  rw [AList.keys, List.keys, List.map_map]
  congr 1
  apply List.map_congr_left
  intro e he
  have : a.cells.lookup e.1 = some e.2 := AList.mem_lookup_iff.mpr he
  rw [Function.comp_apply, weight, this, Option.elim_some]

theorem Node.keys_eq (h : Node C a p kids) (hlive : ∀ q, q ∈ a.cells ↔ q ∈ p :: addrs kids) :
    (a.cells.entries.map fun e => keysIn C e.2).sum = (entries kids).length := by
  have hperm : a.cells.keys.Perm (p :: addrs kids) :=
    (List.perm_ext_iff_of_nodup a.cells.keys_nodup h.nodup).mpr fun q => by
      rw [AList.mem_keys.symm]
      exact hlive q
  have := StrMap.keys_eq kids h.held h.wf
  rw [sum_cells, (hperm.map _).sum_eq, List.map_cons, List.sum_cons, weight_shell h.shell]
  omega

theorem Rep.live (h : Rep C s kids) (hq : q ∈ s.alloc.cells) :
    kids ≠ [] ∧ ∃ p, s.root = some p ∧ Node C s.alloc p kids ∧ q ∈ p :: addrs kids := by
  have ht := h.tree
  unfold RootHolds at ht
  cases hr : s.root with
  | none =>
    rw [hr] at ht
    exact absurd hq (ht.2 q)
  | some p =>
    rw [hr] at ht
    exact ⟨ht.1, p, rfl, ht.2.1, (ht.2.2 q).mp hq⟩

/-- Every live shell is a non-empty level of the trie. -/
theorem Rep.level (h : Rep C s kids) {m : M.Map} (hl : s.alloc.cells.lookup q = some (.shell m)) :
    ∃ g, g ≠ [] ∧ C.entries m = words g ∧ Held C s.alloc g ∧ Wf g := by
  obtain ⟨hne, p, -, hnode, hq⟩ := h.live (mem_of_lookup hl)
  exact hnode.level hne hq hl

theorem Rep.level_item (h : Rep C s kids) {m : M.Map} (hl : s.alloc.cells.lookup q = some (.shell m))
    (hv : (c, v) ∈ C.entries m) : ∃ x : Item, x.Held C s.alloc ∧ x.Wf c ∧ v = x.word := by
  obtain ⟨g, -, hent, hheld, hwf⟩ := h.level hl
  rw [hent, mem_words] at hv
  obtain ⟨x, hx, rfl⟩ := hv
  exact ⟨x, held_iff.mp hheld _ hx, (wf_iff.mp hwf).2 _ hx, rfl⟩

/-- The block of a continuation word is live, and the tag of the word says of which kind it is. -/
theorem Item.block (h : x.Held C a) (hw : x.Wf c) (hs : a.Sound) (hterm : isTerminal c = false) :
    (isSuffixPtr x.word = true ∧ ∃ bs w, a.cells.lookup (unpackSuffix x.word) = some (.suffix bs w)) ∨
      isSuffixPtr x.word = false ∧ ∃ m, a.cells.lookup (unpackChild x.word) = some (.shell m) := by
  cases x with
  | value v =>
    rw [Item.Wf] at hw
    rw [hw.isTerminal] at hterm
    cases hterm
  | suffix r bs w =>
    rw [Item.Held] at h
    have hal := hs.aligned r (mem_of_lookup h)
    rw [Item.word, isSuffixPtr_packSuffix hal, unpackSuffix_packSuffix hal]
    exact .inl ⟨rfl, bs, w, h⟩
  | child r g =>
    rw [Item.Held] at h
    obtain ⟨m, hm, -⟩ := h.1
    have hal := hs.aligned r (mem_of_lookup hm)
    rw [Item.word, isSuffixPtr_packChild hal]
    exact .inr ⟨rfl, m, hm⟩

theorem Rep.tidy (h : Rep C s kids) : Tidy C s where
  root_iff := by
    have ht := h.tree
    unfold RootHolds at ht
    rw [ExpanseStrMap.len, h.pop]
    cases hr : s.root with
    | none =>
      rw [hr] at ht
      rw [ht.1, entries]
      simp
    | some p =>
      rw [hr] at ht
      exact iff_of_true rfl (List.length_pos_iff.mpr (entries_ne_nil kids h.wf ht.1))
  nonempty p m hl := by
    obtain ⟨g, hne, hent, -⟩ := h.level hl
    rw [hent, words]
    simpa using hne
  terminal p m c v hl hv hterm i j hij hi hj := by
    obtain ⟨x, -, hw, -⟩ := h.level_item hl hv
    cases x with
    | value w =>
      rw [Item.Wf] at hw
      exact hw.padded hij hi hj
    | suffix r bs w =>
      rw [Item.Wf] at hw
      rw [hw.1.not_isTerminal] at hterm
      cases hterm
    | child r g =>
      rw [Item.Wf] at hw
      rw [hw.1.not_isTerminal] at hterm
      cases hterm
  suffixes p m c v hl hv hterm hsuf := by
    obtain ⟨x, hx, hw, rfl⟩ := h.level_item hl hv
    rcases Item.block hx hw h.sound hterm with ⟨-, hblock⟩ | ⟨hno, -⟩
    · exact hblock
    · rw [hno] at hsuf
      cases hsuf
  children p m c v hl hv hterm hsuf := by
    obtain ⟨x, hx, hw, rfl⟩ := h.level_item hl hv
    rcases Item.block hx hw h.sound hterm with ⟨hno, -⟩ | ⟨-, hblock⟩
    · rw [hno] at hsuf
      cases hsuf
    · exact hblock
  onePath p hr q := by
    obtain ⟨hnode, hlive⟩ := h.node hr
    rw [hlive]
    constructor
    · intro hq
      obtain ⟨path, hl⟩ := hnode.leads h.sound hq
      exact ⟨path, hl, fun path' hl' => leads_unique h.sound hnode hl' hl⟩
    · rintro ⟨path, hl, -⟩
      exact leads_mem h.sound hnode hl
  noRoot hr q hq := by
    obtain ⟨-, p, hr', -⟩ := h.live hq
    rw [hr] at hr'
    cases hr'
  pop := by
    rw [ExpanseStrMap.len, h.pop]
    have ht := h.tree
    unfold RootHolds at ht
    cases hr : s.root with
    | none =>
      rw [hr] at ht
      rw [ht.1, entries, entries_of_no_cells ht.2]
      rfl
    | some p =>
      rw [hr] at ht
      exact (ht.2.1.keys_eq ht.2.2).symm
  bytes := h.sound.bytes

theorem drain_holds {m : List ℕ → Option ℕ} (P : Placement) (h : Holds C s m) (ks : List NulFreeStr) :
    ∃ outs s', run (ExpanseStrMap.step P) s (ks.map .remove) = .ok (outs, s') ∧
      Holds C s' fun k => if k ∈ ks.map NulFreeStr.bytes then none else m k := by
  induction ks generalizing s m with
  | nil => exact ⟨[], s, rfl, by simpa using h⟩
  | cons key ks ih =>
    obtain ⟨⟨old, s₁⟩, hrem, -, h₁⟩ := (remove_holds key h).total trivial
    obtain ⟨outs, s', hrun, h'⟩ := ih h₁
    refine ⟨.value old :: outs, s', ?_, ?_⟩
    · rw [List.map_cons, run, ExpanseStrMap.step, hrem, ok_bind]
      simp only [pure_eq_ok, hrun]
    · convert h' using 2 with k
      by_cases hk : k = key.bytes
      · simp [hk]
      · simp [hk]

theorem holds_none (h : Holds C s fun _ => none) :
    s.root = none ∧ s.len = 0 ∧ (∀ q, q ∉ s.alloc.cells) ∧ s.memUsed = 0 := by
  obtain ⟨kids, hrep, hg⟩ := h
  have hnil : entries kids = [] := by
    rw [List.eq_nil_iff_forall_not_mem]
    rintro ⟨k, v⟩ hv
    cases (hg k v).mpr hv
  have hlen : s.len = 0 := by rw [ExpanseStrMap.len, hrep.pop, hnil, List.length_nil]
  have hroot : s.root = none := by
    rw [← Option.not_isSome_iff_eq_none, hrep.tidy.root_iff, hlen]
    exact Nat.lt_irrefl 0
  have hno := hrep.tidy.noRoot hroot
  exact ⟨hroot, hlen, hno, bytesInUse_of_no_cells hrep.sound hno⟩

/-- The states of a map that starts empty and is changed by the operations and by stores
through slots it has handed out. -/
inductive ExpanseStrMap.Reachable (P : Placement) : ExpanseStrMap M → Prop
  | new : Reachable P .new
  | step {s s' : ExpanseStrMap M} {op : ExpanseStrMap.Op} {out : ExpanseStrMap.Out} :
      Reachable P s → s.step P op = .ok (out, s') → Reachable P s'
  | store {s s' : ExpanseStrMap M} {key : NulFreeStr} {slot : ValueSlot M} {v : ℕ} :
      Reachable P s → s.getValueSlot key = .ok (some slot) → s.writeSlot slot v = .ok s' →
      Reachable P s'

theorem Rep.graph (h : Rep C s kids) : Graph (fun k => (entries kids).lookup k) (entries kids) := by
  intro k v
  rw [List.lookup_eq_some_iff]
  constructor
  · rintro ⟨l₁, l₂, hl, -⟩
    rw [hl]
    exact List.mem_append_cons_self
  · intro hv
    obtain ⟨l₁, l₂, hl⟩ := List.append_of_mem hv
    refine ⟨l₁, l₂, hl, fun e he => ?_⟩
    have ho := h.ordered
    rw [hl] at ho
    simpa using Ne.symm (ho.cut e (List.mem_append_left l₂ he))

theorem ExpanseStrMap.Reachable.rep {P : Placement} (h : s.Reachable P) : ∃ kids, Rep C s kids := by
  induction h with
  | new => exact ⟨[], rep_new⟩
  | step _ hstep ih =>
    obtain ⟨kids, hrep⟩ := ih
    obtain ⟨-, kids', hrep', -⟩ := (step_holds P ⟨kids, hrep, hrep.graph⟩ _).of_ok hstep
    exact ⟨kids', hrep'⟩
  | store _ hslot hw ih =>
    obtain ⟨kids, hrep⟩ := ih
    obtain ⟨r, hr, -, hof⟩ := getValueSlot_spec _ hrep
    rw [hslot] at hr
    cases hr
    obtain ⟨_, -, -, hstore⟩ := hof _ rfl
    obtain ⟨s', kids', hs', hrep', -⟩ := hstore _
    rw [hw] at hs'
    cases hs'
    exact ⟨kids', hrep'⟩

theorem Rep.drains (P : Placement) (h : Rep C s kids) {ks : List NulFreeStr}
    (hall : ∀ key v, s.get key = .ok (some v) → key ∈ ks) :
    ∃ outs s', run (ExpanseStrMap.step P) s (ks.map .remove) = .ok (outs, s') ∧
      s'.root = none ∧ s'.len = 0 ∧ (∀ q, q ∉ s'.alloc.cells) ∧ s'.memUsed = 0 := by
  obtain ⟨outs, s', hrun, h'⟩ := drain_holds P ⟨kids, h, h.graph⟩ ks
  refine ⟨outs, s', hrun, holds_none (C := C) ?_⟩
  convert h' using 2 with k
  symm
  rw [ite_eq_left_iff]
  intro hk
  by_contra hne
  obtain ⟨v, hv⟩ := Option.ne_none_iff_exists'.mp hne
  have hmem := (h.graph k v).mp hv
  refine hk (List.mem_map.mpr ⟨⟨k, nulFree_of_mem kids h.wf hmem⟩, hall _ v ?_, rfl⟩)
  rw [h.get_eq _ h.graph, hv]

end Expanse.StrMap
