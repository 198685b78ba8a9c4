import Expanse.Alloc.Census

/-!
# Unlinking the blocks of free pages

A freelist is rewritten in place: the blocks on free pages are left out, and each block that
stays is linked to the next one that does. The slab list is then built anew from the pages that
stay, while the others are given back.
-/

namespace Expanse.Alloc

open SysHeap NextFit Intervals NodeAlloc

variable {w : World} {s : NodeAlloc} {h : Heap} {m : Memory} {held rest : List Chunk} {F G : ℕ → List ℕ}
  {pages : List Page} {B : List Block} {p q : Page} {c a cur kept fuel : ℕ} {l : List ℕ} {n : Page → ℕ}
  {counts : List PageCount} {keep : ℕ → Bool}

theorem unlinkLoop_ok {K : List ℕ} {x : ℕ} (hkeep : ∀ a ∈ l, onFreePage counts a = .ok (!keep a))
    (hK : K = [] → kept = 0) (hseg : Segment m kept K x) (hl : Chain m cur l)
    (hown : ∀ a ∈ K ++ l, Heap.Owns ⟨m, held⟩ a 8) (hlt : ∀ a ∈ l, a < ADDRESSES)
    (hap : ((K ++ l).map fun a => (a, 8)).Pairwise Apart) (hf : l.length < fuel) :
    ∃ kept' m' x', unlinkLoop counts fuel cur kept K.getLast? ⟨m, held⟩ =
        .ok (kept', (K ++ l.filter keep).getLast?, ⟨m', held⟩) ∧
      (K ++ l.filter keep = [] → kept' = 0) ∧ Segment m' kept' (K ++ l.filter keep) x' ∧
      ∀ y, (∀ a ∈ K ++ l, y < a ∨ a + 8 ≤ y) → m' y = m y := by
  induction l generalizing cur kept fuel m K x with
  | nil =>
    obtain ⟨fuel, rfl⟩ : ∃ k, fuel = k + 1 := ⟨fuel - 1, by omega⟩
    rw [List.filter_nil, List.append_nil]
    refine ⟨kept, m, x, ?_, hK, hseg, fun _ _ => rfl⟩
    rw [unlinkLoop, if_pos (chain_nil.mp hl)]
  | cons a l ih =>
    obtain ⟨rfl, hne, hrest⟩ := hl
    rw [List.length_cons] at hf
    obtain ⟨fuel, rfl⟩ : ∃ k, fuel = k + 1 := ⟨fuel - 1, by omega⟩
    have hf' : l.length < fuel := by omega
    have hkeep' : ∀ b ∈ l, onFreePage counts b = .ok (!keep b) := fun b hb => hkeep b (List.mem_cons_of_mem _ hb)
    have hlt' : ∀ b ∈ l, b < ADDRESSES := fun b hb => hlt b (List.mem_cons_of_mem _ hb)
    have hmid : K ++ cur :: l = K ++ [cur] ++ l := by rw [List.append_assoc, List.singleton_append]
    rw [unlinkLoop, if_neg hne, Heap.read_ok (hown cur (List.mem_append_right _ List.mem_cons_self)), ok_bind,
      hkeep cur List.mem_cons_self, ok_bind]
    cases hk : keep cur with
    | false =>
      have hsub : (K ++ l).Sublist (K ++ cur :: l) := (List.sublist_cons_self _ _).append_left _
      obtain ⟨kept', m', x', hloop, hnil, hseg', hsame⟩ := ih hkeep' hK hseg hrest
        (fun b hb => hown b (hsub.subset hb)) hlt' (hap.sublist (hsub.map _)) hf'
      rw [List.filter_cons_of_neg (by rw [hk]; decide)]
      exact ⟨kept', m', x', hloop, hnil, hseg', fun y hy => hsame y fun b hb => hy b (hsub.subset hb)⟩
    | true =>
      rw [List.filter_cons_of_pos hk]
      rcases List.eq_nil_or_concat K with rfl | ⟨K₀, t, rfl⟩
      · -- the first block that stays is the new head
        have hseg₁ : Segment m cur [cur] (readWord m cur) := ⟨rfl, hne, rfl⟩
        obtain ⟨kept', m', x', hloop, hnil, hseg', hsame⟩ :=
          ih hkeep' (by simp) hseg₁ hrest hown hlt' hap hf'
        exact ⟨kept', m', x', hloop, hnil, hseg', hsame⟩
      · -- the block before it is linked to it
        rw [List.concat_eq_append] at *
        have hcur : cur < ADDRESSES := hlt cur List.mem_cons_self
        have hmem : t ∈ K₀ ++ [t] ++ cur :: l := by simp
        rw [List.map_append, List.map_append, List.append_assoc] at hap
        obtain ⟨-, htail, hhead⟩ := List.pairwise_append.mp hap
        have hbefore : ∀ b ∈ K₀, Apart (t, 8) (b, 8) := fun b hb =>
          (hhead _ (List.mem_map_of_mem hb) (t, 8) List.mem_cons_self).symm
        have hafter : ∀ b ∈ l, Apart (t, 8) (b, 8) := fun b hb =>
          (List.pairwise_cons.mp htail).1 _ (List.mem_cons_of_mem _ (List.mem_map_of_mem hb))
        have hnext : Apart (t, 8) (cur, 8) := (List.pairwise_cons.mp htail).1 _ List.mem_cons_self
        have hseg₁ := (hseg.relink hcur hbefore).snoc hne
        rw [readWord_writeWord_of_apart hnext] at hseg₁
        have hchain₁ : Chain (writeWord m t cur) (readWord m cur) l :=
          hrest.congr fun b hb => readWord_writeWord_of_apart (hafter b hb)
        have hwrite : Heap.write ⟨m, held⟩ t cur = .ok ⟨writeWord m t cur, held⟩ := Heap.write_ok (hown t hmem)
        rw [hmid] at hown ⊢
        have hap' : (((K₀ ++ [t] ++ [cur]) ++ l).map fun a => (a, 8)).Pairwise Apart := by
          rw [← hmid, List.map_append, List.map_append, List.append_assoc]
          exact hap
        obtain ⟨kept', m', x', hloop, hnil, hseg', hsame⟩ :=
          ih hkeep' (by simp) hseg₁ hchain₁ hown hlt' hap' hf'
        rw [List.append_assoc _ [cur], List.singleton_append] at hloop hnil hseg'
        refine ⟨kept', m', x', ?_, hnil, hseg', ?_⟩
        · rw [List.getLast?_concat] at hloop ⊢
          rw [Bool.not_true, if_neg Bool.false_ne_true]
          dsimp only
          rw [hwrite, ok_bind]
          exact hloop
        · intro y hy
          rw [hsame y hy]
          exact writeWord_of_apart (hy t (by simp))

/-- A freelist keeps the blocks that stay, in order. -/
theorem unlinkList_ok (hkeep : ∀ a ∈ l, onFreePage counts a = .ok (!keep a)) (hl : Chain m cur l)
    (hown : ∀ a ∈ l, Heap.Owns ⟨m, held⟩ a 8) (hlt : ∀ a ∈ l, a < ADDRESSES)
    (hap : (l.map fun a => (a, 8)).Pairwise Apart) (hf : l.length < fuel) :
    ∃ kept tail m', unlinkLoop counts fuel cur 0 none ⟨m, held⟩ = .ok (kept, tail, ⟨m', held⟩) ∧
      (∀ t, tail = some t → Heap.Owns ⟨m', held⟩ t 8) ∧
      Chain (tail.elim m' fun t => writeWord m' t 0) kept (l.filter keep) ∧
      ∀ y, (∀ a ∈ l, y < a ∨ a + 8 ≤ y) → (tail.elim m' fun t => writeWord m' t 0) y = m y := by
  obtain ⟨kept, m', x, hloop, hnil, hseg, hsame⟩ :=
    unlinkLoop_ok (K := []) (x := 0) hkeep (fun _ => rfl) rfl hl hown hlt hap hf
  rw [List.nil_append] at hloop hnil hseg
  have hmem : ∀ a ∈ l.filter keep, a ∈ l := fun a ha => (List.mem_filter.mp ha).1
  have hap' : ((l.filter keep).map fun a => (a, 8)).Pairwise Apart := hap.sublist (List.filter_sublist.map _)
  refine ⟨kept, _, m', hloop, ?_⟩
  generalize l.filter keep = K at hnil hseg hmem hap' ⊢
  rcases List.eq_nil_or_concat K with rfl | ⟨K₀, t, rfl⟩
  · exact ⟨by simp, hnil rfl, hsame⟩
  · rw [List.concat_eq_append] at *
    rw [List.getLast?_concat]
    rw [List.map_append] at hap'
    obtain ⟨-, -, hlast⟩ := List.pairwise_append.mp hap'
    have hbefore : ∀ b ∈ K₀, Apart (t, 8) (b, 8) := fun b hb =>
      (hlast _ (List.mem_map_of_mem hb) (t, 8) List.mem_cons_self).symm
    have ht : t ∈ l := hmem t (by simp)
    refine ⟨?_, segment_zero.mp (hseg.relink (by decide) hbefore), ?_⟩
    · intro b hb
      cases hb
      exact hown t ht
    · intro y hy
      exact (writeWord_of_apart (hy t ht)).trans (hsame y hy)

theorem Holds.words_apart_of_ne (hB : Holds h pages (freeBlocks F ++ B)) {d b : ℕ} (hc : c < NUM_CLASSES)
    (hd : d < NUM_CLASSES) (hcd : c ≠ d) (ha : a ∈ F c) (hb : b ∈ F d) : Apart (a, 8) (b, 8) := by
  obtain ⟨-, hblocks, -⟩ := List.pairwise_append.mp hB.apart
  rw [List.map_append] at hblocks
  have hfree := (List.pairwise_append.mp hblocks).1
  rw [freeBlocks, List.map_flatMap, List.pairwise_flatMap] at hfree
  have hcross := hfree.2
  have : Std.Symm fun c d => ∀ x ∈ ((F c).map (Block.ofClass c)).map Block.span,
      ∀ y ∈ ((F d).map (Block.ofClass d)).map Block.span, Apart x y :=
    ⟨fun _ _ hxy x hx y hy => (hxy y hy x hx).symm⟩
  have hap := hcross.forall (List.mem_range.mpr hc) (List.mem_range.mpr hd) hcd
    _ (List.mem_map_of_mem (List.mem_map_of_mem ha)) _ (List.mem_map_of_mem (List.mem_map_of_mem hb))
  exact hap.inside ⟨le_refl _, Nat.add_le_add_left (classFacts hc).word _⟩
    ⟨le_refl _, Nat.add_le_add_left (classFacts hd).word _⟩

theorem Holds.word_header_apart (hB : Holds h pages (freeBlocks F ++ B)) (hc : c < NUM_CLASSES) (ha : a ∈ F c)
    (hp : p ∈ pages) : Apart (a, 8) p.header := by
  obtain ⟨-, -, hcross⟩ := List.pairwise_append.mp hB.apart
  have hmem : Block.ofClass c a ∈ freeBlocks F ++ B :=
    List.mem_append_left _ (mem_freeBlocks.mpr ⟨c, hc, a, ha, rfl⟩)
  have hap := hcross _ (List.mem_map_of_mem hp) _ (List.mem_map_of_mem hmem)
  exact hap.symm.inside ⟨le_refl _, Nat.add_le_add_left (classFacts hc).word _⟩ ⟨le_refl _, le_refl _⟩

/-- Writes to the first words of one class keep what the others and the headers read. -/
theorem Links.of_class (hl : Links s m G pages) {h : Heap} (hB : Holds h pages (freeBlocks F ++ B))
    (hG : ∀ d, (G d).Sublist (F d)) (hc : c < NUM_CLASSES) {m' : Memory}
    (hsame : ∀ y, (∀ a ∈ G c, y < a ∨ a + 8 ≤ y) → m' y = m y) {head : ℕ} (hchain : Chain m' head l) :
    Links (s.setFreelist c head) m' (Function.update G c l) pages := by
  have hword : ∀ b, (∀ a ∈ G c, Apart (a, 8) (b, 8)) → readWord m' b = readWord m b := by
    intro b hb
    refine readWord_congr fun y h1 h2 => hsame y fun a ha => ?_
    have hap := hb a ha
    unfold Apart at hap
    dsimp only at hap
    omega
  refine ⟨?_, ?_, ?_⟩
  · intro d hd
    by_cases hdc : d = c
    · subst hdc
      rw [freelists_setFreelist, Function.update_self, Function.update_self]
      exact hchain
    · rw [freelists_setFreelist, Function.update_of_ne hdc, Function.update_of_ne hdc]
      refine (hl.chain d hd).congr fun b hb => hword b fun a ha => ?_
      exact hB.words_apart_of_ne hc hd (Ne.symm hdc) ((hG c).subset ha) ((hG d).subset hb)
  · refine hl.slab.congr fun b hb => hword b fun a ha => ?_
    obtain ⟨p, hp, rfl⟩ := List.mem_map.mp hb
    have hle : 8 ≤ SLAB_HEADER := by decide
    exact (hB.word_header_apart hc ((hG c).subset ha) hp).inside ⟨le_refl _, le_refl _⟩
      ⟨le_refl _, Nat.add_le_add_left hle _⟩
  · intro p hp
    have hle : 8 + 8 ≤ SLAB_HEADER := by decide
    have hcls : readWord m' (p.base + 8) = readWord m (p.base + 8) := by
      refine hword _ fun a ha => ?_
      refine (hB.word_header_apart hc ((hG c).subset ha) hp).inside ⟨le_refl _, le_refl _⟩
        ⟨Nat.le_add_right _ _, ?_⟩
      change p.base + 8 + 8 ≤ p.base + SLAB_HEADER
      omega
    rw [hcls]
    exact hl.header p hp

theorem unlinkClasses_ok {L : List ℕ} (hL : ∀ c ∈ L, c < NUM_CLASSES) (hnd : L.Nodup)
    (hB : Holds ⟨m, held⟩ pages (freeBlocks F ++ B)) (hnil : ∀ c, isSlabClass c = false → F c = [])
    (hkeep : ∀ c < NUM_CLASSES, ∀ a ∈ F c, onFreePage counts a = .ok (!keep a))
    (hG : ∀ d, (G d).Sublist (F d)) (hl : Links s m G pages) :
    ∃ s' m', L.foldlM (unlinkClass counts) (s, ⟨m, held⟩) = .ok (s', ⟨m', held⟩) ∧
      Links s' m' (fun d => if d ∈ L then (G d).filter keep else G d) pages ∧
      s'.bytesInUse = s.bytesInUse ∧ s'.liveAllocs = s.liveAllocs := by
  induction L generalizing s m G with
  | nil =>
    refine ⟨s, m, rfl, ?_, rfl, rfl⟩
    simpa using hl
  | cons c L ih =>
    have hc := hL c List.mem_cons_self
    obtain ⟨hnot, hnd'⟩ := List.nodup_cons.mp hnd
    have hstep : ∃ t m₁, unlinkClass counts (s, ⟨m, held⟩) c = .ok (t, ⟨m₁, held⟩) ∧
        Links t m₁ (Function.update G c ((G c).filter keep)) pages ∧
        t.bytesInUse = s.bytesInUse ∧ t.liveAllocs = s.liveAllocs := by
      unfold unlinkClass
      cases hs : isSlabClass c with
      | false =>
        have hGc : G c = [] := List.sublist_nil.mp (hnil c hs ▸ hG c)
        refine ⟨s, m, rfl, ?_, rfl, rfl⟩
        rwa [hGc, List.filter_nil, ← hGc, Function.update_eq_self]
      | true =>
        have hsub := hG c
        have hshort : (G c).length < ADDRESSES + 1 :=
          Nat.lt_succ_of_le (hsub.length_le.trans (hB.free_short hc))
        have howns : ∀ a ∈ G c, Heap.Owns ⟨m, held⟩ a 8 := fun a ha => (hB.free_lt hc (hsub.subset ha)).2
        obtain ⟨kept, tail, m', hloop, hown, hchain, hsame⟩ := unlinkList_ok
          (fun a ha => hkeep c hc a (hsub.subset ha)) (hl.chain c hc) howns
          (fun a ha => by
            have := (hB.free_lt hc (hsub.subset ha)).1
            omega)
          ((hB.words_apart hc).sublist (hsub.map _)) hshort
        have hlinks := hl.of_class hB hG hc hsame hchain
        cases tail with
        | none => exact ⟨s.setFreelist c kept, m', by simp [hloop], hlinks, rfl, rfl⟩
        | some t =>
          have hwrite : Heap.write ⟨m', held⟩ t 0 = .ok ⟨writeWord m' t 0, held⟩ := Heap.write_ok (hown t rfl)
          exact ⟨s.setFreelist c kept, writeWord m' t 0, by simp [hloop, hwrite], hlinks, rfl, rfl⟩
    obtain ⟨t, m₁, hclass, hlinks, hbytes, hallocs⟩ := hstep
    have hG' : ∀ d, (Function.update G c ((G c).filter keep) d).Sublist (F d) := by
      intro d
      by_cases hdc : d = c
      · subst hdc
        rw [Function.update_self]
        exact List.filter_sublist.trans (hG d)
      · rw [Function.update_of_ne hdc]
        exact hG d
    obtain ⟨s', m', hfold, hlinks', hbytes', hallocs'⟩ :=
      ih (m := m₁) (fun d hd => hL d (List.mem_cons_of_mem _ hd)) hnd' (hB.of_held rfl) hG' hlinks
    refine ⟨s', m', ?_, ?_, hbytes'.trans hbytes, hallocs'.trans hallocs⟩
    · rw [List.foldlM_cons, hclass, ok_bind, hfold]
    · convert hlinks' using 1
      funext d
      by_cases hdc : d = c
      · subst hdc
        rw [if_pos List.mem_cons_self, if_neg hnot, Function.update_self]
      · simp [hdc]

/-- `R` is the list built so far, and `L` what is left of the pages; those of `stay` stay. -/
theorem rebuildSlabs_ok {L R : List Page} {stay : Page → Bool} {head : ℕ} (released : ℕ)
    (hfree : ∀ p ∈ L, (census n p).isFree = !stay p) (hhead : head < ADDRESSES)
    (hl : Chain m head (R.map Page.base))
    (hh : ∀ p ∈ L, readWord m (p.base + 8) = p.cls ∧ p.cls < NUM_CLASSES)
    (hp : held.Perm ((L.filter fun p => !stay p).map Page.chunk ++ rest))
    (hrest : ∀ p ∈ L, stay p = true → p.chunk ∈ rest)
    (hbase : ∀ p ∈ L, p.base ≠ 0 ∧ p.base < ADDRESSES) (hap : ((L ++ R).map Page.header).Pairwise Apart) :
    ∃ head' m' held', rebuildSlabs (L.map (census n)) head ⟨m, held⟩ released =
        .ok (head', ⟨m', held'⟩, released + (L.filter fun p => !stay p).length * SLAB_PAGE_SIZE) ∧
      held'.Perm rest ∧ Chain m' head' (((L.filter stay).reverse ++ R).map Page.base) ∧
      ∀ y, (∀ p ∈ L, y < p.base ∨ p.base + 8 ≤ y) → m' y = m y := by
  induction L generalizing m held R head released with
  | nil =>
    refine ⟨head, m, held, ?_, hp, hl, fun _ _ => rfl⟩
    rw [List.filter_nil, List.length_nil, Nat.zero_mul]
    rfl
  | cons p L ih =>
    have hcons : ∀ {P : Page → Prop}, (∀ q ∈ p :: L, P q) → ∀ q ∈ L, P q :=
      fun h q hq => h q (List.mem_cons_of_mem _ hq)
    obtain ⟨hne, hlt⟩ := hbase p List.mem_cons_self
    obtain ⟨hself, hap'⟩ := List.pairwise_cons.mp hap
    rw [List.map_cons, rebuildSlabs, hfree p List.mem_cons_self]
    cases hs : stay p with
    | false =>
      -- the page is given back
      obtain ⟨hcls, hvalid⟩ := hh p List.mem_cons_self
      have hfilter : (p :: L).filter (fun p => !stay p) = p :: L.filter fun p => !stay p := by
        simp only [List.filter_cons, hs, Bool.not_false, if_true]
      rw [hfilter, List.map_cons] at hp
      have hmem : p.chunk ∈ held := hp.mem_iff.mpr List.mem_cons_self
      have hread : Heap.read ⟨m, held⟩ (p.base + 8) = .ok p.cls := by
        rw [← hcls]
        exact Heap.read_ok (Page.owns hmem (by decide))
      have hlay : slabPageLayout p.cls = .ok p.chunk.layout := (classFacts hvalid).slabLayout
      have hdealloc : Heap.dealloc ⟨m, held⟩ p.base p.chunk.layout = .ok ⟨m, held.erase p.chunk⟩ :=
        Heap.dealloc_ok hmem
      have hp' : (held.erase p.chunk).Perm ((L.filter fun p => !stay p).map Page.chunk ++ rest) :=
        ((List.perm_cons_erase hmem).symm.trans hp).cons_inv
      obtain ⟨head', m', held', hloop, hheld, hchain, hsame⟩ :=
        ih (released + SLAB_PAGE_SIZE) (hcons hfree) hhead hl
        (hcons hh) hp' (hcons hrest) (hcons hbase) hap'
      refine ⟨head', m', held', ?_, hheld, ?_, fun y hy => hsame y (hcons hy)⟩
      · rw [Bool.not_false, if_pos rfl, hfilter, List.length_cons, Nat.add_mul, Nat.one_mul]
        simp only [census, hread, hlay, hdealloc, ok_bind]
        rw [Nat.add_comm (_ * _), ← Nat.add_assoc]
        exact hloop
      · rw [List.filter_cons_of_neg (by rw [hs]; decide)]
        exact hchain
    | true =>
      -- the page goes to the front of the new list
      have hfilter : (p :: L).filter (fun p => !stay p) = L.filter fun p => !stay p := by
        simp only [List.filter_cons, hs, Bool.not_true, Bool.false_eq_true, if_false]
      rw [hfilter] at hp
      have hmem : p.chunk ∈ held := hp.mem_iff.mpr (List.mem_append_right _ (hrest p List.mem_cons_self hs))
      have hwrite : Heap.write ⟨m, held⟩ p.base head = .ok ⟨writeWord m p.base head, held⟩ :=
        Heap.write_ok (Page.owns (a := 0) hmem (by decide))
      have hword : 8 ≤ SLAB_HEADER := by decide
      have hnode : ∀ q ∈ L ++ R, Apart (p.base, 8) q.header := fun q hq =>
        (hself _ (List.mem_map_of_mem hq)).inside ⟨le_refl _, Nat.add_le_add_left hword _⟩ ⟨le_refl _, le_refl _⟩
      have hchain₁ := hl.push hne hhead fun b hb => by
        obtain ⟨q, hq, rfl⟩ := List.mem_map.mp hb
        exact (hnode q (List.mem_append_right _ hq)).inside ⟨le_refl _, le_refl _⟩
          ⟨le_refl _, Nat.add_le_add_left hword _⟩
      have hh₁ : ∀ q ∈ L, readWord (writeWord m p.base head) (q.base + 8) = q.cls ∧ q.cls < NUM_CLASSES := by
        intro q hq
        obtain ⟨hcls, hvalid⟩ := hcons hh q hq
        have hle : 8 + 8 ≤ SLAB_HEADER := by decide
        refine ⟨?_, hvalid⟩
        rw [readWord_writeWord_of_apart, hcls]
        refine (hnode q (List.mem_append_left _ hq)).inside ⟨le_refl _, le_refl _⟩ ⟨Nat.le_add_right _ _, ?_⟩
        change q.base + 8 + 8 ≤ q.base + SLAB_HEADER
        omega
      have hperm : (p :: (L ++ R)).Perm (L ++ p :: R) := List.perm_middle.symm
      obtain ⟨head', m', held', hloop, hheld, hchain, hsame⟩ :=
        ih (R := p :: R) released (hcons hfree) hlt hchain₁ hh₁
        hp (hcons hrest) (hcons hbase) ((hperm.map _).pairwise hap Apart.symm)
      refine ⟨head', m', held', ?_, hheld, ?_, ?_⟩
      · rw [Bool.not_true, if_neg Bool.false_ne_true, hfilter]
        simp only [census, hwrite, ok_bind]
        exact hloop
      · rw [List.filter_cons_of_pos hs, List.reverse_cons, List.append_assoc, List.singleton_append]
        exact hchain
      · intro y hy
        rw [hsame y (hcons hy)]
        exact writeWord_of_apart (hy p List.mem_cons_self)

end Expanse.Alloc
