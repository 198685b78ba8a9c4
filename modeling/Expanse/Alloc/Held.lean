import Expanse.Library.Classed
import Expanse.Alloc.Steps

/-!
# The bytes an allocator holds

`bytesHeld` counts pages and free blocks along the lists. The invariant gives it a closed form:
the pages, and the accounted bytes of every block, free or live, that lies on no page.
-/

namespace Expanse.Alloc

open SysHeap NextFit Intervals Classed
open Occ (CACHE_LINE RAW_ALIGN classFor)

variable {w : World} {h : Heap} {F : ℕ → List ℕ} {pages : List Page} {B : List Block} {b : Block} {p : Page}
  {c n fuel cur : ℕ}

theorem Holds.words_apart (hB : Holds h pages (freeBlocks F ++ B)) (hc : c < NUM_CLASSES) :
    ((F c).map fun a => (a, 8)).Pairwise Apart := by
  obtain ⟨-, hblocks, -⟩ := List.pairwise_append.mp hB.apart
  rw [List.map_append] at hblocks
  have hfree := (List.pairwise_append.mp hblocks).1
  rw [freeBlocks, List.map_flatMap, List.pairwise_flatMap] at hfree
  have hclass := hfree.1 c (List.mem_range.mpr hc)
  rw [List.map_map, List.pairwise_map] at hclass
  rw [List.pairwise_map]
  have hword := (classFacts hc).word
  refine hclass.imp ?_
  intro a b hab
  exact hab.inside ⟨le_refl _, Nat.add_le_add_left hword _⟩ ⟨le_refl _, Nat.add_le_add_left hword _⟩

theorem Holds.free_nodup (hB : Holds h pages (freeBlocks F ++ B)) (hc : c < NUM_CLASSES) : (F c).Nodup := by
  have hap := hB.words_apart hc
  rw [List.pairwise_map] at hap
  refine hap.imp ?_
  intro a b hab heq
  unfold Apart at hab
  dsimp only at hab
  omega

theorem Holds.free_lt (hB : Holds h pages (freeBlocks F ++ B)) (hc : c < NUM_CLASSES) {a : ℕ} (ha : a ∈ F c) :
    a + 8 ≤ ADDRESSES ∧ h.Owns a 8 := by
  have hmem : Block.ofClass c a ∈ freeBlocks F ++ B :=
    List.mem_append_left _ (mem_freeBlocks.mpr ⟨c, hc, a, ha, rfl⟩)
  have hword := (classFacts hc).word
  have hb := (hB.block_bounds hmem).2
  change a + (classSpec c).1 ≤ ADDRESSES at hb
  exact ⟨by omega, hB.owns hmem hword⟩

theorem Holds.free_short (hB : Holds h pages (freeBlocks F ++ B)) (hc : c < NUM_CLASSES) :
    (F c).length ≤ ADDRESSES :=
  length_le_addresses (hB.free_nodup hc) fun _ ha => by
    have := (hB.free_lt hc ha).1
    omega

theorem Holds.pages_apart (hB : Holds h pages B) : (pages.map Page.span).Pairwise Apart :=
  (List.pairwise_append.mp hB.chunks_apart).1

theorem Holds.bases_nodup (hB : Holds h pages B) : (pages.map Page.base).Nodup := by
  have hap := hB.pages_apart
  rw [List.pairwise_map] at hap
  rw [List.Nodup, List.pairwise_map]
  refine hap.imp ?_
  intro p q hpq heq
  have : 0 < SLAB_PAGE_SIZE := by decide
  unfold Apart Page.span at hpq
  dsimp only at hpq
  omega

theorem Holds.pages_short (hB : Holds h pages B) : pages.length ≤ ADDRESSES := by
  have hlen := length_le_addresses hB.bases_nodup fun a ha => by
    obtain ⟨p, hp, rfl⟩ := List.mem_map.mp ha
    have := (hB.page_bounds hp).2
    have : 0 < SLAB_PAGE_SIZE := by decide
    omega
  rwa [List.length_map] at hlen

theorem countFree_ok {l : List ℕ} (hl : Chain h.mem cur l) (ho : ∀ a ∈ l, h.Owns a 8)
    (hf : l.length < fuel) : NodeAlloc.countFree h fuel cur n = .ok (n + l.length) := by
  induction l generalizing cur fuel n with
  | nil =>
    obtain ⟨fuel, rfl⟩ : ∃ k, fuel = k + 1 := ⟨fuel - 1, by omega⟩
    rw [NodeAlloc.countFree, if_pos (chain_nil.mp hl)]
    rfl
  | cons a l ih =>
    obtain ⟨rfl, hne, hrest⟩ := hl
    rw [List.length_cons] at hf
    obtain ⟨fuel, rfl⟩ : ∃ k, fuel = k + 1 := ⟨fuel - 1, by omega⟩
    rw [NodeAlloc.countFree, if_neg hne, Heap.read_ok (ho _ List.mem_cons_self), ok_bind,
      ih hrest (fun x hx => ho x (List.mem_cons_of_mem _ hx)) (by omega), List.length_cons]
    congr 1
    omega

theorem countPages_ok (hl : Chain h.mem cur (pages.map Page.base))
    (hh : ∀ p ∈ pages, readWord h.mem (p.base + 8) = p.cls ∧ p.cls < NUM_CLASSES)
    (ho : ∀ p ∈ pages, h.Owns p.base 8 ∧ h.Owns (p.base + 8) 8) (hf : pages.length < fuel)
    (counts : ℕ → ℕ) : NodeAlloc.countPages h fuel cur counts =
      .ok fun c => counts c + pages.countP fun p => p.cls = c := by
  induction pages generalizing cur fuel counts with
  | nil =>
    obtain ⟨fuel, rfl⟩ : ∃ k, fuel = k + 1 := ⟨fuel - 1, by omega⟩
    rw [NodeAlloc.countPages, if_pos (chain_nil.mp hl)]
    rfl
  | cons p pages ih =>
    obtain ⟨rfl, hne, hrest⟩ := hl
    rw [List.length_cons] at hf
    obtain ⟨fuel, rfl⟩ : ∃ k, fuel = k + 1 := ⟨fuel - 1, by omega⟩
    obtain ⟨ho₁, ho₂⟩ := ho p List.mem_cons_self
    obtain ⟨hh₁, hh₂⟩ := hh p List.mem_cons_self
    rw [NodeAlloc.countPages, if_neg hne, Heap.read_ok ho₂, ok_bind, hh₁, if_pos hh₂, Heap.read_ok ho₁,
      ok_bind, ih hrest (fun q hq => hh q (List.mem_cons_of_mem _ hq))
        (fun q hq => ho q (List.mem_cons_of_mem _ hq)) (by omega)]
    refine congrArg Except.ok (funext fun c => ?_)
    by_cases hc : p.cls = c
    · subst hc
      rw [Function.update_self, List.countP_cons_of_pos (by simp)]
      omega
    · rw [Function.update_of_ne (Ne.symm hc), List.countP_cons_of_neg (by simpa using hc)]

theorem addClass_ok (hI : Inv w F pages) (counts : ℕ → ℕ) (hc : c < NUM_CLASSES) (t : NodeAlloc.Totals) :
    w.alloc.addClass w.heap counts t c = .ok
      ⟨t.slabTotal + (if isSlabClass c then counts c * SLAB_PAGE_SIZE else 0),
        t.slabCarvedLive + (if isSlabClass c then (counts c * slabBlocks c - (F c).length) * classStep c else 0),
        t.freeSystem + (if isSlabClass c then 0 else (F c).length * classStep c)⟩ := by
  have hshort : (F c).length < ADDRESSES + 1 := Nat.lt_succ_of_le (hI.holds.free_short hc)
  have hcount := countFree_ok (n := 0) (hI.links.chain c hc) (fun a ha => (hI.holds.free_lt hc ha).2) hshort
  rw [Nat.zero_add] at hcount
  unfold NodeAlloc.addClass
  rw [hcount, ok_bind]
  cases isSlabClass c with
  | true => rfl
  | false => rfl

theorem addClass_fold (hI : Inv w F pages) (counts : ℕ → ℕ) {L : List ℕ} (hL : ∀ c ∈ L, c < NUM_CLASSES)
    (t : NodeAlloc.Totals) : L.foldlM (w.alloc.addClass w.heap counts) t = .ok
      ⟨t.slabTotal + (L.map fun c => if isSlabClass c then counts c * SLAB_PAGE_SIZE else 0).sum,
        t.slabCarvedLive + (L.map fun c =>
          if isSlabClass c then (counts c * slabBlocks c - (F c).length) * classStep c else 0).sum,
        t.freeSystem + (L.map fun c => if isSlabClass c then 0 else (F c).length * classStep c).sum⟩ := by
  induction L generalizing t with
  | nil => rfl
  | cons c L ih =>
    rw [List.foldlM_cons, addClass_ok hI counts (hL c List.mem_cons_self), ok_bind,
      ih fun d hd => hL d (List.mem_cons_of_mem _ hd)]
    simp only [List.map_cons, List.sum_cons, Nat.add_assoc]

def Block.isClass (c : ℕ) (b : Block) : Bool := classFor b.bytes b.align = some c

theorem countP_freeBlocks (hc : c < NUM_CLASSES) : (freeBlocks F).countP (Block.isClass c) = (F c).length := by
  have hclass : ∀ d ∈ List.range NUM_CLASSES, ((F d).map (Block.ofClass d)).countP (Block.isClass c) =
      if d = c then (F d).length else 0 := by
    intro d hd
    have hd' := List.mem_range.mp hd
    rw [List.countP_map]
    by_cases hdc : d = c
    · rw [if_pos hdc, ← hdc, List.countP_eq_length]
      intro a _
      exact decide_eq_true (classFor_classSpec hd')
    · rw [if_neg hdc, List.countP_eq_zero]
      intro a _
      have h := classFor_classSpec hd'
      intro heq
      have heq' := of_decide_eq_true heq
      change classFor (classSpec d).1 (classSpec d).2 = some c at heq'
      rw [h] at heq'
      exact hdc (Option.some.inj heq')
  calc (freeBlocks F).countP (Block.isClass c)
    _ = ((List.range NUM_CLASSES).map fun d => ((F d).map (Block.ofClass d)).countP (Block.isClass c)).sum :=
      List.countP_flatMap
    _ = ((List.range NUM_CLASSES).map fun d => if d = c then (F d).length else 0).sum := by
      rw [List.map_congr_left hclass]
    _ = (F c).length := by
      rw [← List.sum_toFinset _ List.nodup_range, List.toFinset_range, Finset.sum_ite_eq',
        if_pos (Finset.mem_range.mpr hc)]

theorem Inv.class_count (hI : Inv w F pages) (hc : c < NUM_CLASSES) (hs : isSlabClass c = true) :
    pages.countP (fun p => p.cls = c) * slabBlocks c = (F c).length + w.live.countP (Block.isClass c) := by
  have hcarved : ((freeBlocks F ++ w.live).filter Block.onSlab).countP (Block.isClass c) =
      (pages.map fun p => p.carved.countP (Block.isClass c)).sum :=
    (hI.holds.carved.countP_eq _).trans List.countP_flatMap
  rw [List.countP_filter] at hcarved
  have hslab : ∀ b : Block, (Block.isClass c b && b.onSlab) = Block.isClass c b := by
    intro b
    cases hb : Block.isClass c b with
    | false => rfl
    | true => rw [Block.onSlab_of_class (of_decide_eq_true hb), hs, Bool.and_self]
  have hpage : ∀ p ∈ pages, p.carved.countP (Block.isClass c) = if p.cls = c then slabBlocks c else 0 := by
    intro p hp
    have hp' := (hI.holds.valid p hp).1
    rw [Page.carved, List.countP_map]
    by_cases hpc : p.cls = c
    · rw [if_pos hpc, ← hpc, List.countP_eq_length.mpr, List.length_range]
      intro i _
      exact decide_eq_true (classFor_classSpec hp')
    · rw [if_neg hpc, List.countP_eq_zero]
      intro i _ heq
      have heq' := of_decide_eq_true heq
      change classFor (classSpec p.cls).1 (classSpec p.cls).2 = some c at heq'
      rw [classFor_classSpec hp'] at heq'
      exact hpc (Option.some.inj heq')
  simp only [hslab] at hcarved
  rw [List.countP_append, countP_freeBlocks hc, List.map_congr_left hpage] at hcarved
  rw [hcarved]
  clear hcarved hpage hI
  induction pages with
  | nil => simp
  | cons p pages ih =>
    by_cases hpc : p.cls = c
    · rw [List.countP_cons_of_pos (by simpa using hpc), List.map_cons, List.sum_cons, if_pos hpc, Nat.add_mul,
        ih, Nat.one_mul, Nat.add_comm]
    · rw [List.countP_cons_of_neg (by simpa using hpc), List.map_cons, List.sum_cons, if_neg hpc, ih,
        Nat.zero_add]

theorem sum_blocks (l : List Block) (g : ℕ → ℕ) :
    ((List.range NUM_CLASSES).map fun c => l.countP (Block.isClass c) * g c).sum =
      (l.map fun b => (classFor b.bytes b.align).elim 0 g).sum :=
  sum_by_class l (fun b => classFor b.bytes b.align) g fun _ _ _ h => (classFor_spec h).1

/-- The bytes of the pages, and those accounted for the blocks that lie on none. -/
def heldBytes (pages : List Page) (B : List Block) : ℕ :=
  pages.length * SLAB_PAGE_SIZE + (B.map fun b => if b.onSlab then 0 else b.accounted).sum

theorem accounted_split (l : List Block) : (l.map Block.accounted).sum =
    (l.map fun b => if b.onSlab then b.accounted else 0).sum +
      (l.map fun b => if b.onSlab then 0 else b.accounted).sum := by
  rw [← List.sum_map_add]
  congr 1
  apply List.map_congr_left
  intro b _
  split <;> simp

theorem sum_pages (hI : Inv w F pages) : ((List.range NUM_CLASSES).map fun c =>
    if isSlabClass c then pages.countP (fun p => p.cls = c) * SLAB_PAGE_SIZE else 0).sum =
    pages.length * SLAB_PAGE_SIZE := by
  have hterm : ∀ c ∈ List.range NUM_CLASSES,
      (if isSlabClass c then pages.countP (fun p => p.cls = c) * SLAB_PAGE_SIZE else 0) =
      pages.countP (fun p => some p.cls = some c) * if isSlabClass c then SLAB_PAGE_SIZE else 0 := by
    intro c _
    simp only [Option.some.injEq]
    split
    · rfl
    · exact (Nat.mul_zero _).symm
  have hone : ∀ p ∈ pages, (some p.cls).elim 0 (fun c => if isSlabClass c then SLAB_PAGE_SIZE else 0) =
      SLAB_PAGE_SIZE := by
    intro p hp
    rw [Option.elim_some, if_pos (hI.holds.valid p hp).2]
  rw [List.map_congr_left hterm, sum_by_class pages (fun p => some p.cls), List.map_congr_left hone,
    List.map_const', List.sum_replicate, smul_eq_mul]
  intro p hp c hc
  rw [← Option.some.inj hc]
  exact (hI.holds.valid p hp).1

theorem sum_live (hI : Inv w F pages) : ((List.range NUM_CLASSES).map fun c => if isSlabClass c then
    (pages.countP (fun p => p.cls = c) * slabBlocks c - (F c).length) * classStep c else 0).sum =
    (w.live.map fun b => if b.onSlab then b.accounted else 0).sum := by
  have hterm : ∀ c ∈ List.range NUM_CLASSES, (if isSlabClass c then
      (pages.countP (fun p => p.cls = c) * slabBlocks c - (F c).length) * classStep c else 0) =
      w.live.countP (Block.isClass c) * if isSlabClass c then classStep c else 0 := by
    intro c hc
    cases hs : isSlabClass c with
    | true =>
      rw [if_pos rfl, if_pos rfl, hI.class_count (List.mem_range.mp hc) hs, Nat.add_sub_cancel_left]
    | false =>
      rw [if_neg Bool.false_ne_true, if_neg Bool.false_ne_true, Nat.mul_zero]
  have hone : ∀ b ∈ w.live, (classFor b.bytes b.align).elim 0
      (fun c => if isSlabClass c then classStep c else 0) =
      if b.onSlab then b.accounted else 0 := by
    intro b _
    cases hb : classFor b.bytes b.align with
    | none =>
      have hs : b.onSlab = false := by
        rw [Block.onSlab]
        simp only [hb]
      rw [hs, Option.elim_none, if_neg Bool.false_ne_true]
    | some c =>
      have hacc : b.accounted = classStep c := by
        rw [Block.eq_ofClass hb]
        rfl
      rw [Option.elim_some, Block.onSlab_of_class hb, hacc]
  rw [List.map_congr_left hterm, sum_blocks, List.map_congr_left hone]

theorem sum_free (F : ℕ → List ℕ) : ((List.range NUM_CLASSES).map fun c =>
    if isSlabClass c then 0 else (F c).length * classStep c).sum =
    ((freeBlocks F).map fun b => if b.onSlab then 0 else b.accounted).sum := by
  have hterm : ∀ c ∈ List.range NUM_CLASSES, (if isSlabClass c then 0 else (F c).length * classStep c) =
      (freeBlocks F).countP (Block.isClass c) * if isSlabClass c then 0 else classStep c := by
    intro c hc
    rw [countP_freeBlocks (List.mem_range.mp hc)]
    split
    · exact (Nat.mul_zero _).symm
    · rfl
  have hone : ∀ b ∈ freeBlocks F,
      (classFor b.bytes b.align).elim 0 (fun c => if isSlabClass c then 0 else classStep c) =
      if b.onSlab then 0 else b.accounted := by
    intro b hb
    obtain ⟨c, hc, a, -, rfl⟩ := mem_freeBlocks.mp hb
    have hcls : classFor (Block.ofClass c a).bytes (Block.ofClass c a).align = some c := classFor_classSpec hc
    rw [hcls, Option.elim_some, Block.onSlab_ofClass hc, Block.accounted_ofClass]
  rw [List.map_congr_left hterm, sum_blocks, List.map_congr_left hone]

theorem bytesHeld_ok (hI : Inv w F pages) :
    w.alloc.bytesHeld w.heap = .ok (heldBytes pages (freeBlocks F ++ w.live)) := by
  have hB := hI.holds
  have hshort : pages.length < ADDRESSES + 1 := Nat.lt_succ_of_le hB.pages_short
  have hpages := countPages_ok hI.links.slab
    (fun p hp => ⟨hI.links.header p hp, (hB.valid p hp).1⟩)
    (fun p hp => ⟨hB.owns_header (a := 0) hp (by decide), hB.owns_header hp (by decide)⟩)
    hshort fun _ => 0
  simp only [Nat.zero_add] at hpages
  have hsplit := accounted_split w.live
  rw [← hI.bytes] at hsplit
  unfold NodeAlloc.bytesHeld
  rw [hpages, ok_bind, addClass_fold hI _ fun c hc => List.mem_range.mp hc, ok_bind, pure_eq_ok,
    sum_pages hI, sum_live hI, sum_free, heldBytes, List.map_append, List.sum_append, hsplit]
  dsimp only
  rw [Nat.zero_add, Nat.zero_add, Nat.zero_add, Nat.add_sub_cancel_left, Nat.add_assoc]
  exact congrArg Except.ok (congrArg (_ + ·) (Nat.add_comm _ _))

end Expanse.Alloc
