import Expanse.Alloc.Held

/-!
# Giving detached lists back

The free blocks of the larger classes are chunks of their own, as the slab pages are. Both are
given back along their lists, which are read before each node goes.
-/

namespace Expanse.Alloc

open SysHeap NextFit Intervals
open Occ (CACHE_LINE RAW_ALIGN classFor)

variable {w : World} {s : NodeAlloc} {h : Heap} {m : Memory} {held rest : List Chunk} {F : ℕ → List ℕ}
  {pages : List Page} {B : List Block} {c n cur fuel released : ℕ} {l : List ℕ} {lay : Layout}

theorem deallocList_ok (step released : ℕ) (hl : Chain m cur l) (hp : held.Perm (l.map (⟨·, lay⟩) ++ rest))
    (h8 : 8 ≤ lay.size)
    (hf : l.length < fuel) : ∃ held', NodeAlloc.deallocList lay step fuel cur ⟨m, held⟩ released =
      .ok (⟨m, held'⟩, released + l.length * step) ∧ held'.Perm rest := by
  induction l generalizing cur fuel held released with
  | nil =>
    obtain ⟨fuel, rfl⟩ : ∃ k, fuel = k + 1 := ⟨fuel - 1, by omega⟩
    refine ⟨held, ?_, hp⟩
    rw [NodeAlloc.deallocList, if_pos (chain_nil.mp hl), List.length_nil, Nat.zero_mul]
    rfl
  | cons a l ih =>
    obtain ⟨rfl, hne, hrest⟩ := hl
    rw [List.length_cons] at hf
    obtain ⟨fuel, rfl⟩ : ∃ k, fuel = k + 1 := ⟨fuel - 1, by omega⟩
    have hmem : (⟨cur, lay⟩ : Chunk) ∈ held := hp.mem_iff.mpr List.mem_cons_self
    have hown : Heap.Owns ⟨m, held⟩ cur 8 := .of_held hmem (le_refl _) (Nat.add_le_add_left h8 _)
    have hdealloc : Heap.dealloc ⟨m, held⟩ cur lay = .ok ⟨m, held.erase ⟨cur, lay⟩⟩ := Heap.dealloc_ok hmem
    have hp' : (held.erase ⟨cur, lay⟩).Perm (l.map (⟨·, lay⟩) ++ rest) :=
      ((List.perm_cons_erase hmem).symm.trans hp).cons_inv
    have hf' : l.length < fuel := by omega
    obtain ⟨held', hloop, hheld⟩ := ih (released + step) hrest hp' hf'
    refine ⟨held', ?_, hheld⟩
    rw [NodeAlloc.deallocList, if_neg hne, Heap.read_ok hown, ok_bind, hdealloc, ok_bind, hloop,
      List.length_cons, Nat.add_mul, Nat.one_mul]
    congr 2
    omega

theorem deallocPages_ok (released : ℕ) (hl : Chain m cur (pages.map Page.base))
    (hh : ∀ p ∈ pages, readWord m (p.base + 8) = p.cls ∧ p.cls < NUM_CLASSES)
    (hp : held.Perm (pages.map Page.chunk ++ rest)) (hf : pages.length < fuel) :
    ∃ held', NodeAlloc.deallocPages fuel cur ⟨m, held⟩ released =
      .ok (⟨m, held'⟩, released + pages.length * SLAB_PAGE_SIZE) ∧ held'.Perm rest := by
  induction pages generalizing cur fuel held released with
  | nil =>
    obtain ⟨fuel, rfl⟩ : ∃ k, fuel = k + 1 := ⟨fuel - 1, by omega⟩
    refine ⟨held, ?_, hp⟩
    rw [NodeAlloc.deallocPages, if_pos (chain_nil.mp hl), List.length_nil, Nat.zero_mul]
    rfl
  | cons p pages ih =>
    obtain ⟨rfl, hne, hrest⟩ := hl
    rw [List.length_cons] at hf
    obtain ⟨fuel, rfl⟩ : ∃ k, fuel = k + 1 := ⟨fuel - 1, by omega⟩
    obtain ⟨hcls, hlt⟩ := hh p List.mem_cons_self
    have hmem : p.chunk ∈ held := hp.mem_iff.mpr List.mem_cons_self
    have hread : Heap.read ⟨m, held⟩ p.base = .ok (readWord m p.base) :=
      Heap.read_ok (Page.owns (a := 0) hmem (by decide))
    have hread' : Heap.read ⟨m, held⟩ (p.base + 8) = .ok p.cls := by
      rw [← hcls]
      exact Heap.read_ok (Page.owns hmem (by decide))
    have hdealloc : Heap.dealloc ⟨m, held⟩ p.base p.chunk.layout = .ok ⟨m, held.erase p.chunk⟩ :=
      Heap.dealloc_ok hmem
    have hp' : (held.erase p.chunk).Perm (pages.map Page.chunk ++ rest) :=
      ((List.perm_cons_erase hmem).symm.trans hp).cons_inv
    have hf' : pages.length < fuel := by omega
    obtain ⟨held', hloop, hheld⟩ := ih (released + SLAB_PAGE_SIZE) hrest
      (fun q hq => hh q (List.mem_cons_of_mem _ hq)) hp' hf'
    refine ⟨held', ?_, hheld⟩
    have hlay : slabPageLayout p.cls = .ok p.chunk.layout := (classFacts hlt).slabLayout
    have hsum : released + SLAB_PAGE_SIZE + pages.length * SLAB_PAGE_SIZE =
        released + (p :: pages).length * SLAB_PAGE_SIZE := by
      rw [List.length_cons, Nat.add_mul, Nat.one_mul]
      omega
    rw [NodeAlloc.deallocPages, if_neg hne, hread, ok_bind, hread', ok_bind, hlay, ok_bind, hdealloc, ok_bind,
      hloop, hsum]

/-- One class is dropped: a slab class by its head alone, or not at all. -/
def dropClass (all : Bool) (r : NodeAlloc × Heap × ℕ) (cls : ℕ) :
    Except SysHeap.Fault (NodeAlloc × Heap × ℕ) :=
  if isSlabClass cls then .ok (if all then r.1.setFreelist cls 0 else r.1, r.2.1, r.2.2)
  else do
    let l ← layoutFor (classSpec cls).1 (classSpec cls).2
    let (h, released) ← NodeAlloc.deallocList l (classStep cls) (ADDRESSES + 1) (r.1.freelists cls) r.2.1 r.2.2
    return (r.1.setFreelist cls 0, h, released)

theorem releaseSystemClass_eq : NodeAlloc.releaseSystemClass = dropClass false := by
  funext r cls
  obtain ⟨s, h, released⟩ := r
  unfold NodeAlloc.releaseSystemClass dropClass
  cases isSlabClass cls with
  | true => rfl
  | false => rfl

theorem releaseUnusedClass_eq : NodeAlloc.releaseUnusedClass = dropClass true := by
  funext r cls
  obtain ⟨s, h, released⟩ := r
  unfold NodeAlloc.releaseUnusedClass dropClass
  cases isSlabClass cls with
  | true => rfl
  | false => rfl

/-- The chunks of the free blocks of the larger classes. -/
def freeChunks (F : ℕ → List ℕ) (L : List ℕ) : List Chunk :=
  L.flatMap fun c => if isSlabClass c then [] else (F c).map fun a => (Block.ofClass c a).chunk

def freeBytes (F : ℕ → List ℕ) (L : List ℕ) : ℕ :=
  (L.map fun c => if isSlabClass c then 0 else (F c).length * classStep c).sum

theorem dropClasses_ok (all : Bool) (released : ℕ) {L : List ℕ} (hL : ∀ c ∈ L, c < NUM_CLASSES) (hnd : L.Nodup)
    (hchain : ∀ c ∈ L, Chain m (s.freelists c) (F c)) (hshort : ∀ c ∈ L, (F c).length ≤ ADDRESSES)
    (hp : held.Perm (freeChunks F L ++ rest)) :
    ∃ s' held', L.foldlM (dropClass all) (s, ⟨m, held⟩, released) =
        .ok (s', ⟨m, held'⟩, released + freeBytes F L) ∧ held'.Perm rest ∧
      s'.freelists = (fun c => if c ∈ L ∧ (all = true ∨ isSlabClass c = false) then 0 else s.freelists c) ∧
      s'.slabPages = s.slabPages ∧ s'.bytesInUse = s.bytesInUse ∧ s'.liveAllocs = s.liveAllocs := by
  induction L generalizing s held released with
  | nil => exact ⟨s, held, rfl, hp, by simp, rfl, rfl, rfl⟩
  | cons c L ih =>
    have hc := hL c List.mem_cons_self
    obtain ⟨hnot, hnd'⟩ := List.nodup_cons.mp hnd
    -- the first class, then the classes that are left
    have hstep : ∃ t held₁, dropClass all (s, ⟨m, held⟩, released) c =
          .ok (t, ⟨m, held₁⟩, released + freeBytes F [c]) ∧ held₁.Perm (freeChunks F L ++ rest) ∧
        t.freelists = (fun d => if d = c ∧ (all = true ∨ isSlabClass c = false) then 0 else s.freelists d) ∧
        t.slabPages = s.slabPages ∧ t.bytesInUse = s.bytesInUse ∧ t.liveAllocs = s.liveAllocs := by
      cases hs : isSlabClass c with
      | true =>
        refine ⟨if all then s.setFreelist c 0 else s, held, ?_, ?_, ?_, ?_, ?_, ?_⟩
        · simp only [dropClass, hs, if_true, freeBytes, List.map_cons, List.map_nil, List.sum_cons,
            List.sum_nil, Nat.add_zero]
        · simpa only [freeChunks, List.flatMap_cons, hs, if_true, List.nil_append] using hp
        · funext d
          cases all with
          | true =>
            by_cases hd : d = c
            · simp [hd]
            · simp [hd]
          | false => simp
        · cases all <;> rfl
        · cases all <;> rfl
        · cases all <;> rfl
      | false =>
        have hf := classFacts hc
        have hp' : held.Perm ((F c).map (⟨·, ⟨(classSpec c).1, (classSpec c).2⟩⟩) ++
            (freeChunks F L ++ rest)) := by
          rw [← List.append_assoc]
          refine hp.trans (List.Perm.of_eq ?_)
          simp only [freeChunks, List.flatMap_cons, hs, Bool.false_eq_true, if_false]
          rfl
        have hfuel : (F c).length < ADDRESSES + 1 := Nat.lt_succ_of_le (hshort c List.mem_cons_self)
        obtain ⟨held₁, hloop, hheld⟩ :=
          deallocList_ok (classStep c) released (hchain c List.mem_cons_self) hp' hf.word hfuel
        refine ⟨s.setFreelist c 0, held₁, ?_, hheld, ?_, rfl, rfl, rfl⟩
        · simp only [dropClass, hs, hf.layout, hloop, ok_bind, pure_eq_ok, freeBytes, List.map_cons,
            List.map_nil, List.sum_cons, List.sum_nil, Nat.add_zero, Bool.false_eq_true, if_false]
        · funext d
          by_cases hd : d = c
          · simp [hd]
          · simp [hd]
    obtain ⟨t, held₁, hdrop, hheld₁, hfree, hslab, hbytes, hallocs⟩ := hstep
    obtain ⟨s', held', hfold, hheld', hfree', hslab', hbytes', hallocs'⟩ := ih (s := t)
      (released + freeBytes F [c]) (fun d hd => hL d (List.mem_cons_of_mem _ hd)) hnd'
      (fun d hd => by
        have hdc : d ≠ c := fun heq => hnot (heq ▸ hd)
        rw [hfree]
        simp only [hdc, false_and, if_false]
        exact hchain d (List.mem_cons_of_mem _ hd))
      (fun d hd => hshort d (List.mem_cons_of_mem _ hd)) hheld₁
    refine ⟨s', held', ?_, hheld', ?_, hslab'.trans hslab, hbytes'.trans hbytes, hallocs'.trans hallocs⟩
    · rw [List.foldlM_cons, hdrop, ok_bind, hfold]
      simp only [freeBytes, List.map_cons, List.map_nil, List.sum_cons, List.sum_nil, Nat.add_zero,
        Nat.add_assoc]
    · rw [hfree', hfree]
      funext d
      by_cases hd : d = c
      · simp [hd, hnot]
      · simp [hd]

theorem freeChunks_eq (F : ℕ → List ℕ) :
    ((freeBlocks F).filter fun b => !b.onSlab).map Block.chunk = freeChunks F (List.range NUM_CLASSES) := by
  rw [freeBlocks, List.filter_flatMap, List.map_flatMap, freeChunks]
  apply List.flatMap_congr
  intro c hc
  have hslab : ∀ b ∈ (F c).map (Block.ofClass c), (!b.onSlab) = !isSlabClass c := by
    intro b hb
    obtain ⟨a, -, rfl⟩ := List.mem_map.mp hb
    rw [Block.onSlab_ofClass (List.mem_range.mp hc)]
  rw [List.filter_congr hslab]
  cases isSlabClass c with
  | true => rw [if_pos rfl, Bool.not_true, List.filter_false, List.map_nil]
  | false =>
    rw [if_neg Bool.false_ne_true, Bool.not_false, List.filter_true, List.map_map]
    rfl

theorem freeBytes_eq (F : ℕ → List ℕ) : freeBytes F (List.range NUM_CLASSES) =
    ((freeBlocks F).map fun b => if b.onSlab then 0 else b.accounted).sum := sum_free F

/-- The freelists of the slab classes alone. -/
def slabLists (F : ℕ → List ℕ) : ℕ → List ℕ := fun c => if isSlabClass c then F c else []

theorem onSlab_slabLists {b : Block} (hb : b ∈ freeBlocks (slabLists F)) : b.onSlab = true := by
  obtain ⟨c, hc, a, ha, rfl⟩ := mem_freeBlocks.mp hb
  rw [Block.onSlab_ofClass hc]
  by_contra hs
  rw [slabLists, if_neg hs] at ha
  cases ha

theorem filter_slabLists (F : ℕ → List ℕ) :
    (freeBlocks F).filter Block.onSlab = freeBlocks (slabLists F) := by
  rw [freeBlocks, List.filter_flatMap, freeBlocks]
  apply List.flatMap_congr
  intro c hc
  have hslab : ∀ b ∈ (F c).map (Block.ofClass c), b.onSlab = isSlabClass c := by
    intro b hb
    obtain ⟨a, -, rfl⟩ := List.mem_map.mp hb
    exact Block.onSlab_ofClass (List.mem_range.mp hc) a
  rw [List.filter_congr hslab, slabLists]
  cases isSlabClass c with
  | true => rw [List.filter_true, if_pos rfl]
  | false => rw [List.filter_false, if_neg Bool.false_ne_true, List.map_nil]

theorem sum_off_slab {l : List Block} (hl : ∀ b ∈ l, b.onSlab = true) :
    (l.map fun b => if b.onSlab then 0 else b.accounted).sum = 0 := by
  rw [List.sum_eq_zero]
  intro n hn
  obtain ⟨b, hb, rfl⟩ := List.mem_map.mp hn
  rw [hl b hb, if_pos rfl]

/-- The free blocks of the larger classes go back to the system, and the rest stays. -/
theorem releaseSystem_spec (hI : Inv w F pages) : ∃ s' h',
    (List.range NUM_CLASSES).foldlM NodeAlloc.releaseSystemClass (w.alloc, w.heap, 0) =
      .ok (s', h', freeBytes F (List.range NUM_CLASSES)) ∧
    Inv ⟨s', h', w.live⟩ (slabLists F) pages ∧
    w.heap.held.Perm (h'.held ++ freeChunks F (List.range NUM_CLASSES)) ∧
    heldBytes pages (freeBlocks F ++ w.live) =
      heldBytes pages (freeBlocks (slabLists F) ++ w.live) + freeBytes F (List.range NUM_CLASSES) := by
  have hB := hI.holds
  have hclass : ∀ c ∈ List.range NUM_CLASSES, c < NUM_CLASSES := fun c hc => List.mem_range.mp hc
  have hheld : w.heap.held.Perm (freeChunks F (List.range NUM_CLASSES) ++
      (pages.map Page.chunk ++ (w.live.filter fun b => !b.onSlab).map Block.chunk)) := by
    have hperm := hB.held
    rw [List.filter_append, List.map_append, freeChunks_eq] at hperm
    exact hperm.trans (List.perm_append_comm_assoc _ _ _)
  obtain ⟨s', held', hfold, hheld', hfree, hslab, hbytes, hallocs⟩ := dropClasses_ok false 0 hclass
    List.nodup_range (fun c hc => hI.links.chain c (hclass c hc)) (fun c hc => hB.free_short (hclass c hc)) hheld
  rw [Nat.zero_add] at hfold
  have hperm : w.heap.held.Perm (held' ++ freeChunks F (List.range NUM_CLASSES)) :=
    hheld.trans (List.perm_append_comm.trans (hheld'.symm.append_right _))
  refine ⟨s', ⟨w.heap.mem, held'⟩, ?_, ⟨⟨?_, ?_, hI.links.header⟩, ⟨?_, ?_, ?_, hB.valid⟩, ?_, ?_, hI.request⟩,
    hperm, ?_⟩
  · rw [releaseSystemClass_eq]
    exact hfold
  · intro c hc
    rw [hfree]
    dsimp only
    rw [slabLists]
    cases hs : isSlabClass c with
    | true => simpa using hI.links.chain c hc
    | false => simp [hc, chain_nil]
  · rw [hslab]
    exact hI.links.slab
  · exact hB.sound.of_perm hperm
  · rw [List.filter_append, List.filter_eq_nil_iff.mpr fun b hb => by rw [onSlab_slabLists hb]; decide]
    exact hheld'
  · have hcarved := hB.carved
    rw [List.filter_append, filter_slabLists] at hcarved
    rw [List.filter_append, List.filter_eq_self.mpr fun b hb => onSlab_slabLists hb]
    exact hcarved
  · rw [hbytes]
    exact hI.bytes
  · rw [hallocs]
    exact hI.allocs
  · rw [heldBytes, heldBytes, List.map_append, List.map_append, List.sum_append, List.sum_append, freeBytes_eq,
      sum_off_slab fun b hb => onSlab_slabLists hb]
    omega

theorem accounted_pos {b : Block} (hb : 0 < b.bytes) (ha : 0 < b.align) : 0 < b.accounted :=
  lt_of_lt_of_le hb (le_roundUp ha)

theorem Inv.live_nil (hI : Inv w F pages) (hz : w.alloc.bytesInUse = 0) : w.live = [] := by
  cases hl : w.live with
  | nil => rfl
  | cons b l =>
    have hbytes := hI.bytes
    rw [hl, List.map_cons, List.sum_cons] at hbytes
    obtain ⟨h1, h2, -⟩ := hI.request b (by rw [hl]; exact List.mem_cons_self)
    have := accounted_pos h1 h2
    omega

theorem releaseAllUnused_spec (hI : Inv w F pages) (hz : w.alloc.bytesInUse = 0) : ∃ s' h',
    w.alloc.releaseAllUnused w.heap = .ok (heldBytes pages (freeBlocks F ++ w.live), s', h') ∧
    Inv ⟨s', h', w.live⟩ (fun _ => []) [] ∧
    w.heap.held.Perm (h'.held ++ (pages.map Page.chunk ++ freeChunks F (List.range NUM_CLASSES))) := by
  have hB := hI.holds
  have hlive := hI.live_nil hz
  have hclass : ∀ c ∈ List.range NUM_CLASSES, c < NUM_CLASSES := fun c hc => List.mem_range.mp hc
  have hheld := hB.held
  rw [hlive, List.append_nil, freeChunks_eq] at hheld
  have hcls : ∀ p ∈ pages, readWord w.heap.mem (p.base + 8) = p.cls ∧ p.cls < NUM_CLASSES :=
    fun p hp => ⟨hI.links.header p hp, (hB.valid p hp).1⟩
  obtain ⟨held₁, hpages, hheld₁⟩ := deallocPages_ok 0 hI.links.slab hcls hheld (Nat.lt_succ_of_le hB.pages_short)
  rw [← List.append_nil (freeChunks F _)] at hheld₁
  obtain ⟨s', held', hfold, hheld', hfree, hslab, hbytes, hallocs⟩ :=
    dropClasses_ok (s := { w.alloc with slabPages := 0 }) true (0 + pages.length * SLAB_PAGE_SIZE)
      hclass List.nodup_range (fun c hc => hI.links.chain c (hclass c hc))
      (fun c hc => hB.free_short (hclass c hc)) hheld₁
  have hnil : held' = [] := List.perm_nil.mp hheld'
  refine ⟨s', ⟨w.heap.mem, held'⟩, ?_, ?_, ?_⟩
  · unfold NodeAlloc.releaseAllUnused
    simp only [hpages, ok_bind, releaseUnusedClass_eq, hfold, pure_eq_ok]
    rw [hlive, List.append_nil, heldBytes, ← freeBytes_eq, Nat.zero_add]
  · refine ⟨⟨fun c hc => ?_, ?_, ?_⟩, ⟨?_, ?_, ?_, ?_⟩, ?_, ?_, hI.request⟩
    · rw [hfree]
      simp [hc, chain_nil]
    · exact hslab
    · intro p hp
      cases hp
    · refine hB.sound.of_perm (l := w.heap.held) ?_
      rw [hnil]
      exact List.Perm.refl _
    · rw [hnil, hlive, freeBlocks_nil]
      exact List.Perm.refl _
    · rw [hlive, freeBlocks_nil]
      exact List.Perm.refl _
    · intro p hp
      cases hp
    · rw [hbytes]
      exact hI.bytes
    · rw [hallocs]
      exact hI.allocs
  · rw [hnil]
    exact hheld

end Expanse.Alloc
