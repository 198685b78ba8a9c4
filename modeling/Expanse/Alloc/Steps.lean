import Expanse.Library.Ensures
import Expanse.Alloc.Invariant

/-!
# Allocating and freeing keep the invariant

A block taken from a freelist or put on one changes sides; a new page brings its blocks
with it, and a block of the system allocator itself.
-/

namespace Expanse.Alloc

open SysHeap NextFit Intervals
open Occ (CACHE_LINE RAW_ALIGN classFor)

variable {w : World} {s : NodeAlloc} {h : Heap} {m m' : Memory} {F : ℕ → List ℕ} {pages : List Page}
  {B : List Block} {b : Block} {p : Page} {c bytes align : ℕ} {g : Grant}

theorem Holds.fresh (hB : Holds h pages B) {x : ℕ × ℕ} (hx : ∀ k ∈ h.held, Apart x k.span) :
    (∀ p ∈ pages, Apart x p.header) ∧ ∀ b ∈ B, Apart x b.span := by
  constructor
  · intro p hp
    have hle : SLAB_HEADER ≤ SLAB_PAGE_SIZE := by decide
    exact (hx _ (hB.page_held hp)).inside ⟨le_refl _, le_refl _⟩ ⟨le_refl _, Nat.add_le_add_left hle _⟩
  · intro b hb
    rcases hB.place hb with ⟨-, p, hp, hc⟩ | ⟨-, hc⟩
    · obtain ⟨h1, h2, h3⟩ := Page.carved_inside (hB.valid p hp) hc
      refine (hx _ (hB.page_held hp)).inside ⟨le_refl _, le_refl _⟩ ⟨?_, ?_⟩
      · change p.base ≤ b.ptr
        omega
      · change b.ptr + b.bytes ≤ p.base + SLAB_PAGE_SIZE
        omega
    · exact hx _ hc

theorem Inv.freelist_lt (hI : Inv w F pages) (hc : c < NUM_CLASSES) : w.alloc.freelists c < ADDRESSES := by
  by_cases hz : w.alloc.freelists c = 0
  · rw [hz]
    decide
  · obtain ⟨l, hl⟩ := (hI.links.chain c hc).head_mem hz
    have hmem : Block.ofClass c (w.alloc.freelists c) ∈ freeBlocks F :=
      mem_freeBlocks.mpr ⟨c, hc, _, by rw [hl]; exact List.mem_cons_self, rfl⟩
    have hb := (hI.holds.block_bounds (List.mem_append_left _ hmem)).2
    have hw := (classFacts hc).word
    change w.alloc.freelists c + (classSpec c).1 ≤ ADDRESSES at hb
    omega

theorem Inv.slabPages_lt (hI : Inv w F pages) : w.alloc.slabPages < ADDRESSES := by
  by_cases hz : w.alloc.slabPages = 0
  · rw [hz]
    decide
  · obtain ⟨l, hl⟩ := hI.links.slab.head_mem hz
    have hmem : w.alloc.slabPages ∈ pages.map Page.base := by
      rw [hl]
      exact List.mem_cons_self
    obtain ⟨p, hp, heq⟩ := List.mem_map.mp hmem
    have hb := (hI.holds.page_bounds hp).2
    have : 0 < SLAB_PAGE_SIZE := by decide
    omega

theorem fill_ok (ho : h.Owns b.ptr b.bytes) (zeroed : Bool) :
    ∃ m', NodeAlloc.fill zeroed h b.ptr b.bytes = .ok ⟨m', h.held⟩ ∧
      ∀ y, y < b.ptr ∨ b.ptr + b.bytes ≤ y → m' y = h.mem y := by
  cases zeroed with
  | false => exact ⟨h.mem, rfl, fun y _ => rfl⟩
  | true => exact ⟨_, Heap.zero_ok ho, fun y hy => paste_of_apart hy⟩

/-- A request: its layout is valid, or a class serves it. -/
structure Request (bytes align : ℕ) : Prop where
  layout : layoutFor bytes align = .ok ⟨bytes, align⟩

instance (bytes align : ℕ) : Decidable (Request bytes align) :=
  decidable_of_iff (layoutFor bytes align = .ok ⟨bytes, align⟩) ⟨Request.mk, Request.layout⟩

theorem Request.bounds (hr : Request bytes align) : 0 < bytes ∧ 0 < align :=
  ⟨(layoutFor_ok hr.layout).1, (layoutFor_ok hr.layout).2.1⟩

/-- What a call of `allocRaw` asks of the system allocator. -/
def NodeAlloc.asks (s : NodeAlloc) (bytes align : ℕ) : Option Layout :=
  match classFor bytes align with
  | some cls =>
    if s.freelists cls ≠ 0 then none
    else if bytes ≤ 256 then some ⟨SLAB_PAGE_SIZE, max align CACHE_LINE⟩
    else some ⟨bytes, align⟩
  | none => some ⟨bytes, align⟩

/-- The world after a block was handed out, as far as its counters say. -/
theorem Inv.charge (hI : Inv w F pages) (hr : Request bytes align) {ptr : ℕ} {t : NodeAlloc} {h' : Heap}
    {F' : ℕ → List ℕ} {pages' : List Page}
    (hlinks : Links t h'.mem F' pages')
    (hholds : Holds h' pages' (freeBlocks F' ++ ⟨ptr, bytes, align⟩ :: w.live))
    (hbytes : t.bytesInUse = w.alloc.bytesInUse + accountedSize bytes align)
    (hallocs : t.liveAllocs = w.alloc.liveAllocs + 1) :
    Inv ⟨t, h', ⟨ptr, bytes, align⟩ :: w.live⟩ F' pages' := by
  refine ⟨hlinks, hholds, ?_, ?_, ?_⟩
  · rw [List.map_cons, List.sum_cons, ← hI.bytes, hbytes, Nat.add_comm]
    rfl
  · rw [List.length_cons, ← hI.allocs]
    exact hallocs
  · intro b hb
    rcases List.mem_cons.mp hb with rfl | hb
    · exact ⟨hr.bounds.1, hr.bounds.2, fun _ => hr.layout⟩
    · exact hI.request b hb

theorem allocSystem_spec (zeroed : Bool) (hI : Inv w F pages) (hr : Request bytes align)
    (hg : w.heap.Grants g ⟨bytes, align⟩) (hslab : Block.onSlab ⟨g.addr, bytes, align⟩ = false) :
    ∃ h', NodeAlloc.allocSystem zeroed g w.heap bytes align = .ok (g.addr, h') ∧
      Links w.alloc h'.mem F pages ∧
      Holds h' pages (freeBlocks F ++ ⟨g.addr, bytes, align⟩ :: w.live) := by
  obtain ⟨hpage, hblocks⟩ := hI.holds.fresh hg.apart
  refine ⟨w.heap.granted zeroed g ⟨bytes, align⟩, ?_, ?_, ?_⟩
  · rw [NodeAlloc.allocSystem, hr.layout, ok_bind, Heap.alloc_ok hg]
  · exact hI.links.frame (fun b hb => hblocks b (List.mem_append_left _ hb)) hpage
      fun y hy => paste_of_apart hy
  · refine Holds.perm (B := ⟨g.addr, bytes, align⟩ :: (freeBlocks F ++ w.live)) ?_ List.perm_middle.symm
    have hB := hI.holds
    refine ⟨hB.sound.granted hg zeroed, ?_, ?_, hB.valid⟩
    · rw [List.filter_cons_of_pos (by rw [hslab]; rfl), List.map_cons]
      exact (hB.held.cons _).trans List.perm_middle.symm
    · rw [List.filter_cons_of_neg (by rw [hslab]; decide)]
      exact hB.carved

theorem allocPop_spec (zeroed : Bool) (hI : Inv w F pages) (hc : classFor bytes align = some c)
    (hne : w.alloc.freelists c ≠ 0) :
    ∃ F' m', w.heap.read (w.alloc.freelists c) = .ok (readWord w.heap.mem (w.alloc.freelists c)) ∧
      NodeAlloc.fill zeroed w.heap (w.alloc.freelists c) bytes = .ok ⟨m', w.heap.held⟩ ∧
      Links (w.alloc.setFreelist c (readWord w.heap.mem (w.alloc.freelists c))) m' F' pages ∧
      Holds ⟨m', w.heap.held⟩ pages (freeBlocks F' ++ ⟨w.alloc.freelists c, bytes, align⟩ :: w.live) := by
  obtain ⟨hlt, hspec⟩ := classFor_spec hc
  have hchain := hI.links.chain c hlt
  generalize hhead : w.alloc.freelists c = head at hne hchain ⊢
  obtain ⟨l, hl⟩ := hchain.head_mem hne
  rw [hl] at hchain
  obtain ⟨-, -, htail⟩ := hchain
  have hblock : (⟨head, bytes, align⟩ : Block) = .ofClass c head :=
    Block.eq_ofClass (b := ⟨head, bytes, align⟩) hc
  have hperm : (freeBlocks F ++ w.live).Perm
      (⟨head, bytes, align⟩ :: (freeBlocks (Function.update F c l) ++ w.live)) := by
    rw [hblock, ← List.cons_append]
    exact (freeBlocks_pop hlt hl).append_right _
  have hB := hI.holds.perm hperm
  obtain ⟨hpage, hblocks⟩ := hB.apart_cons
  have hown : w.heap.Owns head bytes := hB.owns (b := ⟨head, bytes, align⟩) List.mem_cons_self (le_refl _)
  have hword : 8 ≤ bytes := by
    have := (classFacts hlt).word
    rwa [hspec] at this
  have hread : w.heap.Owns head 8 := hB.owns (b := ⟨head, bytes, align⟩) List.mem_cons_self hword
  obtain ⟨m', hfill, hsame⟩ := fill_ok (b := ⟨head, bytes, align⟩) hown zeroed
  refine ⟨Function.update F c l, m', Heap.read_ok hread, hfill, ?_, ?_⟩
  · exact (hI.links.setFreelist htail).frame (fun b hb => hblocks b (List.mem_append_left _ hb)) hpage hsame
  · exact Holds.perm (hB.of_held rfl) List.perm_middle.symm

theorem carveLoop_ok (page step : ℕ) {k head : ℕ} {l : List ℕ} (hstep : 8 ≤ step)
    (hown : ∀ i, 1 ≤ i → i ≤ k → h.Owns (page + SLAB_HEADER + i * step) 8)
    (hchain : Chain h.mem head l) (hhead : head < ADDRESSES)
    (hk : page + SLAB_HEADER + k * step < ADDRESSES) (hl : ∀ a ∈ l, page + SLAB_HEADER + (k + 1) * step ≤ a) :
    ∃ head' h', NodeAlloc.carveLoop page step k head h = .ok (head', h') ∧ h'.held = h.held ∧
      Chain h'.mem head' (((List.range k).map fun i => page + SLAB_HEADER + (i + 1) * step) ++ l) ∧
      ∀ y, y < page + SLAB_HEADER + step ∨ page + SLAB_HEADER + (k + 1) * step ≤ y → h'.mem y = h.mem y := by
  induction k generalizing head h l with
  | zero => exact ⟨head, h, rfl, rfl, hchain, fun _ _ => rfl⟩
  | succ k ih =>
    have hmul : (k + 1 + 1) * step = (k + 1) * step + step := Nat.succ_mul _ _
    have hmul' : (k + 1) * step = k * step + step := Nat.succ_mul _ _
    have hne : page + SLAB_HEADER + (k + 1) * step ≠ 0 := by
      have : SLAB_HEADER = 64 := rfl
      omega
    have hpush := hchain.push hne hhead fun a ha => .inl (by
      have := hl a ha
      dsimp only
      omega)
    obtain ⟨head', h', hloop, hheld, hchain', hsame⟩ := ih
      (h := { h with mem := writeWord h.mem (page + SLAB_HEADER + (k + 1) * step) head })
      (l := (page + SLAB_HEADER + (k + 1) * step) :: l)
      (fun i h1 h2 => hown i h1 (by omega)) hpush hk (by omega) (by
        intro a ha
        rcases List.mem_cons.mp ha with rfl | ha
        · exact le_refl _
        · have := hl a ha
          omega)
    refine ⟨head', h', ?_, hheld, ?_, ?_⟩
    · rw [NodeAlloc.carveLoop]
      simp only [Heap.write_ok (hown (k + 1) (by omega) le_rfl), ok_bind]
      exact hloop
    · rw [List.range_succ, List.map_append, List.append_assoc]
      exact hchain'
    · intro y hy
      rw [hsame y (by omega)]
      exact writeWord_of_apart (by omega)

theorem Holds.page (hB : Holds h pages B) (hp : p.Valid) (hg : h.Grants g p.chunk.layout)
    (haddr : g.addr = p.base) : Holds (h.granted true g p.chunk.layout) (p :: pages) (p.carved ++ B) := by
  have hslab : p.carved.filter Block.onSlab = p.carved :=
    List.filter_eq_self.mpr fun b hb => Page.onSlab_carved hp hb
  have hsys : (p.carved.filter fun b => !b.onSlab) = [] :=
    List.filter_eq_nil_iff.mpr fun b hb => by rw [Page.onSlab_carved hp hb]; decide
  have hchunk : (⟨g.addr, p.chunk.layout⟩ : Chunk) = p.chunk := by rw [haddr]; rfl
  refine ⟨hB.sound.granted hg true, ?_, ?_, ?_⟩
  · rw [Heap.granted, hchunk, List.filter_append, hsys]
    exact hB.held.cons _
  · rw [List.filter_append, hslab, List.flatMap_cons]
    exact hB.carved.append_left _
  · intro q hq
    rcases List.mem_cons.mp hq with rfl | hq
    · exact hp
    · exact hB.valid q hq

theorem Page.carved_eq (hp : p.Valid) : p.carved = .ofClass p.cls (p.base + SLAB_HEADER) ::
    ((List.range (slabBlocks p.cls - 1)).map fun i =>
      p.base + SLAB_HEADER + (i + 1) * classStep p.cls).map (.ofClass p.cls) := by
  have hpos := (classFacts hp.1).blocks hp.2
  obtain ⟨n, hn⟩ : ∃ n, slabBlocks p.cls = n + 1 := ⟨slabBlocks p.cls - 1, by omega⟩
  rw [carved, hn, List.range_succ_eq_map, List.map_cons, List.map_map, List.map_map]
  simp [Function.comp_def]

theorem pageWrites_ok (zeroed : Bool) (hB : Holds h (p :: pages) (p.carved ++ B)) {next : ℕ}
    (hnext : next < ADDRESSES) :
    ∃ m₁ m₂ head' m₃ m₄, h.write p.base next = .ok ⟨m₁, h.held⟩ ∧
      Heap.write ⟨m₁, h.held⟩ (p.base + 8) p.cls = .ok ⟨m₂, h.held⟩ ∧
      NodeAlloc.carveLoop p.base (classStep p.cls) (slabBlocks p.cls - 1) 0 ⟨m₂, h.held⟩ =
        .ok (head', ⟨m₃, h.held⟩) ∧
      NodeAlloc.fill zeroed ⟨m₃, h.held⟩ (p.base + SLAB_HEADER) (classSpec p.cls).1 = .ok ⟨m₄, h.held⟩ ∧
      readWord m₄ p.base = next ∧ readWord m₄ (p.base + 8) = p.cls ∧
      Chain m₄ head' ((List.range (slabBlocks p.cls - 1)).map fun i =>
        p.base + SLAB_HEADER + (i + 1) * classStep p.cls) ∧
      ∀ y, y < p.base ∨ p.base + SLAB_PAGE_SIZE ≤ y → m₄ y = h.mem y := by
  have hp := hB.valid p List.mem_cons_self
  have hf := classFacts hp.1
  have hpage := hf.page hp.2
  have hpos := hf.blocks hp.2
  have hword := hf.word
  have hstep := hf.step
  have hhdr : SLAB_HEADER = 64 := rfl
  have hbound := (hB.page_bounds List.mem_cons_self).2
  obtain ⟨n, hn⟩ : ∃ n, slabBlocks p.cls = n + 1 := ⟨slabBlocks p.cls - 1, by omega⟩
  rw [hn] at hpage ⊢
  rw [Nat.add_sub_cancel]
  have hown : ∀ {a k}, a + k ≤ SLAB_PAGE_SIZE → ∀ m, Heap.Owns ⟨m, h.held⟩ (p.base + a) k :=
    fun hle m => Page.owns (h := ⟨m, h.held⟩) (hB.page_held List.mem_cons_self) hle
  have hw₁ : h.write p.base next = .ok ⟨writeWord h.mem p.base next, h.held⟩ :=
    Heap.write_ok (hown (a := 0) (by omega) h.mem)
  have hw₂ : Heap.write ⟨writeWord h.mem p.base next, h.held⟩ (p.base + 8) p.cls =
      .ok ⟨writeWord (writeWord h.mem p.base next) (p.base + 8) p.cls, h.held⟩ :=
    Heap.write_ok (hown (by omega) _)
  generalize hm₂ : writeWord (writeWord h.mem p.base next) (p.base + 8) p.cls = m₂ at hw₂
  have hread₁ : readWord m₂ p.base = next := by
    rw [← hm₂, readWord_writeWord_of_apart (.inr (le_refl _)), readWord_writeWord hnext]
  have hread₂ : readWord m₂ (p.base + 8) = p.cls := by
    have hcls : p.cls < ADDRESSES := lt_trans hp.1 (by decide)
    rw [← hm₂, readWord_writeWord hcls]
  have hmul : (n + 1) * classStep p.cls = n * classStep p.cls + classStep p.cls := Nat.succ_mul _ _
  obtain ⟨head', h₃, hloop, hheld, hchain, hsame₃⟩ := carveLoop_ok (h := ⟨m₂, h.held⟩) p.base
    (classStep p.cls) (k := n) (l := []) (by omega) (fun i h1 h2 => by
      have hi : i * classStep p.cls ≤ n * classStep p.cls := Nat.mul_le_mul_right _ h2
      rw [Nat.add_assoc]
      exact hown (by omega) m₂) rfl (by decide) (by omega) (by simp)
  obtain ⟨m₃, held₃⟩ := h₃
  dsimp only at hheld hchain hsame₃
  subst hheld
  rw [List.append_nil] at hchain
  have hfirst : Heap.Owns ⟨m₃, h.held⟩ (p.base + SLAB_HEADER) (classSpec p.cls).1 := hown (by omega) m₃
  obtain ⟨m₄, hfill, hsame₄⟩ := fill_ok (b := .ofClass p.cls (p.base + SLAB_HEADER)) hfirst zeroed
  have hsame₄' : ∀ y, y < p.base + SLAB_HEADER ∨ p.base + SLAB_HEADER + (classSpec p.cls).1 ≤ y →
      m₄ y = m₃ y := hsame₄
  have hheader : ∀ y, y < p.base + SLAB_HEADER → m₄ y = m₂ y := fun y hy =>
    (hsame₄' y (by omega)).trans (hsame₃ y (by omega))
  refine ⟨_, m₂, head', m₃, m₄, hw₁, hw₂, hloop, hfill, ?_, ?_, ?_, ?_⟩
  · rw [readWord_congr fun y h1 h2 => hheader y (by omega), hread₁]
  · rw [readWord_congr fun y h1 h2 => hheader y (by omega), hread₂]
  · refine hchain.congr fun a ha => readWord_congr fun y h1 h2 => hsame₄' y (.inr ?_)
    obtain ⟨i, -, rfl⟩ := List.mem_map.mp ha
    have hi : classStep p.cls ≤ (i + 1) * classStep p.cls := Nat.le_mul_of_pos_left _ (by omega)
    omega
  · intro y hy
    rw [hsame₄' y (by omega), hsame₃ y (by omega), ← hm₂, writeWord_of_apart (by omega),
      writeWord_of_apart (by omega)]

theorem allocRaw_spec (zeroed : Bool) (hI : Inv w F pages) (hr : Request bytes align)
    (hg : ∀ l ∈ w.alloc.asks bytes align, w.heap.Grants g l) :
    ∃ ptr s' h' F' pages', w.alloc.allocRaw zeroed g w.heap bytes align = .ok (ptr, s', h') ∧
      Inv ⟨s', h', ⟨ptr, bytes, align⟩ :: w.live⟩ F' pages' := by
  unfold NodeAlloc.allocRaw
  unfold NodeAlloc.asks at hg
  cases hcls : classFor bytes align with
  | none =>
    simp only [hcls] at hg ⊢
    have hslab : Block.onSlab ⟨g.addr, bytes, align⟩ = false := by
      rw [Block.onSlab]
      simp only [hcls]
    obtain ⟨h', halloc, hlinks, hholds⟩ := allocSystem_spec zeroed hI hr (hg _ rfl) hslab
    simp only [halloc, ok_bind, pure_eq_ok]
    exact ⟨_, _, _, F, pages, rfl, hI.charge hr (hlinks.counters rfl rfl) hholds rfl rfl⟩
  | some c =>
    obtain ⟨hlt, hspec⟩ := classFor_spec hcls
    simp only [hcls] at hg ⊢
    by_cases hne : w.alloc.freelists c ≠ 0
    · obtain ⟨F', m', hread, hfill, hlinks, hholds⟩ := allocPop_spec zeroed hI hcls hne
      simp only [if_pos hne, hread, hfill, ok_bind, pure_eq_ok]
      exact ⟨_, _, _, F', pages, rfl, hI.charge hr (hlinks.counters rfl rfl) hholds rfl rfl⟩
    rw [if_neg hne] at hg ⊢
    by_cases hsmall : bytes ≤ 256
    · rw [if_pos hsmall] at hg ⊢
      have hzero : w.alloc.freelists c = 0 := not_not.mp hne
      have hnil : F c = [] := (hI.links.chain c hlt).eq_nil_iff.mpr hzero
      have hvalid : Page.Valid ⟨g.addr, c⟩ := ⟨hlt, by rw [isSlabClass, hspec]; exact decide_eq_true hsmall⟩
      have hlay : (Page.chunk ⟨g.addr, c⟩).layout = ⟨SLAB_PAGE_SIZE, max align CACHE_LINE⟩ := by
        rw [Page.chunk, hspec]
      have hgrant := hg _ rfl
      rw [← hlay] at hgrant
      have hB := hI.holds.page hvalid hgrant rfl
      obtain ⟨m₁, m₂, head', m₃, m₄, hw₁, hw₂, hloop, hfill, hnext, hheader, hchain, hsame⟩ :=
        pageWrites_ok zeroed hB hI.slabPages_lt
      have hstep : accountedSize bytes align = classStep c := by rw [classStep, hspec]
      have hblocks : (SLAB_PAGE_SIZE - SLAB_HEADER) / classStep c = slabBlocks c := rfl
      rw [hspec] at hfill
      simp only [← hlay, Heap.alloc_ok hgrant, hw₁, hw₂, hzero, hstep, hblocks, hloop, hfill, ok_bind,
        pure_eq_ok]
      refine ⟨_, _, _, Function.update F c ((List.range (slabBlocks c - 1)).map fun i =>
        g.addr + SLAB_HEADER + (i + 1) * classStep c), ⟨g.addr, c⟩ :: pages, rfl, ?_⟩
      have hfresh := hI.holds.fresh hgrant.apart
      have hold : Links w.alloc m₄ F pages := by
        refine hI.links.frame (x := (g.addr, SLAB_PAGE_SIZE))
          (fun b hb => hfresh.2 b (List.mem_append_left _ hb)) hfresh.1 fun y hy => ?_
        rw [hsame y hy]
        exact paste_of_apart hy
      have hlists := hold.setFreelist (c := c) hchain
      refine hI.charge hr ⟨hlists.chain, ⟨rfl, hgrant.addr, ?_⟩, ?_⟩ ?_ (by rw [← hstep]; rfl) rfl
      · rw [hnext]
        exact hold.slab
      · intro q hq
        rcases List.mem_cons.mp hq with rfl | hq
        · exact hheader
        · exact hold.header q hq
      · refine Holds.perm (hB.of_held rfl) ?_
        have hblock : (⟨g.addr + SLAB_HEADER, bytes, align⟩ : Block) = .ofClass c (g.addr + SLAB_HEADER) :=
          Block.eq_ofClass (b := ⟨g.addr + SLAB_HEADER, bytes, align⟩) hcls
        rw [Page.carved_eq hvalid, hblock, ← List.append_assoc, List.cons_append]
        exact ((((freeBlocks_append hlt _ hnil).symm.cons _).append_right _)).trans List.perm_middle.symm
    · rw [if_neg hsmall] at hg ⊢
      have hslab : Block.onSlab ⟨g.addr, bytes, align⟩ = false := by
        rw [Block.onSlab_of_class (b := ⟨g.addr, bytes, align⟩) hcls, isSlabClass, hspec]
        exact decide_eq_false hsmall
      obtain ⟨h', halloc, hlinks, hholds⟩ := allocSystem_spec zeroed hI hr (hg _ rfl) hslab
      simp only [halloc, ok_bind, pure_eq_ok]
      exact ⟨_, _, _, F, pages, rfl, hI.charge hr (hlinks.counters rfl rfl) hholds rfl rfl⟩

theorem fetchSub_ok {n k : ℕ} (h : n ≤ k) : NodeAlloc.fetchSub k n = .ok (k - n) := if_pos h

theorem Inv.discharge (hI : Inv w F pages) (hb : b ∈ w.live) {t : NodeAlloc} {h' : Heap}
    {F' : ℕ → List ℕ} (hlinks : Links t h'.mem F' pages)
    (hholds : Holds h' pages (freeBlocks F' ++ w.live.erase b))
    (hbytes : t.bytesInUse = w.alloc.bytesInUse - b.accounted)
    (hallocs : t.liveAllocs = w.alloc.liveAllocs - 1) : Inv ⟨t, h', w.live.erase b⟩ F' pages := by
  have hperm := List.perm_cons_erase hb
  have hsum := (hperm.map Block.accounted).sum_eq
  rw [List.map_cons, List.sum_cons, ← hI.bytes] at hsum
  refine ⟨hlinks, hholds, ?_, ?_, fun x hx => hI.request x (List.mem_of_mem_erase hx)⟩
  · dsimp only
    omega
  · rw [List.length_erase_of_mem hb, ← hI.allocs]
    exact hallocs

theorem freeRaw_spec (hI : Inv w F pages) (hb : b ∈ w.live) :
    ∃ s' h' F', w.alloc.freeRaw w.heap b.ptr b.bytes b.align = .ok (s', h') ∧
      Inv ⟨s', h', w.live.erase b⟩ F' pages := by
  have hlive := List.perm_cons_erase hb
  have hsum := (hlive.map Block.accounted).sum_eq
  rw [List.map_cons, List.sum_cons, ← hI.bytes] at hsum
  have hlen := List.length_pos_of_mem hb
  rw [← hI.allocs] at hlen
  have hsub : NodeAlloc.fetchSub w.alloc.bytesInUse (accountedSize b.bytes b.align) =
      .ok (w.alloc.bytesInUse - b.accounted) := fetchSub_ok (by rw [hsum]; exact Nat.le_add_right _ _)
  have hsub' : NodeAlloc.fetchSub w.alloc.liveAllocs 1 = .ok (w.alloc.liveAllocs - 1) := fetchSub_ok hlen
  have hB : Holds w.heap pages (b :: (freeBlocks F ++ w.live.erase b)) :=
    hI.holds.perm ((hlive.append_left _).trans List.perm_middle)
  obtain ⟨hpage, hblocks⟩ := hB.apart_cons
  unfold NodeAlloc.freeRaw
  simp only [hsub, hsub', ok_bind]
  cases hcls : classFor b.bytes b.align with
  | none =>
    have hslab : b.onSlab = false := by
      rw [Block.onSlab]
      simp only [hcls]
    have hheld : b.chunk ∈ w.heap.held := by
      rcases hB.place List.mem_cons_self with ⟨hs, -⟩ | ⟨-, hc⟩
      · rw [hslab] at hs
        cases hs
      · exact hc
    have hdealloc : w.heap.dealloc b.ptr ⟨b.bytes, b.align⟩ =
        .ok { w.heap with held := w.heap.held.erase b.chunk } := Heap.dealloc_ok hheld
    simp only [(hI.request b hb).2.2 hcls, hdealloc, ok_bind, pure_eq_ok]
    refine ⟨_, _, F, rfl, hI.discharge hb (hI.links.counters rfl rfl) ?_ rfl rfl⟩
    have hcons := List.perm_cons_erase hheld
    have hold := hB.held
    rw [List.filter_cons_of_pos (by rw [hslab]; rfl), List.map_cons] at hold
    refine ⟨hB.sound.of_perm (l := [b.chunk]) (hcons.trans (List.perm_append_singleton _ _).symm), ?_, ?_,
      hB.valid⟩
    · exact (hcons.symm.trans (hold.trans List.perm_middle)).cons_inv
    · have hcarved := hB.carved
      rwa [List.filter_cons_of_neg (by rw [hslab]; decide)] at hcarved
  | some c =>
    obtain ⟨hlt, hspec⟩ := classFor_spec hcls
    have hword : 8 ≤ b.bytes := by
      have := (classFacts hlt).word
      rwa [hspec] at this
    have hwrite : w.heap.write b.ptr (w.alloc.freelists c) = .ok
        { w.heap with mem := writeWord w.heap.mem b.ptr (w.alloc.freelists c) } :=
      Heap.write_ok (hB.owns List.mem_cons_self hword)
    simp only [hwrite, ok_bind, pure_eq_ok]
    have hframe : Links w.alloc (writeWord w.heap.mem b.ptr (w.alloc.freelists c)) F pages := by
      refine hI.links.frame (x := b.span) (fun x hx => hblocks x (List.mem_append_left _ hx)) hpage
        fun y hy => ?_
      change y < b.ptr ∨ b.ptr + b.bytes ≤ y at hy
      exact writeWord_of_apart (by omega)
    have hpush : Chain (writeWord w.heap.mem b.ptr (w.alloc.freelists c)) b.ptr (b.ptr :: F c) := by
      refine (hI.links.chain c hlt).push (hB.block_bounds List.mem_cons_self).1 (hI.freelist_lt hlt)
        fun a ha => ?_
      have hmem : Block.ofClass c a ∈ freeBlocks F := mem_freeBlocks.mpr ⟨c, hlt, a, ha, rfl⟩
      have hw := (classFacts hlt).word
      exact (hblocks _ (List.mem_append_left _ hmem)).inside ⟨le_refl _, Nat.add_le_add_left hword _⟩
        ⟨le_refl _, Nat.add_le_add_left hw _⟩
    refine ⟨_, _, Function.update F c (b.ptr :: F c), rfl,
      hI.discharge hb ((hframe.setFreelist hpush).counters rfl rfl) ?_ rfl rfl⟩
    refine Holds.perm (hB.of_held rfl) ?_
    have hblock := Block.eq_ofClass hcls
    have hfree := freeBlocks_push (F := F) hlt b.ptr
    rw [← hblock] at hfree
    exact (hfree.append_right _).symm

/-- The caller writes only inside its own blocks. -/
def OwnStores (w : World) (m : Memory) : Prop :=
  ∀ y, w.heap.Owns y 1 → (∀ b ∈ w.live, y < b.ptr ∨ b.ptr + b.bytes ≤ y) → m y = w.heap.mem y

theorem store_spec (hI : Inv w F pages) (hm : OwnStores w m) :
    Inv ⟨w.alloc, ⟨m, w.heap.held⟩, w.live⟩ F pages := by
  have hap := hI.holds.apart
  rw [List.map_append, ← List.append_assoc] at hap
  obtain ⟨-, -, hcross⟩ := List.pairwise_append.mp hap
  refine ⟨hI.links.congr_bytes ?_ ?_, hI.holds.of_held rfl, hI.bytes, hI.allocs, hI.request⟩
  · intro b hb y hlo hhi
    have howned : w.heap.Owns y 1 := by
      obtain ⟨k, hk, h1, h2⟩ := hI.holds.owns (List.mem_append_left _ hb) (le_refl b.bytes)
      exact .of_held hk (by omega) (by omega)
    refine hm y howned fun x hx => ?_
    have := hcross b.span (List.mem_append_right _ (List.mem_map_of_mem hb)) x.span (List.mem_map_of_mem hx)
    unfold Apart Block.span at this
    dsimp only at this
    omega
  · intro p hp y hlo hhi
    have howned : w.heap.Owns y 1 := by
      obtain ⟨k, hk, h1, h2⟩ := hI.holds.owns_header hp (a := 0) (n := SLAB_HEADER) (by omega)
      exact .of_held hk (by omega) (by omega)
    refine hm y howned fun x hx => ?_
    have := hcross p.header (List.mem_append_left _ (List.mem_map_of_mem hp)) x.span (List.mem_map_of_mem hx)
    unfold Apart Block.span Page.header at this
    dsimp only at this
    omega

end Expanse.Alloc
