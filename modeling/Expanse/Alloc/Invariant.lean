import Expanse.Alloc.Blocks

/-!
# The invariant of the allocator

`Links` reads the freelists and the slab list out of memory. `Holds` says that the chunks held
from the system are the pages and the blocks asked for one by one, and that the pages carve
exactly the other blocks. Everything the allocator or its caller writes to therefore lies
apart from everything else.
-/

namespace Expanse.Alloc

open SysHeap NextFit Intervals
open Occ (CACHE_LINE RAW_ALIGN classFor)

/-- The handle, the heap and the blocks handed out and not yet freed. -/
structure World where
  alloc : NodeAlloc
  heap : Heap
  live : List Block

def World.new : World := ⟨.new, ⟨fun _ => 0, []⟩, []⟩

structure Links (s : NodeAlloc) (m : Memory) (F : ℕ → List ℕ) (pages : List Page) : Prop where
  chain : ∀ c < NUM_CLASSES, Chain m (s.freelists c) (F c)
  slab : Chain m s.slabPages (pages.map Page.base)
  header : ∀ p ∈ pages, readWord m (p.base + 8) = p.cls

/-- The chunks held, the pages and all blocks, free or live. -/
structure Holds (h : Heap) (pages : List Page) (B : List Block) : Prop where
  sound : h.Sound
  held : h.held.Perm (pages.map Page.chunk ++ (B.filter fun b => !b.onSlab).map Block.chunk)
  carved : (B.filter Block.onSlab).Perm (pages.flatMap Page.carved)
  valid : ∀ p ∈ pages, p.Valid

variable {s : NodeAlloc} {h h' : Heap} {m m' : Memory} {F : ℕ → List ℕ} {pages : List Page}
  {B B' : List Block} {b : Block} {p : Page} {c a n : ℕ}

namespace Holds

theorem perm (hB : Holds h pages B) (hp : B.Perm B') : Holds h pages B' :=
  ⟨hB.sound, hB.held.trans ((((hp.filter _).map _)).append_left _), (hp.filter _).symm.trans hB.carved,
    hB.valid⟩

theorem of_held (hB : Holds h pages B) (heq : h'.held = h.held) : Holds h' pages B := by
  refine ⟨⟨?_, ?_, ?_⟩, ?_, hB.carved, hB.valid⟩
  · rw [heq]
    exact hB.sound.apart
  · rw [heq]
    exact hB.sound.base
  · rw [heq]
    exact hB.sound.top
  · rw [heq]
    exact hB.held

theorem place (hB : Holds h pages B) (hb : b ∈ B) :
    (b.onSlab = true ∧ ∃ p ∈ pages, b ∈ p.carved) ∨ b.onSlab = false ∧ b.chunk ∈ h.held := by
  cases hs : b.onSlab with
  | true =>
    left
    have hm := hB.carved.mem_iff.mp (List.mem_filter.mpr ⟨hb, hs⟩)
    obtain ⟨p, hp, hb⟩ := List.mem_flatMap.mp hm
    exact ⟨rfl, p, hp, hb⟩
  | false =>
    right
    refine ⟨rfl, hB.held.mem_iff.mpr (List.mem_append_right _ (List.mem_map_of_mem ?_))⟩
    exact List.mem_filter.mpr ⟨hb, by rw [hs]; rfl⟩

theorem page_held (hB : Holds h pages B) (hp : p ∈ pages) : p.chunk ∈ h.held :=
  hB.held.mem_iff.mpr (List.mem_append_left _ (List.mem_map_of_mem hp))

theorem owns (hB : Holds h pages B) (hb : b ∈ B) (hn : n ≤ b.bytes) : h.Owns b.ptr n := by
  rcases hB.place hb with ⟨-, p, hp, hc⟩ | ⟨-, hc⟩
  · obtain ⟨h1, h2, h3⟩ := Page.carved_inside (hB.valid p hp) hc
    refine .of_held (hB.page_held hp) ?_ ?_
    · change p.base ≤ b.ptr
      omega
    · change b.ptr + n ≤ p.base + SLAB_PAGE_SIZE
      omega
  · refine .of_held hc (le_refl b.ptr) ?_
    change b.ptr + n ≤ b.ptr + b.bytes
    omega

theorem owns_header (hB : Holds h pages B) (hp : p ∈ pages) (hn : a + n ≤ SLAB_HEADER) :
    h.Owns (p.base + a) n := by
  have : SLAB_HEADER ≤ SLAB_PAGE_SIZE := by decide
  exact Page.owns (hB.page_held hp) (by omega)

theorem page_bounds (hB : Holds h pages B) (hp : p ∈ pages) :
    p.base ≠ 0 ∧ p.base + SLAB_PAGE_SIZE ≤ ADDRESSES :=
  ⟨hB.sound.base _ (hB.page_held hp), hB.sound.top _ (hB.page_held hp)⟩

theorem block_bounds (hB : Holds h pages B) (hb : b ∈ B) : b.ptr ≠ 0 ∧ b.ptr + b.bytes ≤ ADDRESSES := by
  rcases hB.place hb with ⟨-, p, hp, hc⟩ | ⟨-, hc⟩
  · obtain ⟨h1, h2, h3⟩ := Page.carved_inside (hB.valid p hp) hc
    obtain ⟨h4, h5⟩ := hB.page_bounds hp
    omega
  · exact ⟨hB.sound.base _ hc, hB.sound.top _ hc⟩

theorem chunks_apart (hB : Holds h pages B) :
    (pages.map Page.span ++ (B.filter fun b => !b.onSlab).map Block.span).Pairwise Apart := by
  have hap := (hB.held.map Chunk.span).pairwise hB.sound.apart Apart.symm
  rw [List.map_append, List.map_map, List.map_map] at hap
  exact hap

theorem apart (hB : Holds h pages B) : (pages.map Page.header ++ B.map Block.span).Pairwise Apart := by
  obtain ⟨hpages, hsys, hcross⟩ := List.pairwise_append.mp hB.chunks_apart
  have hinside : ∀ p ∈ pages, ∀ x ∈ p.header :: p.carved.map Block.span, Inside x p.span := by
    intro p hp x hx
    have hle : SLAB_HEADER ≤ SLAB_PAGE_SIZE := by decide
    rcases List.mem_cons.mp hx with rfl | hx
    · exact ⟨le_refl _, Nat.add_le_add_left hle _⟩
    · obtain ⟨b, hb, rfl⟩ := List.mem_map.mp hx
      obtain ⟨h1, h2, h3⟩ := Page.carved_inside (hB.valid p hp) hb
      refine ⟨?_, ?_⟩
      · change p.base ≤ b.ptr
        omega
      · change b.ptr + b.bytes ≤ p.base + SLAB_PAGE_SIZE
        omega
  have hparts : (pages.flatMap (fun p => p.header :: p.carved.map Block.span) ++
      (B.filter fun b => !b.onSlab).map Block.span).Pairwise Apart := by
    refine List.pairwise_append.mpr ⟨?_, hsys, ?_⟩
    · exact pairwise_flatMap hpages (fun p hp => Page.parts_apart (hB.valid p hp)) hinside
    · intro x hx y hy
      obtain ⟨p, hp, hx⟩ := List.mem_flatMap.mp hx
      exact (hcross _ (List.mem_map_of_mem hp) y hy).inside (hinside p hp x hx) ⟨le_refl _, le_refl _⟩
  refine List.Perm.pairwise ?_ hparts Apart.symm
  -- headers first, then the carved blocks, then the blocks by themselves
  have hgroup : (pages.map Page.header ++ pages.flatMap fun p => p.carved.map Block.span).Perm
      (pages.flatMap fun p => p.header :: p.carved.map Block.span) :=
    List.map_append_flatMap_perm _ _ _
  have hcarved : (pages.flatMap fun p => p.carved.map Block.span).Perm
      ((B.filter Block.onSlab).map Block.span) := by
    rw [← List.map_flatMap]
    exact (hB.carved.map _).symm
  have hblocks : ((B.filter Block.onSlab).map Block.span ++ (B.filter fun b => !b.onSlab).map Block.span).Perm
      (B.map Block.span) := by
    rw [← List.map_append]
    exact (List.filter_append_perm _ B).map _
  calc (pages.flatMap fun p => p.header :: p.carved.map Block.span) ++
          (B.filter fun b => !b.onSlab).map Block.span
    _ |>.Perm ((pages.map Page.header ++ pages.flatMap fun p => p.carved.map Block.span) ++
          (B.filter fun b => !b.onSlab).map Block.span) := hgroup.symm.append_right _
    _ |>.Perm ((pages.map Page.header ++ (B.filter Block.onSlab).map Block.span) ++
          (B.filter fun b => !b.onSlab).map Block.span) := (hcarved.append_left _).append_right _
    _ |>.Perm (pages.map Page.header ++ B.map Block.span) := by
      rw [List.append_assoc]
      exact hblocks.append_left _

theorem apart_cons (hB : Holds h pages (b :: B)) :
    (∀ p ∈ pages, Apart b.span p.header) ∧ ∀ b' ∈ B, Apart b.span b'.span := by
  obtain ⟨-, hblocks, hcross⟩ := List.pairwise_append.mp hB.apart
  refine ⟨fun p hp => ?_, fun b' hb' => ?_⟩
  · exact (hcross _ (List.mem_map_of_mem hp) _ (List.mem_map_of_mem List.mem_cons_self)).symm
  · rw [List.map_cons, List.pairwise_cons] at hblocks
    exact hblocks.1 _ (List.mem_map_of_mem hb')

end Holds

namespace Links

theorem congr (hl : Links s m F pages) (hfree : ∀ b ∈ freeBlocks F, readWord m' b.ptr = readWord m b.ptr)
    (hpage : ∀ p ∈ pages, readWord m' p.base = readWord m p.base ∧
      readWord m' (p.base + 8) = readWord m (p.base + 8)) : Links s m' F pages := by
  refine ⟨fun c hc => (hl.chain c hc).congr fun a ha => ?_, hl.slab.congr fun a ha => ?_, fun p hp => ?_⟩
  · have hmem : Block.ofClass c a ∈ freeBlocks F := mem_freeBlocks.mpr ⟨c, hc, a, ha, rfl⟩
    exact hfree (.ofClass c a) hmem
  · obtain ⟨p, hp, rfl⟩ := List.mem_map.mp ha
    exact (hpage p hp).1
  · rw [(hpage p hp).2]
    exact hl.header p hp

theorem congr_bytes (hl : Links s m F pages) (hfree : ∀ b ∈ freeBlocks F, ∀ x, b.ptr ≤ x → x < b.ptr + b.bytes →
      m' x = m x)
    (hpage : ∀ p ∈ pages, ∀ x, p.base ≤ x → x < p.base + SLAB_HEADER → m' x = m x) :
    Links s m' F pages := by
  have hhdr : SLAB_HEADER = 64 := rfl
  refine hl.congr (fun b hb => readWord_congr fun x hlo hhi => hfree b hb x hlo ?_) fun p hp => ⟨?_, ?_⟩
  · obtain ⟨c, hc, a, -, rfl⟩ := mem_freeBlocks.mp hb
    have := (classFacts hc).word
    change x < a + (classSpec c).1
    change x < a + 8 at hhi
    omega
  · exact readWord_congr fun x hlo hhi => hpage p hp x hlo (by omega)
  · exact readWord_congr fun x hlo hhi => hpage p hp x (by omega) (by omega)

theorem frame (hl : Links s m F pages) {x : ℕ × ℕ} (hfree : ∀ b ∈ freeBlocks F, Apart x b.span)
    (hpage : ∀ p ∈ pages, Apart x p.header)
    (heq : ∀ y, y < x.1 ∨ x.1 + x.2 ≤ y → m' y = m y) : Links s m' F pages := by
  refine hl.congr_bytes (fun b hb y hlo hhi => heq y ?_) fun p hp y hlo hhi => heq y ?_
  · have hap := hfree b hb
    unfold Apart Block.span at hap
    dsimp only at hap
    omega
  · have hap := hpage p hp
    unfold Apart Page.header at hap
    dsimp only at hap
    omega

theorem counters (hl : Links s m F pages) {t : NodeAlloc} (hf : t.freelists = s.freelists)
    (hp : t.slabPages = s.slabPages) : Links t m F pages := by
  refine ⟨?_, ?_, hl.header⟩
  · rw [hf]
    exact hl.chain
  · rw [hp]
    exact hl.slab

theorem setFreelist (hl : Links s m F pages) {head : ℕ} {l : List ℕ} (hc : Chain m head l) :
    Links (s.setFreelist c head) m (Function.update F c l) pages := by
  refine ⟨fun d hd => ?_, hl.slab, hl.header⟩
  by_cases hdc : d = c
  · subst hdc
    rw [NodeAlloc.freelists_setFreelist, Function.update_self, Function.update_self]
    exact hc
  · rw [NodeAlloc.freelists_setFreelist, Function.update_of_ne hdc, Function.update_of_ne hdc]
    exact hl.chain d hd

end Links

structure Inv (w : World) (F : ℕ → List ℕ) (pages : List Page) : Prop where
  links : Links w.alloc w.heap.mem F pages
  holds : Holds w.heap pages (freeBlocks F ++ w.live)
  bytes : w.alloc.bytesInUse = (w.live.map Block.accounted).sum
  allocs : w.alloc.liveAllocs = w.live.length
  request : ∀ b ∈ w.live, 0 < b.bytes ∧ 0 < b.align ∧
    (classFor b.bytes b.align = none → layoutFor b.bytes b.align = .ok ⟨b.bytes, b.align⟩)

theorem inv_new : Inv .new (fun _ => []) [] := by
  refine ⟨⟨fun c _ => rfl, rfl, by simp⟩, ⟨⟨?_, ?_, ?_⟩, ?_, ?_, by simp⟩, rfl, rfl, ?_⟩
  · exact List.Pairwise.nil
  · intro c hc
    cases hc
  · intro c hc
    cases hc
  · rw [freeBlocks_nil]
    exact List.Perm.refl _
  · rw [freeBlocks_nil]
    exact List.Perm.refl _
  · intro b hb
    cases hb

end Expanse.Alloc
