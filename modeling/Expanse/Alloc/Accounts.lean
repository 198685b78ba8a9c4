import Expanse.Alloc.Release

/-!
# Runs of an allocator

A single thread allocates, frees, writes to its blocks and releases what is free, in any order.
Between the calls the live blocks lie apart, each slab page is divided between its free and its
live blocks, and the bytes in use are those accounted for the live blocks. A release gives back
the pages without a live block, and the bytes held fall by what it returns.
-/

namespace Expanse.Alloc

open SysHeap NextFit Intervals Runs

namespace World

def freelist (w : World) (c : ℕ) : List ℕ := walk w.heap.mem ADDRESSES (w.alloc.freelists c)

def pages (w : World) : List Page :=
  (walk w.heap.mem ADDRESSES w.alloc.slabPages).map fun a => ⟨a, readWord w.heap.mem (a + 8)⟩

def freeOn (w : World) (p : Page) : List Block := (freeBlocks w.freelist).filter fun b => p.Has b.ptr

def liveOn (w : World) (p : Page) : List Block := w.live.filter fun b => p.Has b.ptr

def idle (w : World) (p : Page) : Bool := (w.liveOn p).isEmpty

/-- The free blocks that lie on no page, as the system knows them. -/
def freeChunks (w : World) : List Chunk :=
  ((freeBlocks w.freelist).filter fun b => !b.onSlab).map Block.chunk

end World

variable {w : World} {F : ℕ → List ℕ} {pages : List Page} {c n : ℕ}

theorem Inv.freelist_eq (hI : Inv w F pages) (hc : c < NUM_CLASSES) : w.freelist c = F c :=
  (hI.links.chain c hc).walk_eq (hI.holds.free_short hc)

theorem Inv.pages_eq (hI : Inv w F pages) : w.pages = pages := by
  have hshort : (pages.map Page.base).length ≤ ADDRESSES := by
    rw [List.length_map]
    exact hI.holds.pages_short
  rw [World.pages, hI.links.slab.walk_eq hshort, List.map_map]
  refine (List.map_congr_left fun p hp => ?_).trans (List.map_id pages)
  rw [Function.comp_apply, hI.links.header p hp]
  rfl

theorem Inv.freeBlocks_eq (hI : Inv w F pages) : freeBlocks w.freelist = freeBlocks F :=
  freeBlocks_congr fun _ hc => hI.freelist_eq hc

theorem World.idle_eq (w : World) (p : Page) : w.idle p = !busy w.live p := by
  rw [World.idle, World.liveOn, busy, Bool.eq_iff_iff, List.isEmpty_iff, List.filter_eq_nil_iff,
    Bool.not_eq_true', List.any_eq_false]

inductive Op where
  | alloc (zeroed : Bool) (bytes align : ℕ) (g : Grant)
  | free (b : Block)
  | store (a v : ℕ)
  | releaseFree

/-- The address handed out, or the bytes released. -/
def step (w : World) : Op → Except SysHeap.Fault (Option ℕ × World)
  | .alloc zeroed bytes align g => do
    let (ptr, s, h) ← w.alloc.allocRaw zeroed g w.heap bytes align
    return (some ptr, ⟨s, h, ⟨ptr, bytes, align⟩ :: w.live⟩)
  | .free b => do
    let (s, h) ← w.alloc.freeRaw w.heap b.ptr b.bytes b.align
    return (none, ⟨s, h, w.live.erase b⟩)
  | .store a v => .ok (none, ⟨w.alloc, ⟨Function.update w.heap.mem a v, w.heap.held⟩, w.live⟩)
  | .releaseFree => do
    let (n, s, h) ← w.alloc.releaseFree w.heap
    return (some n, ⟨s, h, w.live⟩)

/-- The layout asked for is valid and the system allocator answers as it must; a block is freed
while it is live, as it was asked for; the caller writes to its own blocks. -/
def Lawful (w : World) : Op → Prop
  | .alloc _ bytes align g => Request bytes align ∧ ∀ l ∈ w.alloc.asks bytes align, w.heap.Grants g l
  | .free b => b ∈ w.live
  | .store a _ => ∃ b ∈ w.live, b.ptr ≤ a ∧ a < b.ptr + b.bytes
  | .releaseFree => True

instance (w : World) : ∀ op, Decidable (Lawful w op)
  | .alloc _ bytes align g =>
    inferInstanceAs (Decidable (Request bytes align ∧ ∀ l ∈ w.alloc.asks bytes align, w.heap.Grants g l))
  | .free b => inferInstanceAs (Decidable (b ∈ w.live))
  | .store a _ => inferInstanceAs (Decidable (∃ b ∈ w.live, b.ptr ≤ a ∧ a < b.ptr + b.bytes))
  | .releaseFree => .isTrue trivial

/-- Every lawful call returns and keeps the invariant. -/
theorem step_spec (hI : Inv w F pages) {op : Op} (hop : Lawful w op) :
    ∃ out w' F' pages', step w op = .ok (out, w') ∧ Inv w' F' pages' := by
  cases op with
  | alloc zeroed bytes align g =>
    obtain ⟨ptr, s', h', F', pages', hrun, hinv⟩ := allocRaw_spec zeroed hI hop.1 hop.2
    refine ⟨some ptr, _, F', pages', ?_, hinv⟩
    simp only [step, hrun, ok_bind, pure_eq_ok]
  | free b =>
    obtain ⟨s', h', F', hrun, hinv⟩ := freeRaw_spec hI hop
    refine ⟨none, _, F', pages, ?_, hinv⟩
    simp only [step, hrun, ok_bind, pure_eq_ok]
  | store a v =>
    refine ⟨none, _, F, pages, rfl, store_spec hI fun y _ hy => ?_⟩
    obtain ⟨b, hb, h1, h2⟩ := hop
    have := hy b hb
    exact Function.update_of_ne (by omega) _ _
  | releaseFree =>
    obtain ⟨n, s', h', kept, hrun, hrel⟩ := releaseFree_spec hI
    refine ⟨some n, _, _, kept, ?_, hrel.inv⟩
    simp only [step, hrun, ok_bind, pure_eq_ok]

/-- Every state of a run has freelists and pages in memory that make the invariant true. -/
theorem run_inv (hI : Inv w F pages) {ops : List Op} (h : Along step Lawful w ops) :
    ∃ outs w' F' pages', run step w ops = .ok (outs, w') ∧ Inv w' F' pages' := by
  induction ops generalizing w F pages with
  | nil => exact ⟨[], w, F, pages, rfl, hI⟩
  | cons op ops ih =>
    obtain ⟨hop, hrest⟩ := h
    obtain ⟨out, w₁, F₁, pages₁, hstep, hI₁⟩ := step_spec hI hop
    rw [hstep] at hrest
    obtain ⟨outs, w', F', pages', hrun, hI'⟩ := ih hI₁ hrest
    refine ⟨out :: outs, w', F', pages', ?_, hI'⟩
    simp only [run, hstep, hrun]

/-- The lists end; the live blocks lie apart, divide the pages with the free ones, and are what is
charged. -/
structure Accounts (w : World) : Prop where
  freelists : ∀ c < NUM_CLASSES, Chain w.heap.mem (w.alloc.freelists c) (w.freelist c)
  slabPages : Chain w.heap.mem w.alloc.slabPages (w.pages.map Page.base)
  apart : (w.live.map Block.span).Pairwise Apart
  onPages : ∀ p ∈ w.pages, (w.freeOn p ++ w.liveOn p).Perm p.carved
  bytes : w.alloc.bytesInUse = (w.live.map Block.accounted).sum

theorem Inv.accounts (hI : Inv w F pages) : Accounts w := by
  refine ⟨?_, ?_, ?_, ?_, hI.bytes⟩
  · intro c hc
    rw [hI.freelist_eq hc]
    exact hI.links.chain c hc
  · rw [hI.pages_eq]
    exact hI.links.slab
  · obtain ⟨-, hblocks, -⟩ := List.pairwise_append.mp hI.holds.apart
    rw [List.map_append] at hblocks
    exact (List.pairwise_append.mp hblocks).2.1
  · intro p hp
    rw [hI.pages_eq] at hp
    rw [World.freeOn, World.liveOn, ← List.filter_append, hI.freeBlocks_eq]
    exact hI.holds.on_page (fun b hb => hI.bytes_pos hb) hp

/-- A release of `n` bytes that leads from `w` to `w'`. -/
structure Releases (w : World) (n : ℕ) (w' : World) : Prop where
  live : w'.live = w.live
  pages : w'.pages.Perm (w.pages.filter fun p => !w.idle p)
  freelists : ∀ c < NUM_CLASSES, w'.freelist c = (w.freelist c).filter fun a => ∃ p ∈ w'.pages, p.Has a
  bytesHeld : ∃ k, w'.alloc.bytesHeld w'.heap = .ok k ∧ w.alloc.bytesHeld w.heap = .ok (k + n)
  held : w.heap.held.Perm (w'.heap.held ++ ((w.pages.filter w.idle).map Page.chunk ++ w.freeChunks))

theorem Released.releases (hI : Inv w F pages) {s' : NodeAlloc} {h' : Heap} {kept : List Page}
    (hrel : Released w F pages n s' h' kept) : Releases w n ⟨s', h', w.live⟩ := by
  have hidle : w.idle = fun p => !busy w.live p := funext w.idle_eq
  refine ⟨rfl, ?_, ?_, ?_, ?_⟩
  · rw [hrel.inv.pages_eq, hI.pages_eq, hidle]
    simpa only [Bool.not_not] using hrel.stays
  · intro c hc
    rw [hrel.inv.freelist_eq hc, hrel.inv.pages_eq, hI.freelist_eq hc]
    apply List.filter_congr
    intro a _
    rw [Bool.eq_iff_iff, onAny_iff, decide_eq_true_iff]
  · refine ⟨_, bytesHeld_ok hrel.inv, ?_⟩
    rw [bytesHeld_ok hI, hrel.bytes]
  · rw [World.freeChunks, hI.freeBlocks_eq, freeChunks_eq, hI.pages_eq, hidle]
    exact hrel.held

/-- After every run of allocations, frees, writes and releases the accounts hold, and a release
gives back exactly the pages without a live block and the free blocks that lie on no page. -/
theorem run_accounts (ops : List Op) (h : Along step Lawful World.new ops) :
    ∃ outs w, run step World.new ops = .ok (outs, w) ∧ Accounts w ∧
      ∃ n w', step w .releaseFree = .ok (some n, w') ∧ Releases w n w' ∧ Accounts w' := by
  obtain ⟨outs, w, F, pages, hrun, hI⟩ := run_inv inv_new h
  obtain ⟨n, s', h', kept, hcall, hrel⟩ := releaseFree_spec hI
  refine ⟨outs, w, hrun, hI.accounts, n, ⟨s', h', w.live⟩, ?_, hrel.releases hI, hrel.inv.accounts⟩
  simp only [step, hcall, ok_bind, pure_eq_ok]

/-- A block on a page and one of the system, of which the first is freed. -/
def twoBlocks : List Op :=
  [.alloc true 256 64 ⟨4096, fun _ => 0⟩, .alloc false 1000 8 ⟨16384, fun _ => 7⟩, .store 4160 1,
    .free ⟨4160, 256, 64⟩, .releaseFree]

theorem run_accounts_twoBlocks : ∃ outs w, run step World.new twoBlocks = .ok (outs, w) ∧ Accounts w ∧
    ∃ n w', step w .releaseFree = .ok (some n, w') ∧ Releases w n w' ∧ Accounts w' :=
  run_accounts twoBlocks (by decide +kernel)

end Expanse.Alloc
