import Expanse.Library.NextFit
import Expanse.Library.Runs
import Expanse.Library.SysHeap
import Expanse.Occ.Collector

/-!
# The node allocator of one thread

Blocks of a size class up to 256 bytes are carved from slab pages of 4096 bytes, larger
classes and sizes without a class come from the system allocator one by one. A freed block of
a class goes to the front of the class's freelist, which is linked through the blocks
themselves, as the pages are through their headers. `releaseFree` gives the pages without a
live block back, and every free block of the larger classes.

The handle has no collector attached. The system allocator is asked through the heap; its
answer is an argument of the call that asks. Counters are sums over blocks that lie in memory
together, so they are taken without a machine word's bound; a subtraction that would wrap is
a fault. A loop along a linked list gets the number of addresses as fuel.
-/

namespace Expanse.Alloc

open SysHeap NextFit
open Occ (CACHE_LINE RAW_ALIGN RAW_SIZES classFor)

def SLAB_HEADER : ℕ := CACHE_LINE
def SLAB_PAGE_SIZE : ℕ := 4096
def NUM_CLASSES : ℕ := 62

def CLASS_SPECS : List (ℕ × ℕ) :=
  [(32, CACHE_LINE), (64, CACHE_LINE), (96, CACHE_LINE), (128, CACHE_LINE), (256, CACHE_LINE),
    (2048, CACHE_LINE)] ++ RAW_SIZES.map (·, RAW_ALIGN)

def classSpec (cls : ℕ) : ℕ × ℕ := CLASS_SPECS.getD cls (0, 0)

/-- `(bytes + (align - 1)) & !(align - 1)`, the alignment being a power of two. -/
def accountedSize (bytes align : ℕ) : ℕ := roundUp align bytes

/-- The bytes one block of a class is charged, and occupies on a page. -/
def classStep (cls : ℕ) : ℕ := accountedSize (classSpec cls).1 (classSpec cls).2

def slabBlocks (cls : ℕ) : ℕ := (SLAB_PAGE_SIZE - SLAB_HEADER) / classStep cls

def isSlabClass (cls : ℕ) : Bool := (classSpec cls).1 ≤ 256

/-- `Layout::from_size_align`, of a size that is asserted not to be zero. -/
def layoutFor (bytes align : ℕ) : Except SysHeap.Fault Layout :=
  if bytes = 0 then .error .assertion
  else if align ≠ 0 ∧ align &&& (align - 1) = 0 ∧ bytes + align ≤ 2 ^ 63 then .ok ⟨bytes, align⟩
  else .error .invalidLayout

/-- The layout a slab page is allocated and freed with. -/
def slabPageLayout (cls : ℕ) : Except SysHeap.Fault Layout :=
  match CLASS_SPECS[cls]? with
  | some spec => .ok ⟨SLAB_PAGE_SIZE, max spec.2 CACHE_LINE⟩
  | none => .error .indexOutOfBounds

/-- The handle: counters, the heads of the freelists and the head of the slab list. -/
structure NodeAlloc where
  bytesInUse : ℕ
  liveAllocs : ℕ
  totalAllocs : ℕ
  freelists : ℕ → ℕ
  slabPages : ℕ

namespace NodeAlloc

def new : NodeAlloc := ⟨0, 0, 0, fun _ => 0, 0⟩

def setFreelist (s : NodeAlloc) (cls head : ℕ) : NodeAlloc :=
  { s with freelists := Function.update s.freelists cls head }

section SetFreelist

variable (s : NodeAlloc) (cls head : ℕ)

@[simp] theorem freelists_setFreelist :
    (s.setFreelist cls head).freelists = Function.update s.freelists cls head := rfl

end SetFreelist

/-- `zero_fill!` or `no_fill!`. -/
def fill (zeroed : Bool) (h : Heap) (raw bytes : ℕ) : Except SysHeap.Fault Heap :=
  if zeroed then h.zero raw bytes else .ok h

/-- The blocks `i`, ..., 1 of a page are pushed on the freelist, the last one first. -/
def carveLoop (page step : ℕ) : ℕ → ℕ → Heap → Except SysHeap.Fault (ℕ × Heap)
  | 0, head, h => .ok (head, h)
  | i + 1, head, h => do
    let block := page + SLAB_HEADER + (i + 1) * step
    let h ← h.write block head
    carveLoop page step i block h

/-- A block straight from the system allocator. -/
def allocSystem (zeroed : Bool) (g : Grant) (h : Heap) (bytes align : ℕ) :
    Except SysHeap.Fault (ℕ × Heap) := do
  let l ← layoutFor bytes align
  h.alloc zeroed g l

def allocRaw (zeroed : Bool) (g : Grant) (s : NodeAlloc) (h : Heap) (bytes align : ℕ) :
    Except SysHeap.Fault (ℕ × NodeAlloc × Heap) :=
  let accounted := accountedSize bytes align
  let s := { s with
    bytesInUse := s.bytesInUse + accounted
    liveAllocs := s.liveAllocs + 1
    totalAllocs := s.totalAllocs + 1 }
  match classFor bytes align with
  | some cls =>
    if s.freelists cls ≠ 0 then do
      let head := s.freelists cls
      let next ← h.read head
      let h ← fill zeroed h head bytes
      return (head, s.setFreelist cls next, h)
    else if bytes ≤ 256 then do
      let (page, h) ← h.alloc true g ⟨SLAB_PAGE_SIZE, max align CACHE_LINE⟩
      let h ← h.write page s.slabPages
      let h ← h.write (page + 8) cls
      let blocks := (SLAB_PAGE_SIZE - SLAB_HEADER) / accounted
      let (head, h) ← carveLoop page accounted (blocks - 1) (s.freelists cls) h
      let h ← fill zeroed h (page + SLAB_HEADER) bytes
      return (page + SLAB_HEADER, { s.setFreelist cls head with slabPages := page }, h)
    else do
      let (raw, h) ← allocSystem zeroed g h bytes align
      return (raw, s, h)
  | none => do
    let (raw, h) ← allocSystem zeroed g h bytes align
    return (raw, s, h)

/-- `fetch_sub`. -/
def fetchSub (counter n : ℕ) : Except SysHeap.Fault ℕ :=
  if n ≤ counter then .ok (counter - n) else .error .overflow

def freeRaw (s : NodeAlloc) (h : Heap) (ptr bytes align : ℕ) :
    Except SysHeap.Fault (NodeAlloc × Heap) := do
  let inUse ← fetchSub s.bytesInUse (accountedSize bytes align)
  let allocs ← fetchSub s.liveAllocs 1
  let s := { s with bytesInUse := inUse, liveAllocs := allocs }
  match classFor bytes align with
  | some cls => do
    let h ← h.write ptr (s.freelists cls)
    return (s.setFreelist cls ptr, h)
  | none => do
    let l ← layoutFor bytes align
    let h ← h.dealloc ptr l
    return (s, h)

/-- `pages[(*page).class] += 1` along the slab list. -/
def countPages (h : Heap) : ℕ → ℕ → (ℕ → ℕ) → Except SysHeap.Fault (ℕ → ℕ)
  | 0, _, _ => .error .unending
  | fuel + 1, page, counts =>
    if page = 0 then .ok counts
    else do
      let cls ← h.read (page + 8)
      if cls < NUM_CLASSES then
        let next ← h.read page
        countPages h fuel next (Function.update counts cls (counts cls + 1))
      else .error .indexOutOfBounds

def countFree (h : Heap) : ℕ → ℕ → ℕ → Except SysHeap.Fault ℕ
  | 0, _, _ => .error .unending
  | fuel + 1, cur, free =>
    if cur = 0 then .ok free
    else do
      let next ← h.read cur
      countFree h fuel next (free + 1)

/-- The totals of `bytes_held`. -/
structure Totals where
  slabTotal : ℕ
  slabCarvedLive : ℕ
  freeSystem : ℕ

def addClass (s : NodeAlloc) (h : Heap) (pages : ℕ → ℕ) (t : Totals) (cls : ℕ) :
    Except SysHeap.Fault Totals := do
  let free ← countFree h (ADDRESSES + 1) (s.freelists cls) 0
  if isSlabClass cls then
    return { t with
      slabTotal := t.slabTotal + pages cls * SLAB_PAGE_SIZE
      slabCarvedLive := t.slabCarvedLive + (pages cls * slabBlocks cls - free) * classStep cls }
  else return { t with freeSystem := t.freeSystem + free * classStep cls }

def bytesHeld (s : NodeAlloc) (h : Heap) : Except SysHeap.Fault ℕ := do
  let pages ← countPages h (ADDRESSES + 1) s.slabPages fun _ => 0
  let t ← (List.range NUM_CLASSES).foldlM (addClass s h pages) ⟨0, 0, 0⟩
  let liveSystem := s.bytesInUse - t.slabCarvedLive
  return t.slabTotal + liveSystem + t.freeSystem

/-- Give the blocks of a detached list back, each of the layout `l`. -/
def deallocList (l : Layout) (step : ℕ) :
    ℕ → ℕ → Heap → ℕ → Except SysHeap.Fault (Heap × ℕ)
  | 0, _, _, _ => .error .unending
  | fuel + 1, cur, h, released =>
    if cur = 0 then .ok (h, released)
    else do
      let next ← h.read cur
      let h ← h.dealloc cur l
      deallocList l step fuel next h (released + step)

/-- Give the free blocks of a class above the slab ceiling back. -/
def releaseSystemClass (r : NodeAlloc × Heap × ℕ) (cls : ℕ) :
    Except SysHeap.Fault (NodeAlloc × Heap × ℕ) :=
  let (s, h, released) := r
  if isSlabClass cls then .ok (s, h, released)
  else do
    let l ← layoutFor (classSpec cls).1 (classSpec cls).2
    let cur := s.freelists cls
    let (h, released) ← deallocList l (classStep cls) (ADDRESSES + 1) cur h released
    return (s.setFreelist cls 0, h, released)

def deallocPages : ℕ → ℕ → Heap → ℕ → Except SysHeap.Fault (Heap × ℕ)
  | 0, _, _, _ => .error .unending
  | fuel + 1, page, h, released =>
    if page = 0 then .ok (h, released)
    else do
      let next ← h.read page
      let cls ← h.read (page + 8)
      let l ← slabPageLayout cls
      let h ← h.dealloc page l
      deallocPages fuel next h (released + SLAB_PAGE_SIZE)

/-- What `release_all_unused` does with one class: the blocks of a slab class lay on the pages
that are gone. -/
def releaseUnusedClass (r : NodeAlloc × Heap × ℕ) (cls : ℕ) :
    Except SysHeap.Fault (NodeAlloc × Heap × ℕ) :=
  let (s, h, released) := r
  let cur := s.freelists cls
  let s := s.setFreelist cls 0
  if isSlabClass cls then .ok (s, h, released)
  else do
    let l ← layoutFor (classSpec cls).1 (classSpec cls).2
    let (h, released) ← deallocList l (classStep cls) (ADDRESSES + 1) cur h released
    return (s, h, released)

def releaseAllUnused (s : NodeAlloc) (h : Heap) : Except SysHeap.Fault (ℕ × NodeAlloc × Heap) := do
  let page := s.slabPages
  let s := { s with slabPages := 0 }
  let (h, released) ← deallocPages (ADDRESSES + 1) page h 0
  let (s, h, released) ← (List.range NUM_CLASSES).foldlM releaseUnusedClass (s, h, released)
  return (released, s, h)

/-- One slab page in the census: its address, the free blocks counted and the blocks carved. -/
structure PageCount where
  base : ℕ
  free : ℕ
  carved : ℕ
deriving DecidableEq

/-- The page is free when every block carved from it is on a freelist. -/
def PageCount.isFree (p : PageCount) : Bool := p.free = p.carved

/-- The census of the slab list before the free blocks are counted. -/
def listPages (h : Heap) : ℕ → ℕ → List PageCount → Except SysHeap.Fault (List PageCount)
  | 0, _, _ => .error .unending
  | fuel + 1, page, pages =>
    if page = 0 then .ok pages
    else do
      let cls ← h.read (page + 8)
      if cls < NUM_CLASSES then
        let next ← h.read page
        listPages h fuel next (pages ++ [⟨page, 0, slabBlocks cls⟩])
      else .error .indexOutOfBounds

/-- The index of the page a block lies on: `partition_point`, less one. -/
def pageOf (pages : List PageCount) (addr : ℕ) : Except SysHeap.Fault ℕ :=
  match (pages.takeWhile (·.base ≤ addr)).length with
  | 0 => .error .overflow
  | i + 1 =>
    match pages[i]? with
    | some p => if addr < p.base + SLAB_PAGE_SIZE then .ok i else .error .assertion
    | none => .error .indexOutOfBounds

/-- Count the free blocks of one freelist on their pages. -/
def countOnPages (h : Heap) : ℕ → ℕ → List PageCount → Except SysHeap.Fault (List PageCount)
  | 0, _, _ => .error .unending
  | fuel + 1, cur, pages =>
    if cur = 0 then .ok pages
    else do
      let i ← pageOf pages cur
      let pages := pages.modify i fun p => { p with free := p.free + 1 }
      let next ← h.read cur
      countOnPages h fuel next pages

def countClass (s : NodeAlloc) (h : Heap) (pages : List PageCount) (cls : ℕ) :
    Except SysHeap.Fault (List PageCount) :=
  if isSlabClass cls then countOnPages h (ADDRESSES + 1) (s.freelists cls) pages else .ok pages

def onFreePage (pages : List PageCount) (addr : ℕ) : Except SysHeap.Fault Bool := do
  let i ← pageOf pages addr
  match pages[i]? with
  | some p => return p.isFree
  | none => .error .indexOutOfBounds

/-- Unlink the blocks of free pages; `kept` is the head and `tail` the last of those that stay. -/
def unlinkLoop (pages : List PageCount) : ℕ → ℕ → ℕ → Option ℕ → Heap →
    Except SysHeap.Fault (ℕ × Option ℕ × Heap)
  | 0, _, _, _, _ => .error .unending
  | fuel + 1, cur, kept, tail, h =>
    if cur = 0 then .ok (kept, tail, h)
    else do
      let next ← h.read cur
      if ← onFreePage pages cur then unlinkLoop pages fuel next kept tail h
      else
        match tail with
        | none => unlinkLoop pages fuel next cur (some cur) h
        | some t => do
          let h ← h.write t cur
          unlinkLoop pages fuel next kept (some cur) h

def unlinkClass (pages : List PageCount) (r : NodeAlloc × Heap) (cls : ℕ) :
    Except SysHeap.Fault (NodeAlloc × Heap) :=
  let (s, h) := r
  if isSlabClass cls then do
    let (kept, tail, h) ← unlinkLoop pages (ADDRESSES + 1) (s.freelists cls) 0 none h
    match tail with
    | some t => do
      let h ← h.write t 0
      return (s.setFreelist cls kept, h)
    | none => return (s.setFreelist cls kept, h)
  else .ok (s, h)

/-- Rebuild the slab list from the pages that stay, the last one first, and give the others back. -/
def rebuildSlabs : List PageCount → ℕ → Heap → ℕ → Except SysHeap.Fault (ℕ × Heap × ℕ)
  | [], head, h, released => .ok (head, h, released)
  | p :: rest, head, h, released =>
    if p.isFree then do
      let cls ← h.read (p.base + 8)
      let l ← slabPageLayout cls
      let h ← h.dealloc p.base l
      rebuildSlabs rest head h (released + SLAB_PAGE_SIZE)
    else do
      let h ← h.write p.base head
      rebuildSlabs rest p.base h released

def releaseFree (s : NodeAlloc) (h : Heap) : Except SysHeap.Fault (ℕ × NodeAlloc × Heap) :=
  if s.bytesInUse = 0 then s.releaseAllUnused h
  else do
    let (s, h, released) ← (List.range NUM_CLASSES).foldlM releaseSystemClass (s, h, 0)
    let pages ← listPages h (ADDRESSES + 1) s.slabPages []
    if pages = [] then return (released, s, h)
    -- the bases are distinct, so that every way of sorting by base gives the same list
    let pages := pages.insertionSort fun p q => p.base ≤ q.base
    let pages ← (List.range NUM_CLASSES).foldlM (countClass s h) pages
    if ¬ pages.any PageCount.isFree then return (released, s, h)
    let (s, h) ← (List.range NUM_CLASSES).foldlM (unlinkClass pages) (s, h)
    let (head, h, released) ← rebuildSlabs pages.reverse 0 h released
    return (released, { s with slabPages := head }, h)

end NodeAlloc

end Expanse.Alloc
