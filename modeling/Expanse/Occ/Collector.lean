import Mathlib.Data.List.Basic
import Mathlib.Logic.Function.Basic
import Mathlib.Tactic

/-!
# The collector's bins, carry list and free budget

`retire` queues a block in the bin of the current epoch, on the stripe of the calling
writer. `tryAdvance` frees carried blocks, moves the epoch if no reader is behind, and empties
the bin two epochs back: blocks of a size class go to the freelists of their stripe, the others
are freed while the call's budget lasts and carried to later calls after that.

Calls run one after the other. Byte counts are those of distinct allocations, so their sums are
taken without a machine word's bound; a subtraction that would wrap is a fault.
-/

namespace Expanse.Occ

def CACHE_LINE : ℕ := 64
def RAW_ALIGN : ℕ := 16

/-- The sizes of the classes with raw alignment, the first of which is class 6. -/
def RAW_SIZES : List ℕ :=
  [8, 9, 10, 11, 12, 13, 14, 15, 16, 18, 20, 22, 24, 25, 26, 28, 30, 32, 36, 40, 44, 48, 50, 52, 56,
    60, 64, 72, 75, 80, 88, 96, 100, 104, 112, 120, 125, 128, 144, 150, 160, 175, 176, 192, 200, 208,
    224, 225, 240, 248, 250, 275, 300, 325, 350, 375]

def classForRaw (bytes : ℕ) : Option ℕ := (RAW_SIZES.findIdx? (· = bytes)).map (· + 6)

def classFor (bytes align : ℕ) : Option ℕ :=
  if align = RAW_ALIGN then classForRaw bytes
  else if align = CACHE_LINE then
    match bytes with
    | 32 => some 0
    | 64 => some 1
    | 96 => some 2
    | 128 => some 3
    | 256 => some 4
    | 2048 => some 5
    | _ => none
  else none

def BINS : ℕ := 3
def NUM_EPOCH_STRIPES : ℕ := 16

/-- A retired block. `retire` asks for a non-zero size. -/
structure Garbage where
  ptr : ℕ
  bytes : ℕ
  align : ℕ
  pos : 0 < bytes
deriving DecidableEq

namespace Garbage

/-- The size class that serves the block. -/
def cls (g : Garbage) : Option ℕ := classFor g.bytes g.align

def total (l : List Garbage) : ℕ := (l.map bytes).sum

/-- The blocks no size class serves. -/
def unclassed (l : List Garbage) : List Garbage := l.filter (·.cls.isNone)

/-- The blocks of a size class. -/
def classed (l : List Garbage) : List Garbage := l.filter (·.cls.isSome)

end Garbage

/-- A block on the garbage list of a bin's stripe. -/
structure Queued where
  bin : ℕ
  stripe : ℕ
  block : Garbage
deriving DecidableEq

/-- A block on the freelist of a stripe and a class. -/
structure Free where
  stripe : ℕ
  cls : ℕ
  block : Garbage
deriving DecidableEq

/-- The garbage of all bins is one list in the order of the pushes, and so are the freelists,
the last pushed first. `retired` and `freed` record what has happened and no call reads them. -/
structure Collector where
  epoch : ℕ
  readers : List (Option ℕ)
  garbage : List Queued
  retainedBytes : ℕ → ℕ
  freelists : List Free
  carry : List Garbage
  carriedBlocks : ℕ
  carriedBytes : ℕ
  freeBudget : ℕ
  stripeBound : ℕ
  retired : List Garbage
  freed : List Garbage

inductive Fault where
  | underflow
deriving DecidableEq

/-- `fetch_sub` on a counter that must not wrap. -/
def fetchSub (counter n : ℕ) : Except Fault ℕ :=
  if n ≤ counter then .ok (counter - n) else .error .underflow

namespace Collector

open Garbage

def new (budget : ℕ) : Collector where
  epoch := 0
  readers := []
  garbage := []
  retainedBytes := fun _ => 0
  freelists := []
  carry := []
  carriedBlocks := 0
  carriedBytes := 0
  freeBudget := budget
  stripeBound := 0
  retired := []
  freed := []

/-- `slot` is the writer slot of the calling thread, whose claim raises the stripe bound. -/
def retire (c : Collector) (g : Garbage) (slot : ℕ) : Collector :=
  let stripe := slot % NUM_EPOCH_STRIPES
  { c with
    stripeBound := max c.stripeBound (stripe + 1)
    retainedBytes := Function.update c.retainedBytes stripe (c.retainedBytes stripe + g.bytes)
    garbage := c.garbage ++ [⟨c.epoch % BINS, stripe, g⟩]
    retired := c.retired ++ [g] }

/-- `free_raw`. -/
def freeRaw (c : Collector) (g : Garbage) : Collector := { c with freed := c.freed ++ [g] }

def reclaimBlock (c : Collector) (g : Garbage) (stripe cls : ℕ) : Collector :=
  { c with freelists := ⟨stripe, cls, g⟩ :: c.freelists }

/-- The loop of `free_carried` over the carry list from its end: the blocks it frees, in order,
and the blocks it leaves. -/
def freeCarriedLoop (budget freed : ℕ) : List Garbage → List Garbage × List Garbage
  | [] => ([], [])
  | g :: rest =>
    if freed ≠ 0 ∧ budget < freed + g.bytes then ([], g :: rest)
    else
      let r := freeCarriedLoop budget (freed + g.bytes) rest
      (g :: r.1, r.2)

def freeCarried (c : Collector) (budget : ℕ) : Except Fault (ℕ × Collector) := do
  let r := freeCarriedLoop budget 0 c.carry.reverse
  let carriedBlocks ← fetchSub c.carriedBlocks r.1.length
  let carriedBytes ← fetchSub c.carriedBytes (total r.1)
  pure (total r.1, { c with
    carry := r.2.reverse
    freed := c.freed ++ r.1
    carriedBlocks := carriedBlocks
    carriedBytes := carriedBytes })

/-- The classed blocks of a list go to the freelists, in order. -/
def reclaimClassed (c : Collector) (stripe : ℕ) (l : List Garbage) : Collector :=
  l.foldl (fun c g =>
    match g.cls with
    | some cls => c.reclaimBlock g stripe cls
    | none => c) c

/-- The collector with the unclassed blocks of `stale[first..]` carried, and the bytes of the
blocks reclaimed and carried. -/
def carryTail (c : Collector) (stale : List Garbage) (first stripe : ℕ) : Collector × ℕ × ℕ :=
  let tail := stale.drop first
  let kept := unclassed tail
  ({ c.reclaimClassed stripe tail with
      carriedBlocks := c.carriedBlocks + kept.length
      carriedBytes := c.carriedBytes + total kept
      carry := c.carry ++ kept },
    total (classed tail), total kept)

/-- The loop of `free_stripe_budgeted`: the collector, `freed`, `done` and the index of the first
block over budget. -/
def budgetedLoop (stale : List Garbage) (stripe budget : ℕ) :
    List Garbage → Collector → ℕ → ℕ → Collector × ℕ × ℕ × Option ℕ
  | [], c, freed, done => (c, freed, done, none)
  | g :: it, c, freed, done =>
    match g.cls with
    | some cls => budgetedLoop stale stripe budget it (c.reclaimBlock g stripe cls) freed (done + g.bytes)
    | none =>
      if freed = 0 ∨ freed + g.bytes ≤ budget then
        budgetedLoop stale stripe budget it (c.freeRaw g) (freed + g.bytes) (done + g.bytes)
      else (c, freed, done, some (stale.length - it.length - 1))

/-- The collector, `freed`, and the bytes reclaimed or freed and carried. -/
def freeStripeBudgeted (c : Collector) (stale : List Garbage) (stripe freed budget : ℕ) :
    Collector × ℕ × ℕ × ℕ :=
  match budgetedLoop stale stripe budget stale c freed 0 with
  | (c, freed, done, some first) =>
    let r := c.carryTail stale first stripe
    (r.1, freed, done + r.2.1, r.2.2)
  | (c, freed, done, none) => (c, freed, done, 0)

/-- The loop of `try_advance` over a bin that fits the budget. -/
def freeStripe (c : Collector) (stripe : ℕ) (stale : List Garbage) : Collector :=
  stale.foldl (fun c g =>
    match g.cls with
    | some cls => c.reclaimBlock g stripe cls
    | none => c.freeRaw g) c

def queued (c : Collector) (bin stripe : ℕ) : List Garbage :=
  (c.garbage.filter fun q => q.bin = bin ∧ q.stripe = stripe).map Queued.block

/-- `PaddedBin::take`. -/
def take (c : Collector) (bin stripe : ℕ) : List Garbage × Collector :=
  (c.queued bin stripe,
    { c with garbage := c.garbage.filter fun q => ¬ (q.bin = bin ∧ q.stripe = stripe) })

def subRetained (c : Collector) (stripe n : ℕ) : Except Fault Collector := do
  let held ← fetchSub (c.retainedBytes stripe) n
  pure { c with retainedBytes := Function.update c.retainedBytes stripe held }

/-- The turn of one stripe in the drain of `try_advance`: `freed` and the collector. The flag of
an empty stripe is clear. -/
def drainStripe (c : Collector) (bin stripe freed budget : ℕ) : Except Fault (ℕ × Collector) :=
  if c.queued bin stripe = [] then .ok (freed, c)
  else do
    let (stale, c) := c.take bin stripe
    let held := c.retainedBytes stripe
    if budget < freed + held then
      let (c, freed, freedBytes, carried) := c.freeStripeBudgeted stale stripe freed budget
      let c ← c.subRetained stripe (freedBytes + carried)
      pure (freed, c)
    else
      let c ← (c.freeStripe stripe stale).subRetained stripe (total stale)
      pure (freed + total stale, c)

def drainStripes (bin budget : ℕ) : List ℕ → ℕ → Collector → Except Fault Collector
  | [], _, c => .ok c
  | stripe :: stripes, freed, c => do
    let (freed, c) ← c.drainStripe bin stripe freed budget
    drainStripes bin budget stripes freed c

/-- `freed` and the collector after the carry list has had its turn. -/
def freeCarry (c : Collector) (budget : ℕ) : Except Fault (ℕ × Collector) :=
  if c.carry.isEmpty then .ok (0, c) else c.freeCarried budget

def tryAdvance (c : Collector) : Except Fault Collector := do
  let budget := c.freeBudget
  let (freed, c) ← c.freeCarry budget
  let e := c.epoch
  -- a reader still runs in an older epoch
  if c.readers.any fun slot => slot.isSome && slot != some e then pure c
  else drainStripes ((e + BINS - 1) % BINS) budget (List.range c.stripeBound) freed { c with epoch := e + 1 }

/-- `retained_bytes()`. -/
def retained (c : Collector) : ℕ :=
  c.carriedBytes + ((List.range NUM_EPOCH_STRIPES).map c.retainedBytes).sum

end Collector

/-- The calls of one thread after the other. A reader pins at the epoch it finds, and a budget
may be set between calls. -/
inductive Call where
  | retire (g : Garbage) (slot : ℕ)
  | tryAdvance
  | register
  | pin (i : ℕ)
  | unpin (i : ℕ)
  | setFreeBudget (bytes : ℕ)

def Collector.call (c : Collector) : Call → Except Fault Collector
  | .retire g slot => .ok (c.retire g slot)
  | .tryAdvance => c.tryAdvance
  | .register => .ok { c with readers := c.readers ++ [none] }
  | .pin i => .ok { c with readers := c.readers.set i (some c.epoch) }
  | .unpin i => .ok { c with readers := c.readers.set i none }
  | .setFreeBudget bytes => .ok { c with freeBudget := max bytes 1 }

def Collector.run (c : Collector) : List Call → Except Fault Collector
  | [] => .ok c
  | call :: calls => do (← c.call call).run calls

end Expanse.Occ
