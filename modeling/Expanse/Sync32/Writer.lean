import Expanse.Trie32.SetRuns

/-!
# The writer of the 32-bit concurrent wrapper

The one writing handle asks for headroom before it touches the tree, edits inside a version bracket,
publishes the root and the length there, and reclaims what readers can no longer hold. Its loops over
the readers see counters that other threads store, so every call here is given what its loads return;
the results hold whatever that is.
-/

namespace Expanse

open SortedAssoc Trie32 Trie32.Tree Runs

namespace Trie32.Arena

def freeSlots (a : Arena) : ℕ := a.free.length

def pendingSpare (a : Arena) : ℕ := a.pendingCap - a.pending.length

def pendingLen (a : Arena) : ℕ := a.pending.length

def drainPending (a : Arena) : Arena := { a with pending := [] }

/-- Drop the oldest `n` parked allocations. -/
def drainPendingPrefix (a : Arena) (n : ℕ) : Arena :=
  { a with pending := a.pending.drop (min n a.pending.length) }

end Trie32.Arena

namespace Sync32

/-- Most allocations, and most retirements, of one mutation. -/
def MUTATION_HEADROOM : ℕ := 128

inductive WriteError where
  | arenaFull
  | reclaimBacklog
deriving DecidableEq

/-- What the wrapper needs of a container: its arena, and what it publishes. -/
class Container32 (T : Type) where
  withFixedArena : ℕ → ℕ → T
  arena : T → Arena
  setArena : T → Arena → T
  rootEdge : T → Edge32
  len : T → ℕ
  arena_setArena : ∀ c a, arena (setArena c a) = a
  setArena_arena : ∀ c, setArena c (arena c) = c
  rootEdge_setArena : ∀ c a, rootEdge (setArena c a) = rootEdge c
  len_setArena : ∀ c a, len (setArena c a) = len c

open Container32

instance : Container32 ExpanseSet32 where
  withFixedArena := ExpanseSet32.withFixedArena
  arena s := s.alloc
  setArena s a := { s with alloc := a }
  rootEdge s := s.root
  len s := s.len
  arena_setArena _ _ := rfl
  setArena_arena _ := rfl
  rootEdge_setArena _ _ := rfl
  len_setArena _ _ := rfl

instance : Container32 ExpanseMap32 where
  withFixedArena := ExpanseMap32.withFixedArena
  arena m := m.alloc
  setArena m a := { m with alloc := a }
  rootEdge m := m.root
  len m := m.len
  arena_setArena _ _ := rfl
  setArena_arena _ := rfl
  rootEdge_setArena _ _ := rfl
  len_setArena _ _ := rfl

/-- What the loads of the walk counters return in one `try_reclaim`, in its first, second and third loop. -/
structure Loads where
  outside : ℕ → UInt32
  elapsed : ℕ → UInt32
  sealing : ℕ → UInt32

/-- The loads of one call: before the mutation, for headroom, and after it. -/
structure Env where
  headroom : Loads
  after : Loads

/-- The writer, with the words it publishes. The first `sealed` parked allocations were retired before
the snapshot of the readers' counters. `asserts` says that debug assertions are compiled in. -/
structure Writer32 (T : Type) where
  inner : T
  version : UInt32
  root : Edge32
  len : ℕ
  readers : ℕ
  snapshot : List UInt32
  snapshotVersion : UInt32
  sealed : ℕ
  asserts : Bool

namespace Writer32

variable {T : Type} [Container32 T]

/-- `with_capacity` and `split`. The pending list parks every live node and the churn of two mutations. -/
def withCapacity (T : Type) [Container32 T] (asserts : Bool) (nodeCap maxReaders : ℕ) :
    Except Trie32.Fault (Writer32 T) :=
  if nodeCap < MUTATION_HEADROOM then .error Trie32.Fault.assertion
  else
    let inner : T := withFixedArena nodeCap (nodeCap + 2 * MUTATION_HEADROOM)
    .ok ⟨inner, 0, rootEdge inner, Container32.len inner, maxReaders, List.replicate maxReaders 0, 0, 0, asserts⟩

def pendingLen (w : Writer32 T) : ℕ := (arena w.inner).pendingLen

def pendingSpare (w : Writer32 T) : ℕ := (arena w.inner).pendingSpare

def freeSlots (w : Writer32 T) : ℕ := (arena w.inner).freeSlots

/-- `version.try_sample().unwrap_or(0)`. -/
def sample (w : Writer32 T) : UInt32 := if w.version % 2 = 0 then w.version else 0

def allOutside (w : Writer32 T) (loads : Loads) : Bool :=
  (List.range w.readers).all fun i => loads.outside i % 2 = 0

/-- No reader is still in the walk it was in at the snapshot. -/
def graceElapsed (w : Writer32 T) (loads : Loads) : Bool :=
  ((List.range w.readers).zip w.snapshot).all fun p => !(p.2 % 2 == 1 && loads.elapsed p.1 == p.2)

/-- The second part of `try_reclaim`: free the sealed entries once their grace period has elapsed. While it
has not, a debug build asserts that the version is not half a wrap from the snapshot. -/
def reclaimSealed (w : Writer32 T) (loads : Loads) : Except Trie32.Fault (Writer32 T) :=
  if 0 < w.sealed then
    if w.graceElapsed loads then
      .ok { w with inner := setArena w.inner ((arena w.inner).drainPendingPrefix w.sealed), sealed := 0 }
    else if w.asserts = true ∧ ¬ w.sample - w.snapshotVersion <
      (1 : UInt32) <<< 30 then .error Trie32.Fault.assertion
    else .ok w
  else .ok w

/-- The third part: seal everything retired so far under a fresh snapshot. -/
def reseal (w : Writer32 T) (loads : Loads) : Writer32 T :=
  if 0 < w.pendingLen ∧ w.sealed = 0 then
    { w with
      snapshot := (List.range w.readers).map loads.sealing
      snapshotVersion := w.sample
      sealed := w.pendingLen }
  else w

def tryReclaim (w : Writer32 T) (loads : Loads) : Except Trie32.Fault (Bool × Writer32 T) :=
  if w.pendingLen = 0 then .ok (true, { w with sealed := 0 })
  else if w.allOutside loads then
    .ok (true, { w with inner := setArena w.inner (arena w.inner).drainPending, sealed := 0 })
  else do
    let w ← w.reclaimSealed loads
    let w := w.reseal loads
    pure (w.pendingLen == 0, w)

/-- `ensure_headroom`. -/
def ensureHeadroom (w : Writer32 T) (loads : Loads) : Except Trie32.Fault (Option WriteError × Writer32 T) := do
  let w ← (if w.pendingSpare < MUTATION_HEADROOM then (w.tryReclaim loads).map Prod.snd else .ok w)
  if w.pendingSpare < MUTATION_HEADROOM then pure (some .reclaimBacklog, w)
  else if w.freeSlots < MUTATION_HEADROOM then pure (some .arenaFull, w)
  else pure (none, w)

/-- One mutation inside the version bracket, and what is published there. -/
def write {α : Type} (w : Writer32 T) (f : T → Except Trie32.Fault (α × T)) (loads : Loads) :
    Except Trie32.Fault (α × Writer32 T) := do
  let w := { w with version := w.version + 1 }
  let (r, c) ← f w.inner
  let w := { w with inner := c, root := rootEdge c, len := Container32.len c, version := w.version + 1 }
  let w ← (if 0 < w.pendingLen then (w.tryReclaim loads).map Prod.snd else .ok w)
  pure (r, w)

/-- A call that asks for headroom and ends there if it is refused. -/
def guarded {α : Type} (w : Writer32 T) (env : Env) (body : Writer32 T → Except Trie32.Fault (α × Writer32 T)) :
    Except Trie32.Fault (Except WriteError α × Writer32 T) := do
  match ← w.ensureHeadroom env.headroom with
  | (some e, w) => pure (.error e, w)
  | (none, w) => (body w).map fun r => (.ok r.1, r.2)

end Writer32

abbrev MapWriter32 : Type := Writer32 ExpanseMap32

namespace MapWriter32

variable (w : MapWriter32) (env : Env)

/-- The entry is already there: an overwrite with the same value opens no bracket. -/
def tryInsert (key val : ℕ) : Except Trie32.Fault (Except WriteError (Option ℕ) × MapWriter32) :=
  w.guarded env fun w => do
    if (← w.inner.get key) = some val then pure (some val, w)
    else w.write (fun m => m.insertShared key val) env.after

def tryRemove (key : ℕ) : Except Trie32.Fault (Except WriteError (Option ℕ) × MapWriter32) :=
  w.guarded env fun w => w.write (fun m => m.removeShared key) env.after

/-- `store`: an overwrite or an insertion, or a removal. -/
def store (key : ℕ) (new : Option ℕ) : Except Trie32.Fault (Option ℕ × MapWriter32) :=
  match new with
  | some v => w.write (fun m => m.insertShared key v) env.after
  | none => w.write (fun m => m.removeShared key) env.after

def compareExchange (key : ℕ) (expected new : Option ℕ) :
    Except Trie32.Fault (Except WriteError (Except (Option ℕ) (Option ℕ)) × MapWriter32) := do
  let seen ← w.inner.get key
  if seen ≠ expected then pure (.ok (.error seen), w)
  else if new = seen then pure (.ok (.ok seen), w)
  else w.guarded env fun w => do
    let (_, w) ← store w env key new
    pure (.ok seen, w)

def update (key : ℕ) (f : Option ℕ → Option ℕ) :
    Except Trie32.Fault (Except WriteError (Option ℕ) × MapWriter32) :=
  w.guarded env fun w => do
    let seen ← w.inner.get key
    let new := f seen
    if new ≠ seen then
      let (_, w) ← store w env key new
      pure (seen, w)
    else pure (seen, w)

def getOrInsert (key val : ℕ) : Except Trie32.Fault (Except WriteError (Option ℕ) × MapWriter32) := do
  match ← w.inner.get key with
  | some present => pure (.ok (some present), w)
  | none => w.guarded env fun w => do
    let (_, w) ← store w env key (some val)
    pure (none, w)

end MapWriter32

abbrev SetWriter32 : Type := Writer32 ExpanseSet32

namespace SetWriter32

variable (w : SetWriter32) (env : Env)

def tryInsert (key : ℕ) : Except Trie32.Fault (Except WriteError Bool × SetWriter32) :=
  w.guarded env fun w => w.write (fun s => s.insertShared key) env.after

def tryRemove (key : ℕ) : Except Trie32.Fault (Except WriteError Bool × SetWriter32) :=
  w.guarded env fun w => w.write (fun s => s.removeShared key) env.after

end SetWriter32

end Sync32

end Expanse
