import Expanse.Occ.Collector

/-!
# Epochs, pins and the advancer

Readers pin the epoch they find and check that it has not moved; a retirer reads the epoch
and later pushes its block into the bin of that epoch; an advance, one at a time, scans the
readers' slots, moves the epoch by one and empties the bin two epochs back.

Each load, store and locked section is one step, and the steps of all parties interleave
freely. The slots are read one by one under the registry's lock. Which unclassed blocks an
advance frees and which it carries is left open, so every budget is covered. The epoch is
unbounded.
-/

namespace Expanse.Occ

/-- Where a reader stands in `Reader::pin`. A held pin keeps the epoch it is pinned at and the
moment the pin was established. -/
inductive Phase where
  | outside
  | loaded (e : ℕ)
  | stored (e : ℕ)
  | pinned (e since : ℕ)
  | dropped
deriving DecidableEq

/-- A registered reader: its slot, and where it stands. A dropped one is out of the registry. -/
structure Reader where
  slot : Option ℕ
  phase : Phase
deriving DecidableEq

/-- A block with the moment it was unlinked, which no two blocks share. -/
structure Block where
  garbage : Garbage
  unlinked : ℕ
deriving DecidableEq

/-- A block on the garbage list of a bin's stripe, with the epoch its retirer loaded. -/
structure Binned where
  bin : ℕ
  stripe : ℕ
  loaded : ℕ
  block : Block
deriving DecidableEq

/-- Where the holder of the advancer lock stands. -/
inductive Place where
  | idle
  | entered
  | sampled (e : ℕ)
  | scanning (e i : ℕ)
  | publishing (e : ℕ)
  | published (e : ℕ)
  | draining (e stripe bound : ℕ)
  | taking (e stripe bound : ℕ)
  | releasing (e stripe bound : ℕ) (taken : List Block)
  | leaving
deriving DecidableEq

/-- `unlinked` are blocks not yet retired, `retiring` those whose retirer has loaded the epoch
and not pushed. `clock` numbers the unlinks; `pushed`, `left` and `freed` record what has
happened, and no step reads them. -/
structure State where
  epoch : ℕ
  stripeBound : ℕ
  readers : List Reader
  unlinked : List Block
  retiring : List (ℕ × Block)
  garbage : List Binned
  carry : List Block
  freelists : List (ℕ × Block)
  freed : List Block
  reused : List Block
  place : Place
  clock : ℕ
  pushed : List Block
  left : List Block
deriving DecidableEq

namespace State

def new : State where
  epoch := 0
  stripeBound := 0
  readers := []
  unlinked := []
  retiring := []
  garbage := []
  carry := []
  freelists := []
  freed := []
  reused := []
  place := .idle
  clock := 0
  pushed := []
  left := []

def setReader (s : State) (i : ℕ) (r : Reader) : State := { s with readers := s.readers.set i r }

/-- The registry's lock is free unless an advance is scanning. -/
def registryFree (s : State) : Bool :=
  match s.place with
  | .scanning _ _ => false
  | _ => true

def register (s : State) : Option State :=
  if s.registryFree then some { s with readers := s.readers ++ [⟨none, .outside⟩] } else none

/-- The next step of a reader's `pin`: the load, the store of the slot, or the load that checks
the epoch, which starts over if the epoch has moved. -/
def pin (s : State) (i : ℕ) : Option State :=
  match s.readers[i]? with
  | some r =>
    match r.phase with
    | .outside => some (s.setReader i { r with phase := .loaded s.epoch })
    | .loaded e => some (s.setReader i ⟨some e, .stored e⟩)
    | .stored e =>
      if s.epoch = e then some (s.setReader i { r with phase := .pinned e s.clock })
      else some (s.setReader i { r with phase := .loaded s.epoch })
    | _ => none
  | none => none

/-- The drop of a `Pin`. -/
def unpin (s : State) (i : ℕ) : Option State :=
  match s.readers[i]? with
  | some r =>
    match r.phase with
    | .pinned _ _ => some (s.setReader i ⟨none, .outside⟩)
    | _ => none
  | none => none

/-- The drop of a `Reader`, which no pin outlives. -/
def deregister (s : State) (i : ℕ) : Option State :=
  match s.readers[i]? with
  | some r =>
    if s.registryFree ∧ r.phase = .outside then some (s.setReader i ⟨none, .dropped⟩) else none
  | none => none

/-- A block becomes unreachable for readers that pin from here on. -/
def unlink (s : State) (g : Garbage) : State :=
  { s with unlinked := ⟨g, s.clock⟩ :: s.unlinked, clock := s.clock + 1 }

/-- The load of the epoch in `retire`. -/
def retireLoad (s : State) (b : Block) : Option State :=
  if b ∈ s.unlinked then
    some { s with unlinked := s.unlinked.erase b, retiring := (s.epoch, b) :: s.retiring }
  else none

def raiseStripeBound (s : State) (slot : ℕ) : State :=
  { s with stripeBound := max s.stripeBound (slot % NUM_EPOCH_STRIPES + 1) }

/-- The locked push of `retire`, on a stripe that has been claimed. -/
def retirePush (s : State) (p : ℕ × Block) (stripe : ℕ) : Option State :=
  if p ∈ s.retiring ∧ stripe < s.stripeBound then
    some { s with
      retiring := s.retiring.erase p
      garbage := s.garbage ++ [⟨p.1 % BINS, stripe, p.1, p.2⟩]
      pushed := s.pushed ++ [p.2] }
  else none

/-- `pop_freelist` of a stripe and a class. -/
def popFreelist (s : State) (stripe cls : ℕ) : Option State :=
  match s.freelists.find? fun f => f.1 = stripe ∧ f.2.garbage.cls = some cls with
  | some f => some { s with freelists := s.freelists.erase f, reused := s.reused ++ [f.2] }
  | none => none

/-- The lock of `try_advance`; a call that finds it taken returns. -/
def tryLock (s : State) : Option State :=
  if s.place = .idle then some { s with place := .entered } else none

/-- One carried block is freed, before the epoch is read. -/
def freeCarried (s : State) : Option State :=
  if s.place = .entered then
    match s.carry.getLast? with
    | some b => some { s with carry := s.carry.dropLast, freed := s.freed ++ [b] }
    | none => none
  else none

/-- The entries of one stripe of the bin two epochs back. -/
def stale (s : State) (e stripe : ℕ) : List Binned :=
  s.garbage.filter fun q => q.bin = (e + BINS - 1) % BINS ∧ q.stripe = stripe

/-- A taken block goes to the freelist of its stripe and class; one without a class is freed, or
carried if `keep`. -/
def release (s : State) (stripe : ℕ) (keep : Bool) (b : Block) : State :=
  if b.garbage.cls.isSome then { s with freelists := (stripe, b) :: s.freelists }
  else if keep then { s with carry := s.carry ++ [b] }
  else { s with freed := s.freed ++ [b] }

def advance (s : State) (keep : Bool) : Option State :=
  match s.place with
  | .idle => none
  | .entered => some { s with place := .sampled s.epoch }
  | .sampled e => some { s with place := .scanning e 0 }
  | .scanning e i =>
    match s.readers[i]? with
    | some r =>
      if r.slot.isSome ∧ r.slot ≠ some e then some { s with place := .leaving }
      else some { s with place := .scanning e (i + 1) }
    | none => some { s with place := .publishing e }
  | .publishing e =>
    if s.epoch = e then some { s with epoch := e + 1, place := .published e }
    else some { s with place := .leaving }
  | .published e => some { s with place := .draining e 0 s.stripeBound }
  | .draining e stripe bound =>
    if bound ≤ stripe then some { s with place := .leaving }
    else if s.stale e stripe = [] then some { s with place := .draining e (stripe + 1) bound }
    else some { s with place := .taking e stripe bound }
  | .taking e stripe bound =>
    let taken := (s.stale e stripe).map Binned.block
    some { s with
      garbage := s.garbage.filter fun q => ¬ (q.bin = (e + BINS - 1) % BINS ∧ q.stripe = stripe)
      left := s.left ++ taken
      place := .releasing e stripe bound taken }
  | .releasing e stripe bound (b :: taken) =>
    some { s.release stripe keep b with place := .releasing e stripe bound taken }
  | .releasing e stripe bound [] => some { s with place := .draining e (stripe + 1) bound }
  | .leaving => some { s with place := .idle }

end State

inductive Action where
  | register
  | pin (i : ℕ)
  | unpin (i : ℕ)
  | deregister (i : ℕ)
  | unlink (g : Garbage)
  | retireLoad (b : Block)
  | raiseStripeBound (slot : ℕ)
  | retirePush (p : ℕ × Block) (stripe : ℕ)
  | popFreelist (stripe cls : ℕ)
  | tryLock
  | freeCarried
  | advance (keep : Bool)
deriving DecidableEq

def State.step (s : State) : Action → Option State
  | .register => s.register
  | .pin i => s.pin i
  | .unpin i => s.unpin i
  | .deregister i => s.deregister i
  | .unlink g => some (s.unlink g)
  | .retireLoad b => s.retireLoad b
  | .raiseStripeBound slot => some (s.raiseStripeBound slot)
  | .retirePush p stripe => s.retirePush p stripe
  | .popFreelist stripe cls => s.popFreelist stripe cls
  | .tryLock => s.tryLock
  | .freeCarried => s.freeCarried
  | .advance keep => s.advance keep

def State.steps (s : State) : List Action → Option State
  | [] => some s
  | a :: as => (s.step a).bind (·.steps as)

/-- Every interleaving from a new collector. -/
inductive State.Reachable : State → Prop
  | new : Reachable .new
  | step {s t : State} {a : Action} : Reachable s → s.step a = some t → Reachable t

/-- A pin established before the block was unlinked is still held. -/
def Reader.Guards (r : Reader) (b : Block) : Prop :=
  ∃ e since, r.phase = .pinned e since ∧ since ≤ b.unlinked

/-- The blocks on a freelist, freed, or handed out again. -/
def State.released (s : State) : List Block := s.freelists.map Prod.snd ++ s.freed ++ s.reused

def Place.taken : Place → List Block
  | .releasing _ _ _ taken => taken
  | _ => []

end Expanse.Occ
