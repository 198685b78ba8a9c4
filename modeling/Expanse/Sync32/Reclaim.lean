import Mathlib.Data.List.Nodup
import Mathlib.Data.List.Basic
import Mathlib.Tactic

/-!
# Deferred reclamation of the 32-bit concurrent wrapper

One writer edits a tree inside version brackets while readers walk it. A reader pins
itself by making its walk counter odd, samples the version, resolves nodes, and unpins.
What an edit unlinks is parked, and `try_reclaim` drops it once no walk can hold it: all
at once when every reader is outside, or the sealed part of the list when every reader
that was inside at the snapshot has left that walk.

Each load and store of a shared word is one step, and the steps of the readers and of the
writer interleave freely. The version counts brackets without wrapping; only its parity is
read here. `dropped` and `retired` record what has happened and no step reads them.
-/

namespace Expanse.Sync32

/-- One past the largest walk counter. -/
def WALK : ℕ := 2 ^ 32

/-- Where a reader stands. A walk begins with the sample of an even version. -/
inductive Phase where
  | outside
  | pinned
  | walking (version : ℕ)
deriving DecidableEq

/-- A reader's walk counter, its place, and the allocations its walk has resolved. -/
structure Reader where
  walk : ℕ
  phase : Phase
  held : List ℕ
deriving DecidableEq

/-- A retired allocation: its bytes, and the version of the bracket that unlinked it. -/
structure Parked where
  id : ℕ
  bytes : ℕ
  unlinked : ℕ
deriving DecidableEq

/-- Where the writer stands: between calls, inside a bracket, or before load `i` of one of the
three loops of `try_reclaim`. -/
inductive Place where
  | idle
  | bracket
  | outside (i : ℕ)
  | elapsed (i : ℕ)
  | sealing (i : ℕ)
deriving DecidableEq

structure State where
  version : ℕ
  readers : List Reader
  /-- The live allocations, with their bytes. -/
  linked : List (ℕ × ℕ)
  fresh : ℕ
  pending : List Parked
  pendingBytes : ℕ
  pendingCap : ℕ
  snapshot : List ℕ
  sealed : ℕ
  place : Place
  retired : List ℕ
  dropped : List Parked
deriving DecidableEq

def totalBytes (l : List Parked) : ℕ := (l.map Parked.bytes).sum

namespace State

/-- `with_capacity` and `split`. -/
def new (readers pendingCap : ℕ) : State where
  version := 0
  readers := List.replicate readers ⟨0, .outside, []⟩
  linked := []
  fresh := 0
  pending := []
  pendingBytes := 0
  pendingCap := pendingCap
  snapshot := List.replicate readers 0
  sealed := 0
  place := .idle
  retired := []
  dropped := []

def drainPending (s : State) : State :=
  { s with pending := [], pendingBytes := 0, dropped := s.dropped ++ s.pending }

def drainPendingPrefix (s : State) (n : ℕ) : State :=
  let n := min n s.pending.length
  { s with
    pending := s.pending.drop n
    pendingBytes := s.pendingBytes - totalBytes (s.pending.take n)
    dropped := s.dropped ++ s.pending.take n }

/-- `push_pending`, which asserts that the list has room. -/
def pushPending (s : State) (id bytes : ℕ) : Option State :=
  if s.pending.length < s.pendingCap then
    some { s with
      pending := s.pending ++ [⟨id, bytes, s.version⟩]
      pendingBytes := s.pendingBytes + bytes
      retired := s.retired ++ [id] }
  else none

def setReader (s : State) (i : ℕ) (r : Reader) : State := { s with readers := s.readers.set i r }

def pin (s : State) (i : ℕ) : Option State :=
  match s.readers[i]? with
  | some r =>
    match r.phase with
    | .outside => some (s.setReader i { r with walk := (r.walk + 1) % WALK, phase := .pinned })
    | _ => none
  | none => none

/-- `try_sample`; while a bracket is open the walk stops here and only unpins. -/
def sample (s : State) (i : ℕ) : Option State :=
  match s.readers[i]? with
  | some r =>
    match r.phase with
    | .pinned =>
      if s.version % 2 = 0 then some (s.setReader i { r with phase := .walking s.version })
      else some s
    | _ => none
  | none => none

/-- A walk may reach any live allocation, and through words it has read earlier any that was
unlinked after its sample. -/
def resolve (s : State) (i id : ℕ) : Option State :=
  match s.readers[i]? with
  | some r =>
    match r.phase with
    | .walking v =>
      if id ∈ s.linked.map Prod.fst ∨ ∃ p ∈ s.pending, p.id = id ∧ v < p.unlinked then
        some (s.setReader i { r with held := id :: r.held })
      else none
    | _ => none
  | none => none

/-- The second store of `pinned` adds one to the odd counter. -/
def unpin (s : State) (i : ℕ) : Option State :=
  match s.readers[i]? with
  | some r =>
    match r.phase with
    | .outside => none
    | _ => some (s.setReader i ⟨(r.walk + 1) % WALK, .outside, []⟩)
  | none => none

/-- `version.begin()`. -/
def openBracket (s : State) : Option State :=
  if s.place = .idle then some { s with version := s.version + 1, place := .bracket } else none

/-- An allocation made by the mutation. -/
def link (s : State) (bytes : ℕ) : Option State :=
  if s.place = .bracket then
    some { s with linked := (s.fresh, bytes) :: s.linked, fresh := s.fresh + 1 }
  else none

/-- A node or subarray that the mutation unlinks and retires. -/
def retire (s : State) (id : ℕ) : Option State :=
  if s.place = .bracket then
    match s.linked.find? (·.1 = id) with
    | some (_, bytes) => { s with linked := s.linked.filter (·.1 ≠ id) }.pushPending id bytes
    | none => none
  else none

/-- The start of `try_reclaim`, up to the fence. -/
def startReclaim (s : State) : State :=
  if s.pending = [] then { s with sealed := 0, place := .idle } else { s with place := .outside 0 }

/-- `version.end()`; `write` then reclaims if anything is parked. -/
def closeBracket (s : State) : Option State :=
  if s.place = .bracket then
    let s := { s with version := s.version + 1 }
    some (if 0 < s.pending.length then s.startReclaim else { s with place := .idle })
  else none

def tryReclaim (s : State) : Option State := if s.place = .idle then some s.startReclaim else none

/-- The end of `try_reclaim`: seal what is left unless a sealed part is still waiting. -/
def reseal (s : State) : State :=
  if 0 < s.pending.length ∧ s.sealed = 0 then { s with place := .sealing 0 } else { s with place := .idle }

/-- The next counter load of `try_reclaim`, with the writer's own work up to the next one. -/
def advance (s : State) : Option State :=
  match s.place with
  | .outside i =>
    match s.readers[i]? with
    | some r =>
      if r.walk % 2 = 0 then some { s with place := .outside (i + 1) }
      else if 0 < s.sealed then some { s with place := .elapsed 0 }
      else some s.reseal
    | none => some { s.drainPending with sealed := 0, place := .idle }
  | .elapsed i =>
    match s.readers[i]?, s.snapshot[i]? with
    | some r, some snap =>
      if snap % 2 = 1 ∧ r.walk = snap then some s.reseal
      else some { s with place := .elapsed (i + 1) }
    | _, _ => some { s.drainPendingPrefix s.sealed with sealed := 0 }.reseal
  | .sealing i =>
    match s.readers[i]? with
    | some r => some { s with snapshot := s.snapshot.set i r.walk, place := .sealing (i + 1) }
    | none => some { s with sealed := s.pending.length, place := .idle }
  | _ => none

end State

/-- The atomic steps of the readers and of the writer. -/
inductive Action where
  | pin (i : ℕ)
  | sample (i : ℕ)
  | resolve (i id : ℕ)
  | unpin (i : ℕ)
  | openBracket
  | link (bytes : ℕ)
  | retire (id : ℕ)
  | closeBracket
  | tryReclaim
  | advance
deriving DecidableEq

def State.step (s : State) : Action → Option State
  | .pin i => s.pin i
  | .sample i => s.sample i
  | .resolve i id => s.resolve i id
  | .unpin i => s.unpin i
  | .openBracket => s.openBracket
  | .link bytes => s.link bytes
  | .retire id => s.retire id
  | .closeBracket => s.closeBracket
  | .tryReclaim => s.tryReclaim
  | .advance => s.advance

def State.steps (s : State) (as : List Action) : Option State := as.foldlM State.step s

/-- Every interleaving from a new wrapper. -/
inductive State.Reachable (readers pendingCap : ℕ) : State → Prop
  | new : Reachable readers pendingCap (.new readers pendingCap)
  | step {s s' : State} {a : Action} :
      Reachable readers pendingCap s → s.step a = some s' → Reachable readers pendingCap s'

/-- The reader's current walk sampled the version before the allocation was unlinked. -/
def Reader.CouldHold (r : Reader) (p : Parked) : Prop :=
  ∃ v, r.phase = .walking v ∧ v < p.unlinked

instance (r : Reader) (p : Parked) : Decidable (r.CouldHold p) :=
  match h : r.phase with
  | .walking v => decidable_of_iff (v < p.unlinked) (by simp [Reader.CouldHold, h])
  | .outside => .isFalse (by simp [Reader.CouldHold, h])
  | .pinned => .isFalse (by simp [Reader.CouldHold, h])

end Expanse.Sync32
