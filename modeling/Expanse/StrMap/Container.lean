import Mathlib.Data.Set.Card
import Mathlib.Logic.Function.Basic
import Expanse.Library.Runs
import Expanse.StrMap.RemoveSpec

/-!
# `ExpanseStrMap` as a partial map from byte strings to words

The container is the root shell, the number of keys and the one allocator. `Rep` says
that the whole heap is the trie below the root: the root exists exactly when a key is
stored, and no block is live beside the blocks of the trie.
-/

namespace Expanse.StrMap

open SortedAssoc BigEndian NodeAlloc Runs

/-- A byte string without a zero byte: the key domain. -/
structure NulFreeStr where
  bytes : List ℕ
  nulFree : NulFree bytes

structure ExpanseStrMap (M : WordMap) where
  root : Option ℕ
  pop : ℕ
  alloc : NodeAlloc M

namespace ExpanseStrMap

variable {M : WordMap} (P : Placement)

def new : ExpanseStrMap M := ⟨none, 0, .new⟩

def len (s : ExpanseStrMap M) : ℕ := s.pop

def memUsed (s : ExpanseStrMap M) : ℕ := s.alloc.bytesInUse

def ensureRoot (s : ExpanseStrMap M) : ℕ × NodeAlloc M :=
  match s.root with
  | some p => (p, s.alloc)
  | none => s.alloc.alloc P (.shell M.new)

def insert (s : ExpanseStrMap M) (key : NulFreeStr) (val : ℕ) :
    Except Fault (Option ℕ × ExpanseStrMap M) := do
  let (root, a) := s.ensureRoot P
  let (spot, a) ← reachKey P key.bytes val (turns key.bytes) a root 0
  match spot with
  | .terminal node chunk =>
    let m ← a.shell node
    let (prev, m) ← M.insert m chunk val
    let a ← a.store node (.shell m)
    return (prev, ⟨some root, if prev.isNone then s.pop + 1 else s.pop, a⟩)
  | .fresh _ => return (none, ⟨some root, s.pop + 1, a⟩)
  | .hit p =>
    let (bytes, old) ← a.suffix p
    let a ← a.store p (.suffix bytes val)
    return (some old, ⟨some root, s.pop, a⟩)

/-- Insert `key` with value 0 if it is absent; the slot of its value. A terminal entry is
new when the word map has grown. -/
def insSlot (s : ExpanseStrMap M) (key : NulFreeStr) :
    Except Fault (ValueSlot M × ExpanseStrMap M) := do
  let (root, a) := s.ensureRoot P
  let (spot, a) ← reachKey P key.bytes 0 (turns key.bytes) a root 0
  match spot with
  | .terminal node chunk =>
    let m ← a.shell node
    let lenBefore := M.len m
    let (slot, m) ← M.insSlot m chunk
    let a ← a.store node (.shell m)
    return (.word node slot, ⟨some root, if lenBefore < M.len m then s.pop + 1 else s.pop, a⟩)
  | .fresh p => return (.suffix p, ⟨some root, s.pop + 1, a⟩)
  | .hit p => return (.suffix p, ⟨some root, s.pop, a⟩)

def get (s : ExpanseStrMap M) (key : NulFreeStr) : Except Fault (Option ℕ) :=
  match s.root with
  | none => .ok none
  | some root => do
    match ← locateKey s.alloc key.bytes (turns key.bytes) root 0 with
    | .terminal node chunk =>
      let m ← s.alloc.shell node
      return M.get m chunk
    | .suffix p =>
      let (_, value) ← s.alloc.suffix p
      return some value
    | .absent => return none

def getValueSlot (s : ExpanseStrMap M) (key : NulFreeStr) : Except Fault (Option (ValueSlot M)) :=
  match s.root with
  | none => .ok none
  | some root => do
    match ← locateKey s.alloc key.bytes (turns key.bytes) root 0 with
    | .terminal node chunk =>
      let m ← s.alloc.shell node
      return (M.getSlotPtr m chunk).map (.word node)
    | .suffix p => return some (.suffix p)
    | .absent => return none

def remove (s : ExpanseStrMap M) (key : NulFreeStr) : Except Fault (Option ℕ × ExpanseStrMap M) :=
  match s.root with
  | none => .ok (none, s)
  | some root => do
    match ← removeImpl s.alloc root key.bytes with
    | none => return (none, s)
    | some (removed, a) =>
      if s.pop = 0 then .error .overflow
      else
        let m ← a.shell root
        if M.isEmpty m then
          let a ← a.free root
          return (some removed, ⟨none, s.pop - 1, a⟩)
        else return (some removed, ⟨some root, s.pop - 1, a⟩)

/-- `f(current)` says what is stored; no value removes the key. -/
def update (s : ExpanseStrMap M) (key : NulFreeStr) (f : Option ℕ → Option ℕ) :
    Except Fault (Option ℕ × ExpanseStrMap M) := do
  let old ← s.get key
  match f old with
  | some v =>
    let (_, s) ← s.insert P key v
    return (old, s)
  | none =>
    if old.isSome then
      let (_, s) ← s.remove key
      return (old, s)
    else return (old, s)

def clear (s : ExpanseStrMap M) : Except Fault (ℕ × ExpanseStrMap M) :=
  match s.root with
  | none => .ok (0, ⟨none, 0, s.alloc⟩)
  | some root => do
    let bytes := s.alloc.bytesInUse
    let a ← disposeTree s.alloc.cells.keys.length s.alloc [root]
    -- `debug_assert_eq!(self.alloc.bytes_in_use(), 0)`
    if a.bytesInUse = 0 then return (bytes, ⟨none, 0, a⟩) else .error .unreachable

def writeSlot (s : ExpanseStrMap M) (slot : ValueSlot M) (v : ℕ) : Except Fault (ExpanseStrMap M) := do
  let a ← s.alloc.writeSlot slot v
  return ⟨s.root, s.pop, a⟩

inductive Op where
  | insert (key : NulFreeStr) (val : ℕ)
  | insSlot (key : NulFreeStr) (val : ℕ)
  | get (key : NulFreeStr)
  | remove (key : NulFreeStr)
  | update (key : NulFreeStr) (f : Option ℕ → Option ℕ)
  | clear
  | len

inductive Out where
  | value (v : Option ℕ)
  | slot (v : Option ℕ)
  | count (n : ℕ)
  | unit
deriving DecidableEq

/-- One call. `insSlot` reads through the slot and then stores `val` through it. -/
def step (s : ExpanseStrMap M) : Op → Except Fault (Out × ExpanseStrMap M)
  | .insert key val => do
    let (old, s) ← s.insert P key val
    return (.value old, s)
  | .insSlot key val => do
    let (slot, s) ← s.insSlot P key
    let before := s.alloc.readSlot slot
    let s ← s.writeSlot slot val
    return (.slot before, s)
  | .get key => do
    let v ← s.get key
    return (.value v, s)
  | .remove key => do
    let (old, s) ← s.remove key
    return (.value old, s)
  | .update key f => do
    let (old, s) ← s.update P key f
    return (.value old, s)
  | .clear => do
    let (_, s) ← s.clear
    return (.unit, s)
  | .len => .ok (.count s.len, s)

end ExpanseStrMap

/-- A partial map from byte strings to words, one call at a time. -/
noncomputable def refStep (m : List ℕ → Option ℕ) :
    ExpanseStrMap.Op → ExpanseStrMap.Out × (List ℕ → Option ℕ)
  | .insert key val => (.value (m key.bytes), Function.update m key.bytes (some val))
  | .insSlot key val =>
    (.slot (some ((m key.bytes).getD 0)), Function.update m key.bytes (some val))
  | .get key => (.value (m key.bytes), m)
  | .remove key => (.value (m key.bytes), Function.update m key.bytes none)
  | .update key f => (.value (m key.bytes), Function.update m key.bytes (f (m key.bytes)))
  | .clear => (.unit, fun _ => none)
  | .len => (.count {k | (m k).isSome}.ncard, m)

end Expanse.StrMap
