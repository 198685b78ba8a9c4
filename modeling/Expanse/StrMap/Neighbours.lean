import Expanse.StrMap.Container

/-!
# Neighbours of a key

The ordered searches of a string map. A search descends along the chunks of the probe and
keeps the levels it passed on a stack; where a level has nothing on the wanted side it
resumes at the next sibling of the nearest level above. Below that sibling the answer is the
first or the last entry. A search appends the key it finds to `out` and returns the slot
of its value; what it leaves in `out` without an answer is cut off by its caller.
-/

namespace Expanse.StrMap

open BigEndian

variable {M : WordMap}

/-- What a search returns: the slot of the entry found, and the output buffer. -/
abbrev Hit (M : WordMap) : Type := Option (ValueSlot M) × List ℕ

/-- The first (`min`) or the last entry of a word map. -/
def endOf (min : Bool) (m : M.Map) : Option (ℕ × ℕ) := if min then M.first m else M.last m

/-- The entry of a word map past `chunk`, in the direction of the search. -/
def beyond (min : Bool) (m : M.Map) (chunk : ℕ) : Option (ℕ × ℕ) :=
  if min then M.nextAfter m chunk else M.prevBefore m chunk

variable (a : NodeAlloc M)

/-- The slot of a terminal chunk: `get_slot_ptr(chunk).expect("present chunk")`. -/
def present (node chunk : ℕ) : Except Fault (ValueSlot M) := do
  let m ← a.shell node
  match M.getSlotPtr m chunk with
  | some s => return .word node s
  | none => .error .unreachable

/-- Loop turns that any walk over the live nodes stays below. -/
def visits : ℕ := 2 * a.cells.keys.length + 2

def extremeWalk (min : Bool) : ℕ → ℕ → List (ℕ × ℕ) → Option (ℕ × ℕ) → List ℕ → Except Fault (Hit M)
  | 0, _, _, _, _ => .error .fuel
  | fuel + 1, node, stack, cursor, out => do
    match cursor with
    | none =>
      match stack with
      | [] => return (none, out)
      | (parent, via) :: stack =>
        let m ← a.shell parent
        extremeWalk min fuel parent stack (beyond min m via) (out.take (out.length - CHUNK))
    | some (chunk, v) =>
      if isTerminal chunk then
        let slot ← present a node chunk
        return (some slot, pushTerminal out chunk)
      else
        let out := out ++ beBytes chunk
        if isSuffixPtr v then
          let (bytes, _) ← a.suffix (unpackSuffix v)
          return (some (.suffix (unpackSuffix v)), out ++ bytes)
        else
          let m ← a.shell (unpackChild v)
          extremeWalk min fuel (unpackChild v) ((node, chunk) :: stack) (endOf min m) out

/-- The levels from `node` down to the node `empty`, deepest first. -/
def pathTo (min : Bool) (empty : ℕ) : ℕ → ℕ → List (ℕ × ℕ) → Except Fault (Option (List (ℕ × ℕ)))
  | 0, _, _ => .error .fuel
  | fuel + 1, node, path => do
    if node = empty then return some path
    let m ← a.shell node
    match endOf min m with
    | none => return none
    | some (chunk, v) => pathTo min empty fuel (unpackChild v) ((node, chunk) :: path)

def extremePastEmpty (min : Bool) (self empty : ℕ) (out : List ℕ) : Except Fault (Hit M) := do
  match ← pathTo a min empty (visits a) self [] with
  | none => return (none, out)
  | some path => extremeWalk a min (visits a) empty path none out

/-- The loop of `extreme_entry`, which started at `self`. -/
def extremeDescend (min : Bool) (self : ℕ) : ℕ → ℕ → List ℕ → Except Fault (Hit M)
  | 0, _, _ => .error .fuel
  | fuel + 1, node, out => do
    let m ← a.shell node
    match endOf min m with
    | none => extremePastEmpty a min self node out
    | some (chunk, v) =>
      if isTerminal chunk then
        let slot ← present a node chunk
        return (some slot, pushTerminal out chunk)
      else
        let out := out ++ beBytes chunk
        if isSuffixPtr v then
          let (bytes, _) ← a.suffix (unpackSuffix v)
          return (some (.suffix (unpackSuffix v)), out ++ bytes)
        else extremeDescend min self fuel (unpackChild v) out

def extremeEntry (min : Bool) (self : ℕ) (out : List ℕ) : Except Fault (Hit M) :=
  extremeDescend a min self (visits a) self out

def maxEntry (self : ℕ) (out : List ℕ) : Except Fault (Hit M) := extremeEntry a false self out

def takePastEmpty (min : Bool) (self chunk : ℕ) (out : List ℕ) : Except Fault (Hit M) := do
  let m ← a.shell self
  extremeWalk a min (visits a) self [] (beyond min m chunk) (out.take (out.length - CHUNK))

/-- The entry that `cursor` names: its own value, or the extreme entry below it. -/
def takeFrom (min : Bool) (self : ℕ) (cursor : Option (ℕ × ℕ)) (out : List ℕ) :
    Except Fault (Hit M) :=
  match cursor with
  | none => return (none, out)
  | some (chunk, v) =>
    if isTerminal chunk then do
      let slot ← present a self chunk
      return (some slot, pushTerminal out chunk)
    else if isSuffixPtr v then do
      let (bytes, _) ← a.suffix (unpackSuffix v)
      return (some (.suffix (unpackSuffix v)), out ++ beBytes chunk ++ bytes)
    else do
      match ← extremeEntry a min (unpackChild v) (out ++ beBytes chunk) with
      | (some slot, out) => return (some slot, out)
      | (none, out) => takePastEmpty a min self chunk out

/-- The unwinding loop: the nearest level above that has an entry past its chunk. -/
def unwind (min : Bool) : List (ℕ × ℕ × ℕ) → List ℕ → Except Fault (Hit M)
  | [], out => .ok (none, out)
  | (parent, target, mark) :: stack, out => do
    let m ← a.shell parent
    match ← takeFrom a min parent (beyond min m target) (out.take mark) with
    | (some slot, out) => return (some slot, out)
    | (none, out) => unwind min stack out

/-- `&key[off.min(len) + CHUNK.min(len.saturating_sub(off))..]`. -/
def remAfter (key : List ℕ) (off : ℕ) : List ℕ :=
  key.drop (min off key.length + min CHUNK (key.length - off))

/-- What is left to do at a level that gave `hit`: return it, or unwind. -/
def orUnwind (min : Bool) (stack : List (ℕ × ℕ × ℕ)) : Hit M → Except Fault (Hit M)
  | (some slot, out) => .ok (some slot, out)
  | (none, out) => unwind a min stack out

/-- The descent of `next_at_or_after`. -/
def nextLoop (key : List ℕ) : ℕ → ℕ → ℕ → List (ℕ × ℕ × ℕ) → List ℕ → Except Fault (Hit M)
  | 0, _, _, _, _ => .error .fuel
  | fuel + 1, node, off, stack, out => do
    let m ← a.shell node
    let target := (chunkAt key off).1
    let cursor := M.nextAtOrAfter m target
    match cursor with
    | some (chunk, v) =>
      if chunk = target ∧ isTerminal chunk = false then
        if isSuffixPtr v then
          let (bytes, _) ← a.suffix (unpackSuffix v)
          if remAfter key off ≤ bytes then
            return (some (.suffix (unpackSuffix v)), out ++ beBytes chunk ++ bytes)
          else
            let hit ← takeFrom a true node (M.nextAfter m target) out
            orUnwind a true stack hit
        else
          nextLoop key fuel (unpackChild v) (off + CHUNK) ((node, target, out.length) :: stack)
            (out ++ beBytes chunk)
      else
        let hit ← takeFrom a true node cursor out
        orUnwind a true stack hit
    | none =>
      let hit ← takeFrom a true node cursor out
      orUnwind a true stack hit

/-- The keys a search backward from `rest` may return. -/
def Before (exclusive : Bool) (rest k : List ℕ) : Prop := if exclusive then k < rest else k ≤ rest

instance (exclusive : Bool) (rest k : List ℕ) : Decidable (Before exclusive rest k) :=
  inferInstanceAs (Decidable (if exclusive then k < rest else k ≤ rest))

/-- The descent of `prev_at_or_before`. -/
def prevLoop (key : List ℕ) (exclusive : Bool) :
    ℕ → ℕ → ℕ → List (ℕ × ℕ × ℕ) → List ℕ → Except Fault (Hit M)
  | 0, _, _, _, _ => .error .fuel
  | fuel + 1, node, off, stack, out => do
    let m ← a.shell node
    let (target, targetTerminal) := chunkAt key off
    match if targetTerminal then none else M.get m target with
    | some v =>
      if isSuffixPtr v then
        let (bytes, _) ← a.suffix (unpackSuffix v)
        if Before exclusive (remAfter key off) bytes then
          return (some (.suffix (unpackSuffix v)), out ++ beBytes target ++ bytes)
        else
          let hit ← takeFrom a false node (M.prevBefore m target) out
          orUnwind a false stack hit
      else
        prevLoop key exclusive fuel (unpackChild v) (off + CHUNK) ((node, target, out.length) :: stack)
          (out ++ beBytes target)
    | none =>
      let cursor := if targetTerminal ∧ exclusive = false then M.prevAtOrBefore m target
        else M.prevBefore m target
      let hit ← takeFrom a false node cursor out
      orUnwind a false stack hit

namespace ExpanseStrMap

variable (s : ExpanseStrMap M)

/-- A search from the root: the key bytes and the value slot of the entry found. -/
def fromRoot (search : ℕ → Except Fault (Hit M)) : Except Fault (Option (List ℕ × ValueSlot M)) :=
  match s.root with
  | none => .ok none
  | some root => do
    match ← search root with
    | (some slot, out) => return some (out, slot)
    | (none, _) => return none

def nextAtOrAfter (key : NulFreeStr) : Except Fault (Option (List ℕ × ValueSlot M)) :=
  s.fromRoot fun root => nextLoop s.alloc key.bytes (turns key.bytes) root 0 [] []

/-- The immediate successor of a NUL-free string is itself and a byte `1`. -/
def nextAfter (key : NulFreeStr) : Except Fault (Option (List ℕ × ValueSlot M)) :=
  s.nextAtOrAfter ⟨key.bytes ++ [1], key.nulFree.append (by decide)⟩

def prevAtOrBefore (key : NulFreeStr) : Except Fault (Option (List ℕ × ValueSlot M)) :=
  s.fromRoot fun root => prevLoop s.alloc key.bytes false (turns key.bytes) root 0 [] []

def prevBefore (key : NulFreeStr) : Except Fault (Option (List ℕ × ValueSlot M)) :=
  s.fromRoot fun root => prevLoop s.alloc key.bytes true (turns key.bytes) root 0 [] []

def first : Except Fault (Option (List ℕ × ValueSlot M)) := s.nextAtOrAfter ⟨[], nulFree_nil⟩

def last : Except Fault (Option (List ℕ × ValueSlot M)) :=
  s.fromRoot fun root => maxEntry s.alloc root []

end ExpanseStrMap

end Expanse.StrMap
