import Expanse.Library.Merges
import Expanse.Trie32.Arena

/-!
# Set algebra of the 32-bit sets

Intersections, unions and differences are ordered merges of the operands through
`first`, `next` and `next_at_or_after`, and through nothing else of the engine: the
operations they call are those of a `KeySet`. Keys are natural numbers below `2 ^ 32`.
Every loop takes a fuel and answers `unfinished` where it runs out. A `usize` has 64 bits.
-/

namespace Expanse.Set32

open Merges

def KEYS : ℕ := 2 ^ 32

inductive Fault where
  | engine (f : Trie32.Fault)
  | overflow
  | underflow
  | unfinished
deriving DecidableEq

/-- `key.checked_add(1)`. -/
def checkedSucc (key : ℕ) : Option ℕ := if key + 1 < KEYS then some (key + 1) else none

/-- `a + b` on a `usize`. -/
def addUsize (a b : ℕ) : Except Fault ℕ := if a + b < 2 ^ 64 then .ok (a + b) else .error .overflow

/-- `a - b` on a `usize`. -/
def subUsize (a b : ℕ) : Except Fault ℕ := if b ≤ a then .ok (a - b) else .error .underflow

/-- `a * b` on a `usize`. -/
def mulUsize (a b : ℕ) : Except Fault ℕ := if a * b < 2 ^ 64 then .ok (a * b) else .error .overflow

/-- The operations of `ExpanseSet32` that the algebra calls. -/
structure KeySet where
  Set : Type
  new : Set
  fromSortedIter : List ℕ → Except Fault Set
  insert : Set → ℕ → Except Fault (Bool × Set)
  len : Set → ℕ
  first : Set → Option ℕ
  next : Set → ℕ → Option ℕ
  nextAtOrAfter : Set → ℕ → Option ℕ
  iter : Set → List ℕ

namespace KeySet

variable (K : KeySet)

def isEmpty (s : K.Set) : Bool := K.len s == 0

def emitIf {β : Type} (emit : β → ℕ → Except Fault β) (wanted : Bool) (out : β) (key : ℕ) : Except Fault β :=
  if wanted then emit out key else .ok out

/-- The merge loop. The keys it hands out are those that `keep` names; it stops where no further
key can be wanted. -/
def mergeLoop {β : Type} (keep : Keep) (emit : β → ℕ → Except Fault β) (s other : K.Set) :
    ℕ → Option ℕ → Option ℕ → β → Except Fault β
  | 0, _, _, _ => .error .unfinished
  | fuel + 1, some x, some y, out =>
    if x < y then do
      let out ← emitIf emit keep.left out x
      mergeLoop keep emit s other fuel (K.next s x) (some y) out
    else if y < x then do
      let out ← emitIf emit keep.right out y
      mergeLoop keep emit s other fuel (some x) (K.next other y) out
    else do
      let out ← emitIf emit keep.both out x
      mergeLoop keep emit s other fuel (K.next s x) (K.next other y) out
  | fuel + 1, some x, none, out =>
    if keep.left then do
      let out ← emit out x
      mergeLoop keep emit s other fuel (K.next s x) none out
    else .ok out
  | fuel + 1, none, some y, out =>
    if keep.right then do
      let out ← emit out y
      mergeLoop keep emit s other fuel none (K.next other y) out
    else .ok out
  | _ + 1, none, none, out => .ok out

/-- `count += 1`. -/
def countOne (count _key : ℕ) : Except Fault ℕ := addUsize count 1

/-- `out_keys.push(key)`. -/
def pushKey (outKeys : List ℕ) (key : ℕ) : Except Fault (List ℕ) := .ok (outKeys ++ [key])

/-- `out.insert(key)`. -/
def insertOut (out : K.Set) (key : ℕ) : Except Fault K.Set := (K.insert out key).map Prod.snd

def mergeSets (keep : Keep) (fuel : ℕ) (s other : K.Set) : Except Fault K.Set :=
  K.mergeLoop keep K.insertOut s other fuel (K.first s) (K.first other) K.new

def intersection : ℕ → K.Set → K.Set → Except Fault K.Set := K.mergeSets ⟨false, true, false⟩

def union : ℕ → K.Set → K.Set → Except Fault K.Set := K.mergeSets ⟨true, true, true⟩

def difference : ℕ → K.Set → K.Set → Except Fault K.Set := K.mergeSets ⟨true, false, false⟩

def symmetricDifference : ℕ → K.Set → K.Set → Except Fault K.Set := K.mergeSets ⟨true, false, true⟩

def intersectionLen (fuel : ℕ) (s other : K.Set) : Except Fault ℕ :=
  K.mergeLoop ⟨false, true, false⟩ countOne s other fuel (K.first s)
    (K.first other) 0

/-! `set_len_identities`. -/

def unionLen (fuel : ℕ) (s other : K.Set) : Except Fault ℕ := do
  subUsize (← addUsize (K.len s) (K.len other)) (← K.intersectionLen fuel s other)

def differenceLen (fuel : ℕ) (s other : K.Set) : Except Fault ℕ := do
  subUsize (K.len s) (← K.intersectionLen fuel s other)

def symmetricDifferenceLen (fuel : ℕ) (s other : K.Set) : Except Fault ℕ := do
  subUsize (← addUsize (K.len s) (K.len other)) (← mulUsize 2 (← K.intersectionLen fuel s other))

/-- Look for the candidate in the other sets: the number of sets that hold it so far and the
candidate, or the first overshoot; nothing where a set is exhausted. -/
def probe : List K.Set → ℕ → ℕ → Option (ℕ × ℕ)
  | [], matchCount, nextCand => some (matchCount, nextCand)
  | other :: others, matchCount, nextCand =>
    match K.nextAtOrAfter other nextCand with
    | some found =>
      if found = nextCand then probe others (matchCount + 1) nextCand else some (matchCount, found)
    | none => none

/-- The leapfrog search, driven by the keys of one set. -/
def leapfrog {β : Type} (emit : β → ℕ → Except Fault β) (driver : K.Set) (others : List K.Set) :
    ℕ → Option ℕ → β → Except Fault β
  | 0, _, _ => .error .unfinished
  | _ + 1, none, out => .ok out
  | fuel + 1, some candidate, out =>
    match K.probe others 1 candidate with
    | none => .ok out
    | some (matchCount, nextCand) =>
      if matchCount = others.length + 1 then do
        let out ← emit out candidate
        leapfrog emit driver others fuel ((checkedSucc candidate).bind (K.nextAtOrAfter driver)) out
      else leapfrog emit driver others fuel (K.nextAtOrAfter driver nextCand) out

def sortByLen (sets : List K.Set) : List K.Set := sets.mergeSort fun s t => K.len s ≤ K.len t

def intersectionLenMany (fuel : ℕ) (sets : List K.Set) : Except Fault ℕ :=
  match sets with
  | [] => .ok 0
  | [s] => .ok (K.len s)
  | [s, t] => K.intersectionLen fuel s t
  | sets =>
    if sets.any K.isEmpty then .ok 0
    else
      match K.sortByLen sets with
      | [] => .ok 0
      | driver :: others => K.leapfrog countOne driver others fuel (K.first driver) 0

def intersectionMany (fuel : ℕ) (sets : List K.Set) : Except Fault K.Set :=
  match sets with
  | [] => .ok K.new
  | [s] => K.fromSortedIter (K.iter s)
  | [s, t] => K.intersection fuel s t
  | sets =>
    if sets.any K.isEmpty then .ok K.new
    else
      match K.sortByLen sets with
      | [] => .ok K.new
      | driver :: others => do
        let outKeys ← K.leapfrog pushKey driver others fuel (K.first driver) []
        K.fromSortedIter outKeys

/-- The least key so far, with one more cursor. -/
def minStep (minVal : Option ℕ) : Option ℕ → Option ℕ
  | some v =>
    match minVal with
    | some mv => some (min mv v)
    | none => some v
  | none => minVal

def minKey (cursors : List (Option ℕ)) : Option ℕ := cursors.foldl minStep none

def scanLanes {β : Type} (emit : β → ℕ → Except Fault β) (active : List K.Set) :
    ℕ → List (Option ℕ) → β → Except Fault β
  | 0, _, _ => .error .unfinished
  | fuel + 1, cursors, out =>
    match minKey cursors with
    | none => .ok out
    | some mv => do
      let out ← emit out mv
      scanLanes emit active fuel
        (List.zipWith (fun s c => if c = some mv then (checkedSucc mv).bind (K.nextAtOrAfter s) else c)
          active cursors)
        out

/-- The order of the heap: the least key first, and of equal keys the last lane. -/
def Before (p q : ℕ × ℕ) : Prop := p.1 < q.1 ∨ p.1 = q.1 ∧ q.2 < p.2

instance instDecidableBefore (p q : ℕ × ℕ) : Decidable (Before p q) :=
  inferInstanceAs (Decidable (_ ∨ _))

/-- The entry that `BinaryHeap::pop` takes. -/
def top : List (ℕ × ℕ) → Option (ℕ × ℕ)
  | [] => none
  | p :: heap =>
    match top heap with
    | some q => if Before p q then some p else some q
    | none => some p

/-- The heap merge. `seen` is the last key handed out. -/
def heapMerge {β : Type} (seen : β → Option ℕ) (emit : β → ℕ → Except Fault β) (active : List K.Set) :
    ℕ → List (ℕ × ℕ) → β → Except Fault β
  | 0, _, _ => .error .unfinished
  | fuel + 1, heap, out =>
    match top heap with
    | none => .ok out
    | some (minVal, idx) => do
      let out ← emitIf emit (seen out ≠ some minVal) out minVal
      match (checkedSucc minVal).bind fun ns => (active[idx]?).bind fun s => K.nextAtOrAfter s ns with
      | some nextVal => heapMerge seen emit active fuel ((nextVal, idx) :: heap.erase (minVal, idx)) out
      | none => heapMerge seen emit active fuel (heap.erase (minVal, idx)) out

def heapOf (active : List K.Set) : List (ℕ × ℕ) :=
  active.zipIdx.filterMap fun s => (K.first s.1).map fun key => (key, s.2)

/-- The lanes of a union: the sets that are not empty. -/
def active (sets : List K.Set) : List K.Set := sets.filter fun s => !K.isEmpty s

def countKey (out : ℕ × Option ℕ) (key : ℕ) : Except Fault (ℕ × Option ℕ) := do
  pure (← addUsize out.1 1, some key)

def unionLenMany (fuel : ℕ) (sets : List K.Set) : Except Fault ℕ :=
  match K.active sets with
  | [] => .ok 0
  | [s] => .ok (K.len s)
  | [s, t] => K.unionLen fuel s t
  | lanes =>
    if lanes.length ≤ 8 then
      K.scanLanes countOne lanes fuel (lanes.map K.first) 0
    else (K.heapMerge Prod.snd countKey lanes fuel (K.heapOf lanes) (0, none)).map Prod.fst

def unionMany (fuel : ℕ) (sets : List K.Set) : Except Fault K.Set :=
  match K.active sets with
  | [] => .ok K.new
  | [s] => K.fromSortedIter (K.iter s)
  | [s, t] => K.union fuel s t
  | lanes => do
    let outKeys ←
      if lanes.length ≤ 8 then K.scanLanes pushKey lanes fuel (lanes.map K.first) []
      else K.heapMerge List.getLast? pushKey lanes fuel (K.heapOf lanes) []
    K.fromSortedIter outKeys

end KeySet

end Expanse.Set32
