import Expanse.Engine.Path
import Expanse.Engine.Remove
import Expanse.Engine.Nav

/-!
# The root of a set or map

Small populations live in one sorted root leaf of full keys. Past its capacity the
root is a level-8 tree; below it the tree condenses back. Inserts into a tree first
try the cached insert path. `Store` is the state of `ExpanseSet` and of
`ExpanseMap`; the two differ in the engine's flavour and in the value type.
-/

namespace Expanse

open Radix SortedAssoc Edge

/-- More iterations than a descent from level 8 takes. -/
def FUEL : ℕ := 32

inductive Root (V : Type) where
  | empty
  | leaf (cols : Columns V)
  | tree (top : Edge V)

structure Store (V : Type) where
  root : Root V
  treePop : ℕ
  path : Option InsertPath

/-- The address of a value word, in the root leaf or in the tree. -/
inductive Addr where
  | rootLeaf (i : ℕ)
  | tree (slot : Slot)
deriving DecidableEq

/-- What an insert leaves behind: the new state, the previous value of the key, and the address of
its value word. -/
structure Outcome (V : Type) where
  store : Store V
  old : Option V
  addr : Addr

namespace Store

variable {V : Type}

def new : Store V := ⟨.empty, 0, none⟩

/-- `flush`: catch the ancestors up with the deferred increments. -/
def flushPath (s : Store V) : Store V :=
  match s.root, s.path with
  | .tree top, some w =>
    if 0 < w.pendingPop then
      { s with
        root := .tree (flushRoute w.pendingPop 8 top w.route)
        path := some { w with pendingPop := 0 } }
    else s
  | _, _ => s

/-- `clear` on the path: flush it, then forget it. -/
def clearPath (s : Store V) : Store V := { s.flushPath with path := none }

variable [Inhabited V]

/-- The insert at the cached leaf: its new edge, the previous value, and the position of the value
word. Nothing stands for leaving the shortcut. -/
def warmInsert (fl : Flavour) (keep : Bool) (kind : WarmLeaf) (pop : ℕ) (t : Edge V) (d : ℕ)
    (val : V) : Option (Edge V × Option V × SlotPos) :=
  match kind, t with
  | .bitmap, leafB1 aux node =>
    match node.get d with
    | some old => some (if keep then t else leafB1 aux (node.set d val), some old, bitmapPos node d)
    | none =>
      -- a set turns a leaf that holds all 256 digits into a full expanse
      if fl = .set ∧ pop + 1 = 256 then
        some (fullExpanse (Aux.setPop0 0 1 255), none, bitmapPos node d)
      else some (leafB1 (Aux.setPop0 aux 1 pop) (node.insert d val), none, bitmapPos node d)
  | .leaf1, leaf kb aux cols =>
    match cols.keys[pop - 1]? with
    | some last =>
      if last < d then
        -- append while the allocation class holds
        if pop < LEAF1_CAP ∧ capClass (pop + 1) = capClass pop then
          some (leaf kb (Aux.setPop0 aux 1 pop) (cols.insertAt pop d val), none, .index pop)
        else none
      else if d = last then
        some (if keep then t else leaf kb aux (cols.setVal (pop - 1) val), cols.vals[pop - 1]?,
          .index (pop - 1))
      else none
    | none => none
  | _, _ => none

/-- The state after a warm insert. A new key counts at once in the tree's population and in the
cached leaf, and is deferred for the ancestors. -/
def afterWarm (fl : Flavour) (s : Store V) (top : Edge V) (w : InsertPath) (t' : Edge V)
    (old : Option V) : Store V :=
  let root := .tree (storeAt t' top w.route)
  if old.isSome then { s with root := root }
  else
    let w' := { w with terminalPop := w.terminalPop + 1, pendingPop := w.pendingPop + 1 }
    let s' := ⟨root, s.treePop + 1, some w'⟩
    if fl = .set ∧ w'.terminalPop = 256 then s'.clearPath else s'

/-- The shortcut of an insert whose upper bits are those of the cached path. -/
def warmTree (fl : Flavour) (keep : Bool) (s : Store V) (top : Edge V) (key : ℕ) (val : V) :
    Option (Outcome V) :=
  match s.path with
  | some w =>
    if w.keyPrefix = key / 256 then
      match resolve 8 top w.route with
      | some (_, t) =>
        match warmInsert fl keep w.leaf w.terminalPop t (digit key 1) val with
        | some (t', old, pos) => some ⟨afterWarm fl s top w t' old, old, .tree ⟨w.route, pos⟩⟩
        | none => none
      | none => none
    else none
  | none => none

def coldTree (fl : Flavour) (keep : Bool) (s : Store V) (key : ℕ) (val : V) :
    Except Fault (Outcome V) :=
  match s.clearPath.root with
  | .tree top =>
    match insertFlat fl keep FUEL top key val 8 with
    | .ok r =>
      .ok ⟨⟨.tree r.edge, if r.old.isNone then s.treePop + 1 else s.treePop, r.path⟩, r.old,
        .tree r.slot⟩
    | .error f => .error f
  | _ => .error .unreachable

/-- `promote_leaf`: the keys of the root leaf go into a fresh tree with a throwaway path, then the
new key with the real one. -/
def promoteLeaf (fl : Flavour) (cols : Columns V) (key : ℕ) (val : V) :
    Except Fault (Inserted V) :=
  match insertAll (fun e k v => insertFlat fl false FUEL e k v 8) null none cols.entries with
  | .ok (top, _) => insertFlat fl false FUEL top key val 8
  | .error f => .error f

/-- `insert_inner`, for both engines; `keep` leaves the value of a present key untouched. -/
def insertInner (fl : Flavour) (keep : Bool) (s : Store V) (key : ℕ) (val : V) :
    Except Fault (Outcome V) :=
  match s.root with
  | .empty => .ok ⟨{ s with root := .leaf (Columns.single key val) }, none, .rootLeaf 0⟩
  | .leaf cols =>
    match leafPos cols.keys cols.size key with
    | .ok pos =>
      .ok ⟨{ s with root := .leaf (if keep then cols else cols.setVal pos val) }, cols.vals[pos]?,
        .rootLeaf pos⟩
    | .error pos =>
      if cols.size < ROOT_LEAF_CAP then
        .ok ⟨{ s with root := .leaf (cols.insertAt pos key val) }, none, .rootLeaf pos⟩
      else
        match promoteLeaf fl cols key val with
        | .ok r => .ok ⟨⟨.tree r.edge, cols.size + 1, r.path⟩, none, .tree r.slot⟩
        | .error f => .error f
  | .tree top =>
    match warmTree fl keep s top key val with
    | some o => .ok o
    | none => coldTree fl keep s key val

/-- The value of a key, by the descent from the root. -/
def find (s : Store V) (key : ℕ) : Option V :=
  match s.root with
  | .empty => none
  | .leaf cols => cols.find key
  | .tree top => walk FUEL top key 8

def len (s : Store V) : ℕ :=
  match s.root with
  | .empty => 0
  | .leaf cols => cols.size
  | .tree _ => s.treePop

/-- The position of a digit's value word in the cached leaf. -/
def warmSlot (kind : WarmLeaf) (pop : ℕ) (t : Edge V) (d : ℕ) : Option SlotPos :=
  match kind, t with
  | .bitmap, leafB1 _ node => if node.bits.testBit d then some (bitmapPos node d) else none
  | .leaf1, leaf _ _ cols => (indexOf? (cols.keys.take pop) d).map .index
  | _, _ => none

/-- `get_slot_ptr`: the address of a key's value word, by the descent from the root. -/
def getSlotPtr (s : Store V) (key : ℕ) : Option Addr :=
  match s.root with
  | .empty => none
  | .leaf cols => (indexOf? cols.keys key).map .rootLeaf
  | .tree top => (locateSlot FUEL top key 8).map .tree

/-- `get_value_slot`: the same address, answered by the cached path when its bits match. -/
def getValueSlot (s : Store V) (key : ℕ) : Option Addr :=
  match s.root, s.path with
  | .tree top, some w =>
    if w.keyPrefix = key / 256 then
      match resolve 8 top w.route with
      | some (_, t) =>
        (warmSlot w.leaf w.terminalPop t (digit key 1)).map fun pos => .tree ⟨w.route, pos⟩
      | none => none
    else s.getSlotPtr key
  | _, _ => s.getSlotPtr key

/-- The key and value at an address. -/
def entryAt (s : Store V) (a : Addr) : Option (ℕ × V) :=
  match s.root, a with
  | .leaf cols, .rootLeaf i => cols.entries[i]?
  | .tree top, .tree slot => slotEntry 8 top slot.route slot.pos
  | _, _ => none

def writeAt (s : Store V) (a : Addr) (val : V) : Store V :=
  match s.root, a with
  | .leaf cols, .rootLeaf i => { s with root := .leaf (cols.setVal i val) }
  | .tree top, .tree slot => { s with root := .tree (writeSlot top slot.route slot.pos val) }
  | _, _ => s

/-- `ins_slot`: insert the default word if the key is absent, and hand out its address. A full root
leaf goes through `insert` and a second lookup. -/
def insSlot (s : Store V) (key : ℕ) : Except Fault (Outcome V) :=
  match s.root with
  | .leaf cols =>
    match leafPos cols.keys cols.size key with
    | .ok _ => insertInner .map true s key default
    | .error _ =>
      if cols.size < ROOT_LEAF_CAP then insertInner .map true s key default
      else
        match insertInner .map false s key default with
        | .ok o =>
          match o.store.getValueSlot key with
          | some a => .ok { o with addr := a }
          | none => .error .unreachable
        | .error f => .error f
  | _ => insertInner .map true s key default

/-- The keys of a tree from `k` on, one search after another, up to the largest word. -/
def collect (top : Edge V) : ℕ → ℕ → List (ℕ × V)
  | 0, _ => []
  | n + 1, k =>
    match next FUEL top k 8 with
    | none => []
    | some (x, v) => (x, v) :: if x + 1 < 2 ^ 64 then collect top n (x + 1) else []

/-- `condense_to_root_leaf`. -/
def condense (s : Store V) : Store V :=
  match s.clearPath.root with
  | .tree top => { s with root := .leaf (Columns.ofEntries (collect top (s.treePop + 1) 0)), path := none }
  | _ => s

/-- `remove_inner`: the removed value, and the new state. -/
def removeInner (fl : Flavour) (s : Store V) (key : ℕ) : Except Fault (Option V × Store V) :=
  let s := s.clearPath
  match s.root with
  | .empty => .ok (none, s)
  | .leaf cols =>
    match locate cols.keys key with
    | .error _ => .ok (none, s)
    | .ok pos =>
      let old := some (cols.vals[pos]?.getD default)
      if cols.size = 1 then .ok (old, { s with root := .empty })
      else .ok (old, { s with root := .leaf (cols.removeAt pos) })
  | .tree top =>
    match removeFlat fl FUEL top key 8 with
    | .error f => .error f
    | .ok none => .ok (none, s)
    | .ok (some (old, top')) =>
      let s' := { s with root := .tree top', treePop := s.treePop - 1 }
      if s'.treePop = 0 then .ok (some old, { s' with root := .empty })
      else if s'.treePop < ROOT_LEAF_CAP then .ok (some old, s'.condense)
      else .ok (some old, s')

def clear (s : Store V) : Store V := { s.clearPath with root := .empty }

/-- `count_below`, after a flush. -/
def countBelow (s : Store V) (key : ℕ) : ℕ :=
  match s.flushPath.root with
  | .empty => 0
  | .leaf cols => lowerBound cols.keys key
  | .tree top => Edge.countBelow FUEL top key 8

/-- `by_count`, after a flush. -/
def byCount (s : Store V) (n : ℕ) : Option (ℕ × V) :=
  if s.len ≤ n then none
  else
    match s.flushPath.root with
    | .empty => none
    | .leaf cols => cols.entries[n]?
    | .tree top => Edge.byCount FUEL top n 8

/-- `count_range` over an inclusive range. -/
def countRange (s : Store V) (lo hi : ℕ) : ℕ :=
  if hi < lo then 0
  else s.countBelow hi + (if (s.find hi).isSome then 1 else 0) - s.countBelow lo

end Store

end Expanse
