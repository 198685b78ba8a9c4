import Expanse.Engine.Get
import Expanse.Engine.Skip

/-!
# Insertion

The descent of `insert_with_path_flat` and `map_insert_with_path_flat`. One loop
iteration inspects the current edge: a branch either is restructured in place and
looked at again, or is left through one slot; a terminal form absorbs the key.
A full leaf becomes a bitmap leaf or a branch into which its keys are inserted
again, truncated to the bytes the slot covers.

Every descent starts from a cleared insert path. Terminal arms at level 1 arm it;
on the way back each ancestor is recorded, here by prepending its digit.
-/

namespace Expanse

open Radix SortedAssoc

/-- Ways in which a descent does not return. -/
inductive Fault where
  | fuel
  | indexOutOfBounds
  | unreachable
  | overflow
deriving DecidableEq

/-- Which level-1 leaf the insert path caches (`leaf` or `leaf1` non-null). -/
inductive WarmLeaf where
  | bitmap
  | leaf1
deriving DecidableEq

/-- A non-empty insert path (`InsertPathOf`): the key bits above the cached leaf, the digits down to
its edge, the leaf's population, and the increments not yet added to the ancestors. The cleared
path, whose stored bits match no key, is `none`. -/
structure InsertPath where
  keyPrefix : ℕ
  route : List ℕ
  leaf : WarmLeaf
  terminalPop : ℕ
  pendingPop : ℕ
deriving DecidableEq

namespace InsertPath

/-- The path a level-1 terminal arm stores for `key`. -/
def arm (key : ℕ) (leaf : WarmLeaf) (pop : ℕ) : Option InsertPath :=
  some ⟨key / 256, [], leaf, pop, 0⟩

/-- `record_ancestor`: the branch through whose digit `d` the descent went. -/
def record (d : ℕ) (path : Option InsertPath) : Option InsertPath :=
  path.map fun p => { p with route := d :: p.route }

end InsertPath

/-- What an insert leaves behind: the slot's new edge, the previous value of the key, the address
of its value word, and the insert path. -/
structure Inserted (V : Type) where
  edge : Edge V
  old : Option V
  slot : Slot
  path : Option InsertPath

namespace Edge

variable {V : Type}

/-- Highest level at which two `level`-byte suffixes differ. -/
def divergenceLevel (a b level : ℕ) : ℕ := Nat.log2 (low (a ^^^ b) level) / 8 + 1

/-- `locate` behind the append fast path of the leaf arms. -/
def leafPos (keys : List ℕ) (pop k : ℕ) : Except ℕ ℕ :=
  match keys[pop - 1]? with
  | some last =>
    if last < k then .error pop else if k = last then .ok (pop - 1) else locate keys k
  | none => .error 0

/-- `build_bitmap_leaf_map`: the value subarray of an entry is selected by its key shifted right by
five, so a key of more than one byte indexes past the eight subarrays. -/
def buildBitmapLeafMap (entries : List (ℕ × V)) : Except Fault (Ranked V) :=
  if entries.any fun e => 8 ≤ e.1 / 32 then .error .indexOutOfBounds
  else .ok (Ranked.ofEntries entries)

/-- The set engine fills a bitmap leaf with the low byte of each key. -/
def buildBitmapLeafSet (entries : List (ℕ × V)) : Ranked V :=
  Ranked.ofEntries (entries.map fun e => (low e.1 1, e.2))

/-- How a branch lets a key pass. -/
inductive BranchStep (V : Type) where
  | retry (e : Edge V)
  | descend (node : Branch (Edge V)) (d : ℕ)

/-- A branch without a slot for `d`: open one, or move to the next layout when the node is full. -/
def openSlot (aux : ℕ) (node : Branch (Edge V)) (level d : ℕ) : BranchStep V :=
  match node with
  | .linear .l3 hdr _ =>
    if hdr.digits.length = BRANCH_L3_CAP then .retry (branch aux node.upgradeL3ToL7)
    else .descend (node.insertSlot d) d
  | .linear .l7 hdr _ =>
    if hdr.digits.length = BRANCH_L7_CAP then .retry (branch aux node.upgradeL7ToB)
    else .descend (node.insertSlot d) d
  | .bitmap bl kids =>
    if Bitmap.count kids.bits + 1 > BRANCHB_UP then
      -- an uncompressed node cannot skip, so a skipping one is wrapped first
      if bl < level then
        .retry (wrapSkipLevel (branch aux node) (bl + 1) level (Aux.pop0 aux bl + 1))
      else .retry (branch aux node.upgradeBToU)
    else .descend (node.insertSlot d) d
  | .uncompressed _ => .descend node d

def branchStep (aux : ℕ) (node : Branch (Edge V)) (key level : ℕ) : BranchStep V :=
  let bl := node.level level
  if bl < level && !Aux.decodeMatches aux key bl level then
    .retry (splitSkip (branch aux node) key level (Aux.pop0 aux bl + 1))
  else
    match node.find (digit key bl) with
    | some _ => .descend node (digit key bl)
    | none => openSlot aux node level (digit key bl)

/-- The keys of an overflowing leaf with the slot's skipped digits or-ed in. -/
def absorbDecode (aux kb level : ℕ) (entries : List (ℕ × V)) : List (ℕ × V) :=
  if kb < level then
    entries.map fun e => (e.1 ||| Aux.decodeValue aux kb level <<< (8 * kb), e.2)
  else entries

variable [Inhabited V]

/-- Re-insert a list of suffix keys, keeping the path of the last one. -/
def insertAll (insert : Edge V → ℕ → V → Except Fault (Inserted V)) :
    Edge V → Option InsertPath → List (ℕ × V) → Except Fault (Edge V × Option InsertPath)
  | e, path, [] => .ok (e, path)
  | e, _, (k, v) :: rest =>
    match insert e k v with
    | .ok r => insertAll insert r.edge r.path rest
    | .error f => .error f

/-- Overflow of a full leaf: the edge that replaces it, and the insert path. -/
def leafOverflow (fl : Flavour) (insert : Edge V → ℕ → V → Except Fault (Inserted V))
    (kb aux : ℕ) (cols : Columns V) (key level : ℕ) :
    Except Fault (Edge V × Option InsertPath) :=
  let all := absorbDecode aux kb level cols.entries
  let first := (all.head?.map Prod.fst).getD 0
  let last := (all.getLast?.map Prod.fst).getD 0
  let armed := if level = 1 then InsertPath.arm key .bitmap all.length else none
  let aux1 := Aux.setPop0 0 1 (all.length - 1)
  if all.length ≤ leafCap kb then
    .ok (leaf kb (Aux.restoreDecode (Aux.setPop0 0 kb (all.length - 1)) kb level aux)
      (Columns.ofEntries (all.map fun e => (low e.1 kb, e.2))), none)
  else if kb = 1 then
    match fl with
    | .set => .ok (leafB1 (Aux.restoreDecode aux1 1 level aux) (buildBitmapLeafSet all), armed)
    | .map =>
      match buildBitmapLeafMap all with
      | .ok node => .ok (leafB1 (Aux.restoreDecode aux1 1 level aux) node, none)
      | .error f => .error f
  else
    let d := divergenceLevel first last level
    if d = 1 then
      match fl with
      | .set => .ok (leafB1 (Aux.writeDecode aux1 1 level first) (buildBitmapLeafSet all), armed)
      | .map =>
        match buildBitmapLeafMap (all.map fun e => (low e.1 1, e.2)) with
        | .ok node => .ok (leafB1 (Aux.writeDecode aux1 1 level first) node, armed)
        | .error f => .error f
    else
      let aux0 := if d < level then Aux.writeDecode 0 d level first else 0
      match insertAll insert (branch aux0 (Branch.newL3 d)) none all with
      | .ok (branch aux' node, path) => .ok (branch (Aux.setPop0 aux' d (all.length - 1)) node, path)
      | .ok (e, path) => .ok (e, path)
      | .error f => .error f

/-- The address of a key that went into an overflowing leaf; only maps hand one out. -/
def overflowSlot (fl : Flavour) (fuel : ℕ) (e : Edge V) (key level : ℕ) : Option Slot :=
  match fl with
  | .set => some ⟨[], .index 0⟩
  | .map => locateSlot fuel e key level

/-- The insert descent. `keep` leaves the value of a present key untouched. -/
def insertFlat (fl : Flavour) (keep : Bool) :
    ℕ → Edge V → ℕ → V → ℕ → Except Fault (Inserted V)
  | 0, _, _, _, _ => .error .fuel
  | fuel + 1, e, key, val, level =>
    match e with
    | null =>
      -- no 8-byte immediates: the top starts as a branch
      if level = 8 then insertFlat fl keep fuel (branch 0 (Branch.newL3 level)) key val level
      else .ok ⟨immed level (Columns.single (low key level) val), none, ⟨[], .index 0⟩, none⟩
    | branch aux node =>
      match branchStep aux node key level with
      | .retry e' => insertFlat fl keep fuel e' key val level
      | .descend node' d =>
        let bl := node.level level
        match insertFlat fl keep fuel (node'.child d) key val (bl - 1) with
        | .ok r =>
          .ok { edge := branch (if r.old.isNone then Aux.incPop0 aux bl else aux)
                  (node'.setChild d r.edge)
                old := r.old
                slot := r.slot.under d
                path := InsertPath.record d r.path }
        | .error f => .error f
    | leafB1 aux node =>
      if 1 < level && !Aux.decodeMatches aux key 1 level then
        insertFlat fl keep fuel (splitSkip e key level (Aux.pop0 aux 1 + 1)) key val level
      else
        let d := digit key 1
        match node.get d with
        | some old =>
          .ok ⟨if keep then e else leafB1 aux (node.set d val), some old,
            ⟨[], bitmapPos node d⟩, none⟩
        | none =>
          let pop := Aux.pop0 aux 1 + 2
          if fl = .set ∧ pop = 256 ∧ level = 1 then
            .ok ⟨fullExpanse (Aux.setPop0 0 1 255), none, ⟨[], bitmapPos node d⟩, none⟩
          else
            .ok ⟨leafB1 (Aux.setPop0 aux 1 (pop - 1)) (node.insert d val), none,
              ⟨[], bitmapPos node d⟩,
              if level = 1 then InsertPath.arm key .bitmap pop else none⟩
    | leaf kb aux cols =>
      let pop := Aux.pop0 aux kb + 1
      if kb < level && !Aux.decodeMatches aux key kb level then
        insertFlat fl keep fuel (splitSkip e key level pop) key val level
      else
        let k := low key kb
        match leafPos cols.keys pop k with
        | .ok pos =>
          .ok ⟨if keep then e else leaf kb aux (cols.setVal pos val), cols.vals[pos]?,
            ⟨[], .index pos⟩, none⟩
        | .error pos =>
          if pop < leafCap kb then
            -- in place while the allocation class holds, else into a fresh allocation
            .ok ⟨leaf kb (Aux.setPop0 aux kb pop) (cols.insertAt pos k val), none, ⟨[], .index pos⟩,
              if kb = 1 ∧ level = 1 then InsertPath.arm key .leaf1 (pop + 1) else none⟩
          else
            match leafOverflow fl (fun e k v => insertFlat fl keep fuel e k v level) kb aux
              (cols.insertAt pos k val) key level with
            | .ok (e', path) =>
              match overflowSlot fl fuel e' key level with
              | some slot => .ok ⟨e', none, slot, path⟩
              | none => .error .unreachable
            | .error f => .error f
    | fullExpanse _ =>
      match fl with
      | .set => .ok ⟨e, some default, ⟨[], .index 0⟩, none⟩
      | .map => .error .unreachable
    | immed kb cols =>
      let k := low key kb
      match locate cols.keys k with
      | .ok pos =>
        .ok ⟨if keep then e else immed kb (cols.setVal pos val), cols.vals[pos]?, ⟨[], .index pos⟩,
          none⟩
      | .error pos =>
        if cols.size < fl.immedMax kb then
          .ok ⟨immed kb (cols.insertAt pos k val), none, ⟨[], .index pos⟩, none⟩
        else
          .ok ⟨leaf kb (Aux.setPop0 0 kb cols.size) (cols.insertAt pos k val), none,
            ⟨[], .index pos⟩, none⟩

end Edge

end Expanse
