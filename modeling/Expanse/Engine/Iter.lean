import Expanse.Library.BitScan
import Expanse.Library.Walks
import Expanse.Engine.Insert

/-!
# In-order walkers

An iterator keeps a leaf cursor and a stack of branch frames, the innermost first.
Each frame remembers where in its node the walk goes on. A walker has one
direction: forward it hands out the keys in ascending order and a frame's position
is the next slot to enter, backward it descends and the position lies just past
the next slot. Prefixes and suffixes have disjoint bits, so or-ing them adds.
-/

namespace Expanse

open Radix SortedAssoc

/-- More than the levels a descent can pass. -/
def DESCENT_FUEL : ℕ := 9

namespace Branch

variable {α : Type} [Nullable α]

/-- The digits of an uncompressed node with a child. -/
def filledAt (edges : List α) (d : ℕ) : Bool := !Nullable.isNull (edges.getD d Nullable.null)

/-- The first slot at or after a position: its digit, its child and the position after it. Linear
nodes count positions in slots, the others in digits. -/
def slotFrom (pos : ℕ) : Branch α → Option (ℕ × α × ℕ)
  | linear _ hdr edges => (hdr.digits.zip edges)[pos]?.map fun s => (s.1, s.2, pos + 1)
  | bitmap _ kids =>
    (Bitmap.nextSet kids.bits pos).bind fun d => (kids.get d).map fun c => (d, c, d + 1)
  | uncompressed edges =>
    ((List.range' pos (256 - pos)).find? (filledAt edges)).map fun d =>
      (d, edges.getD d Nullable.null, d + 1)

/-- The last slot before a position: its digit, its child and its own position. -/
def slotBefore (pos : ℕ) : Branch α → Option (ℕ × α × ℕ)
  | linear _ hdr edges =>
    if 0 < pos then (hdr.digits.zip edges)[pos - 1]?.map fun s => (s.1, s.2, pos - 1) else none
  | bitmap _ kids =>
    if 0 < pos then
      (Bitmap.prevSet kids.bits (pos - 1)).bind fun d => (kids.get d).map fun c => (d, c, d)
    else none
  | uncompressed edges =>
    ((List.range pos).reverse.find? (filledAt edges)).map fun d =>
      (d, edges.getD d Nullable.null, d)

/-- The position of the first slot whose digit is at least `t`. -/
def seekPos (t : ℕ) : Branch α → ℕ
  | linear _ hdr _ => lowerBound hdr.digits t
  | bitmap _ _ => t
  | uncompressed _ => t

/-- The position past the last slot whose digit is at most `t`. -/
def seekBackPos (t : ℕ) : Branch α → ℕ
  | linear _ hdr _ => (hdr.digits.filter (· ≤ t)).length
  | bitmap _ _ => t + 1
  | uncompressed _ => t + 1

def isLinear : Branch α → Bool
  | linear _ _ _ => true
  | _ => false

def slotAt : Direction → ℕ → Branch α → Option (ℕ × α × ℕ)
  | .forward => slotFrom
  | .backward => slotBefore

/-- Where a walk enters a node. -/
def startPos : Direction → Branch α → ℕ
  | .forward, _ => 0
  | .backward, linear _ hdr _ => hdr.digits.length
  | .backward, _ => 256

end Branch

/-- The cursor inside a leaf form. Forward, an index is that of the next entry; backward, it lies
just past it. -/
inductive LeafCursor (V : Type) where
  | empty
  | rootLeaf (cols : Columns V) (idx : ℕ)
  | linear (cols : Columns V) (kb pop idx pre : ℕ)
  | bitmapSet (bits wordIdx pre : ℕ)
  | bitmapMap (node : Ranked V) (sub word rank pre : ℕ)
  | immedSingle (key : ℕ) (value : V) (done : Bool)
  | immedMulti (keys : List ℕ) (values : List V) (idx : ℕ)
  | fullExpanse (nextKey maxKey : ℕ)

structure Frame (V : Type) where
  node : Branch (Edge V)
  pos : ℕ
  level : ℕ
  pre : ℕ

structure Iter (V : Type) where
  leaf : LeafCursor V
  stack : List (Frame V)

namespace LeafCursor

variable {V : Type} [Inhabited V]

/-- `rank.wrapping_sub(1)` on 16 bits. -/
def wrappingPred (rank : ℕ) : ℕ := (rank + 65535) % 65536

/-- The cursor at the low end of a leaf form. The arms without a leaf are not entered. -/
def first (fl : Flavour) (e : Edge V) (level pre : ℕ) : LeafCursor V :=
  match e with
  | .immed _ cols =>
    match cols.entries with
    | [(k, v)] => immedSingle (pre + k) v false
    | _ => immedMulti (cols.keys.map (pre + ·)) cols.vals 0
  | .leaf kb aux cols =>
    linear cols kb (Aux.pop0 aux kb + 1) 0 (pre + slice aux kb level * 256 ^ kb)
  | .leafB1 aux node =>
    let leafPre := pre + slice aux 1 level * 256 ^ 1
    match fl with
    | .set => bitmapSet node.bits 0 leafPre
    | .map => bitmapMap node 0 (Bitmap.subWord node.bits 0) 0 leafPre
  | .fullExpanse _ => fullExpanse pre (pre + (256 ^ level - 1))
  | .null => empty
  | .branch _ _ => empty

/-- The cursor at the high end of a leaf form. -/
def last (fl : Flavour) (e : Edge V) (level pre : ℕ) : LeafCursor V :=
  match e with
  | .immed _ cols =>
    match cols.entries with
    | [(k, v)] => immedSingle (pre + k) v false
    | _ => immedMulti (cols.keys.map (pre + ·)) cols.vals cols.size
  | .leaf kb aux cols =>
    linear cols kb (Aux.pop0 aux kb + 1) (Aux.pop0 aux kb + 1)
      (pre + slice aux kb level * 256 ^ kb)
  | .leafB1 aux node =>
    let leafPre := pre + slice aux 1 level * 256 ^ 1
    match fl with
    | .set => bitmapSet node.bits 3 leafPre
    | .map =>
      let word := Bitmap.subWord node.bits 7
      bitmapMap node 7 word (wrappingPred (Bitmap.wordBits word).length) leafPre
  | .fullExpanse _ => fullExpanse pre (pre + (256 ^ level - 1))
  | .null => empty
  | .branch _ _ => empty

def enter : Direction → Flavour → Edge V → ℕ → ℕ → LeafCursor V
  | .forward => first
  | .backward => last

/-- The cursor at the first key of a leaf form that is at least `start`, empty when there is none. -/
def seek (fl : Flavour) (e : Edge V) (level pre start : ℕ) : LeafCursor V :=
  match e with
  | .immed _ cols =>
    match cols.entries with
    | [(k, v)] => if start ≤ pre + k then immedSingle (pre + k) v false else empty
    | _ =>
      let keys := cols.keys.map (pre + ·)
      match keys.findIdx? (start ≤ ·) with
      | some idx => immedMulti keys cols.vals idx
      | none => empty
  | .leaf kb aux cols =>
    let leafPre := pre + slice aux kb level * 256 ^ kb
    let pop := Aux.pop0 aux kb + 1
    if leafPre / 256 ^ kb < start / 256 ^ kb then empty
    else if start / 256 ^ kb < leafPre / 256 ^ kb then linear cols kb pop 0 leafPre
    else
      let idx := lowerBound cols.keys (low start kb)
      if pop ≤ idx then empty else linear cols kb pop idx leafPre
  | .leafB1 aux node =>
    let leafPre := pre + slice aux 1 level * 256 ^ 1
    if leafPre / 256 < start / 256 then empty
    else
      match Bitmap.nextSet node.bits (if start / 256 < leafPre / 256 then 0 else start % 256) with
      | none => empty
      | some d =>
        match fl with
        | .set => bitmapSet (Bitmap.keepFrom node.bits d) (d / 64) leafPre
        | .map =>
          bitmapMap node (d / 32) (Bitmap.keepFrom (Bitmap.subWord node.bits (d / 32)) (d % 32))
            (Bitmap.subexpanseRank node.bits d) leafPre
  | .fullExpanse _ =>
    let maxKey := pre + (256 ^ level - 1)
    if max start pre ≤ maxKey then fullExpanse (max start pre) maxKey else empty
  | .null => empty
  | .branch _ _ => empty

/-- The cursor past the last key of a leaf form that is at most `bound`, empty when there is none. -/
def seekBack (fl : Flavour) (e : Edge V) (level pre bound : ℕ) : LeafCursor V :=
  match e with
  | .immed _ cols =>
    match cols.entries with
    | [(k, v)] => if pre + k ≤ bound then immedSingle (pre + k) v false else empty
    | _ =>
      -- the count after the last key that fits
      let keys := cols.keys.map (pre + ·)
      let cnt := (keys.zipIdx.foldl (fun cnt x => if x.1 ≤ bound then x.2 + 1 else cnt) 0)
      if 0 < cnt then immedMulti keys cols.vals cnt else empty
  | .leaf kb aux cols =>
    let leafPre := pre + slice aux kb level * 256 ^ kb
    let pop := Aux.pop0 aux kb + 1
    if bound / 256 ^ kb < leafPre / 256 ^ kb then empty
    else if leafPre / 256 ^ kb < bound / 256 ^ kb then linear cols kb pop pop leafPre
    else
      let cnt := upTo cols.keys (low bound kb)
      if cnt = 0 then empty else linear cols kb pop cnt leafPre
  | .leafB1 aux node =>
    let leafPre := pre + slice aux 1 level * 256 ^ 1
    if bound / 256 < leafPre / 256 then empty
    else
      match Bitmap.prevSet node.bits (if leafPre / 256 < bound / 256 then 255 else bound % 256) with
      | none => empty
      | some d =>
        match fl with
        | .set => bitmapSet (Bitmap.keepTo node.bits d) (d / 64) leafPre
        | .map =>
          let word := Bitmap.keepTo (Bitmap.subWord node.bits (d / 32)) (d % 32)
          bitmapMap node (d / 32) word (wrappingPred (Bitmap.wordBits word).length) leafPre
  | .fullExpanse _ =>
    if bound < pre then empty else fullExpanse pre (min bound (pre + (256 ^ level - 1)))
  | .null => empty
  | .branch _ _ => empty

/-- The forward scan of a bitmap map leaf through the subexpanses from `sub` on. The first argument
counts those left. -/
def bitmapMapNext (node : Ranked V) (pre : ℕ) :
    ℕ → ℕ → ℕ → ℕ → Except Fault (Option ((ℕ × V) × LeafCursor V))
  | 0, _, _, _ => .ok none
  | n + 1, sub, word, rank =>
    match Bitmap.lowestBit word with
    | some bit =>
      match (node.sub sub)[rank]? with
      | some v =>
        .ok (some ((pre + (32 * sub + bit), v),
          bitmapMap node sub (Bitmap.clear word bit) (rank + 1) pre))
      | none => .error .indexOutOfBounds
    | none => bitmapMapNext node pre n (sub + 1) (Bitmap.subWord node.bits (sub + 1)) 0

/-- The backward scan, from `sub` down to the first subexpanse. -/
def bitmapMapBack (node : Ranked V) (pre : ℕ) :
    ℕ → ℕ → ℕ → Except Fault (Option ((ℕ × V) × LeafCursor V))
  | sub, word, rank =>
    match Bitmap.highestBit word with
    | some bit =>
      match (node.sub sub)[rank]? with
      | some v =>
        .ok (some ((pre + (32 * sub + bit), v),
          bitmapMap node sub (Bitmap.clear word bit) (wrappingPred rank) pre))
      | none => .error .indexOutOfBounds
    | none =>
      match sub with
      | 0 => .ok none
      | sub + 1 =>
        let word := Bitmap.subWord node.bits sub
        bitmapMapBack node pre sub word (wrappingPred (Bitmap.wordBits word).length)

/-- The entry at a position of a packed leaf. -/
def read (cols : Columns V) (i : ℕ) : Except Fault (ℕ × V) :=
  match cols.entries[i]? with
  | some x => .ok x
  | none => .error .indexOutOfBounds

/-- Take the next entry of a leaf in ascending order; nothing when the leaf is exhausted. Stepping a
full expanse past the last word overflows. -/
def next : LeafCursor V → Except Fault (Option ((ℕ × V) × LeafCursor V))
  | empty => .ok none
  | rootLeaf cols idx =>
    if idx < cols.size then (read cols idx).map fun x => some (x, rootLeaf cols (idx + 1))
    else .ok none
  | linear cols kb pop idx pre =>
    if idx < pop then
      (read cols idx).map fun x => some ((pre + x.1, x.2), linear cols kb pop (idx + 1) pre)
    else .ok none
  | bitmapSet bits wordIdx pre =>
    match Bitmap.nextSet bits (64 * wordIdx) with
    | some d => .ok (some ((pre + d, default), bitmapSet (Bitmap.clear bits d) (d / 64) pre))
    | none => .ok none
  | bitmapMap node sub word rank pre => bitmapMapNext node pre (8 - sub) sub word rank
  | immedSingle key value done =>
    if done then .ok none else .ok (some ((key, value), immedSingle key value true))
  | immedMulti keys values idx =>
    .ok ((keys.zip values)[idx]?.map fun x => (x, immedMulti keys values (idx + 1)))
  | fullExpanse nextKey maxKey =>
    if nextKey ≤ maxKey then
      if nextKey + 1 < 256 ^ 8 then
        .ok (some ((nextKey, default), fullExpanse (nextKey + 1) maxKey))
      else .error .overflow
    else .ok none

/-- Take the next entry of a leaf in descending order. -/
def nextBack : LeafCursor V → Except Fault (Option ((ℕ × V) × LeafCursor V))
  | empty => .ok none
  | rootLeaf cols idx =>
    if 0 < idx then (read cols (idx - 1)).map fun x => some (x, rootLeaf cols (idx - 1))
    else .ok none
  | linear cols kb pop idx pre =>
    if 0 < idx then
      (read cols (idx - 1)).map fun x => some ((pre + x.1, x.2), linear cols kb pop (idx - 1) pre)
    else .ok none
  | bitmapSet bits wordIdx pre =>
    match Bitmap.prevSet bits (64 * wordIdx + 63) with
    | some d => .ok (some ((pre + d, default), bitmapSet (Bitmap.clear bits d) (d / 64) pre))
    | none => .ok none
  | bitmapMap node sub word rank pre => bitmapMapBack node pre sub word rank
  | immedSingle key value done =>
    if done then .ok none else .ok (some ((key, value), immedSingle key value true))
  | immedMulti keys values idx =>
    if 0 < idx then
      .ok ((keys.zip values)[idx - 1]?.map fun x => (x, immedMulti keys values (idx - 1)))
    else .ok none
  | fullExpanse nextKey maxKey =>
    if nextKey ≤ maxKey then
      .ok (some ((maxKey, default),
        if maxKey = nextKey then fullExpanse 1 0 else fullExpanse nextKey (maxKey - 1)))
    else .ok none

def step : Direction → LeafCursor V → Except Fault (Option ((ℕ × V) × LeafCursor V))
  | .forward => next
  | .backward => nextBack

def isEmpty : LeafCursor V → Bool
  | empty => true
  | _ => false

end LeafCursor

namespace Iter

variable {V : Type} [Inhabited V]

def new : Iter V := ⟨.empty, []⟩

def push (f : Frame V) (it : Iter V) : Except Fault (Iter V) :=
  if it.stack.length < 8 then .ok ⟨it.leaf, f :: it.stack⟩ else .error .indexOutOfBounds

/-- Descend to the first leaf of a walk below an edge. A null edge and a node without children
leave the cursor alone. -/
def descendBy (dir : Direction) (fl : Flavour) :
    ℕ → Edge V → ℕ → ℕ → Iter V → Except Fault (Iter V)
  | 0, _, _, _, _ => .error .fuel
  | fuel + 1, e, level, pre, it =>
    match e with
    | .null => .ok it
    | .branch aux node =>
      let bl := node.level level
      let branchPre := pre + slice aux bl level * 256 ^ bl
      match node.slotAt dir (node.startPos dir) with
      | none => .ok it
      | some (d, c, pos) =>
        match it.push ⟨node, pos, bl, branchPre⟩ with
        | .error f => .error f
        | .ok it => descendBy dir fl fuel c (bl - 1) (branchPre + d * 256 ^ (bl - 1)) it
    | e => .ok ⟨.enter dir fl e level pre, it.stack⟩

def descend (fl : Flavour) : Edge V → ℕ → ℕ → Iter V → Except Fault (Iter V) :=
  descendBy .forward fl DESCENT_FUEL

def descendMax (fl : Flavour) : Edge V → ℕ → ℕ → Iter V → Except Fault (Iter V) :=
  descendBy .backward fl DESCENT_FUEL

/-- Descend towards the smallest key at or above `start`. A branch whose expanse lies above `start`
is entered at its first slot; a linear one then goes on seeking, the others descend. -/
def descendSeek (fl : Flavour) :
    ℕ → Edge V → ℕ → ℕ → ℕ → Iter V → Except Fault (Iter V)
  | 0, _, _, _, _, _ => .error .fuel
  | fuel + 1, e, level, pre, start, it =>
    match e with
    | .null => .ok ⟨.empty, it.stack⟩
    | .branch aux node =>
      let bl := node.level level
      let branchPre := pre + slice aux bl level * 256 ^ bl
      if branchPre / 256 ^ bl < start / 256 ^ bl then .ok ⟨.empty, it.stack⟩
      else
        let above : Bool := start / 256 ^ bl < branchPre / 256 ^ bl
        let target := if above then 0 else digit start bl
        match node.slotFrom (node.seekPos target) with
        | none => .ok ⟨.empty, it.stack⟩
        | some (d, c, pos) =>
          match it.push ⟨node, pos, bl, branchPre⟩ with
          | .error f => .error f
          | .ok it =>
            let childPre := branchPre + d * 256 ^ (bl - 1)
            if (if above then node.isLinear else d == target) then
              descendSeek fl fuel c (bl - 1) childPre start it
            else descend fl c (bl - 1) childPre it
    | e => .ok ⟨.seek fl e level pre start, it.stack⟩

/-- Descend towards the largest key at or below `bound`. -/
def descendSeekBack (fl : Flavour) :
    ℕ → Edge V → ℕ → ℕ → ℕ → Iter V → Except Fault (Iter V)
  | 0, _, _, _, _, _ => .error .fuel
  | fuel + 1, e, level, pre, bound, it =>
    match e with
    | .null => .ok ⟨.empty, it.stack⟩
    | .branch aux node =>
      let bl := node.level level
      let branchPre := pre + slice aux bl level * 256 ^ bl
      if bound / 256 ^ bl < branchPre / 256 ^ bl then .ok ⟨.empty, it.stack⟩
      else if branchPre / 256 ^ bl < bound / 256 ^ bl then
        descendMax fl (.branch aux node) level pre it
      else
        let target := digit bound bl
        match node.slotBefore (node.seekBackPos target) with
        | none => .ok ⟨.empty, it.stack⟩
        | some (d, c, pos) =>
          match it.push ⟨node, pos, bl, branchPre⟩ with
          | .error f => .error f
          | .ok it =>
            let childPre := branchPre + d * 256 ^ (bl - 1)
            if d = target then descendSeekBack fl fuel c (bl - 1) childPre bound it
            else descendMax fl c (bl - 1) childPre it
    | e => .ok ⟨.seekBack fl e level pre bound, it.stack⟩

/-- Go on to the next leaf of the walk: nothing when the stack runs out. An uncompressed frame
decodes a one-key immediate in place, which is what the descent does with it. -/
def stepLeaf (dir : Direction) (fl : Flavour) (leaf : LeafCursor V) :
    List (Frame V) → Except Fault (Option (Iter V))
  | [] => .ok none
  | f :: rest =>
    match f.node.slotAt dir f.pos with
    | some (d, c, pos) =>
      (descendBy dir fl DESCENT_FUEL c (f.level - 1) (f.pre + d * 256 ^ (f.level - 1))
        ⟨leaf, { f with pos := pos } :: rest⟩).map some
    | none => stepLeaf dir fl leaf rest

/-- The forward walk goes on to its next leaf. The cursor stays when there is none; its stack is
then empty. -/
def advanceLeaf (fl : Flavour) (it : Iter V) : Except Fault (Option (Iter V)) :=
  stepLeaf .forward fl it.leaf it.stack

def retreatLeaf (fl : Flavour) (it : Iter V) : Except Fault (Option (Iter V)) :=
  stepLeaf .backward fl it.leaf it.stack

/-- One entry of the walk. A root leaf has no stack above it. -/
def nextBy (dir : Direction) (fl : Flavour) :
    ℕ → Iter V → Except Fault (Option (ℕ × V) × Iter V)
  | 0, _ => .error .fuel
  | fuel + 1, it =>
    if it.leaf.isEmpty then .ok (none, it)
    else
      match it.leaf.step dir with
      | .error f => .error f
      | .ok (some (x, leaf)) => .ok (some x, ⟨leaf, it.stack⟩)
      | .ok none =>
        match it.leaf with
        | .rootLeaf _ _ => .ok (none, ⟨.empty, it.stack⟩)
        | leaf =>
          match stepLeaf dir fl leaf it.stack with
          | .error f => .error f
          | .ok none => .ok (none, ⟨.empty, []⟩)
          | .ok (some it) => nextBy dir fl fuel it

def next (fl : Flavour) : Iter V → Except Fault (Option (ℕ × V) × Iter V) := nextBy .forward fl DESCENT_FUEL

def nextBack (fl : Flavour) : Iter V → Except Fault (Option (ℕ × V) × Iter V) :=
  nextBy .backward fl DESCENT_FUEL

def fromRootLeaf (cols : Columns V) : Iter V := ⟨.rootLeaf cols 0, []⟩

def fromRootLeafRange (cols : Columns V) (start : ℕ) : Iter V :=
  ⟨.rootLeaf cols (lowerBound cols.keys start), []⟩

def fromTree (fl : Flavour) (top : Edge V) : Except Fault (Iter V) := descend fl top 8 0 new

/-- Where a seek left the cursor empty, the walk goes on to the next leaf. -/
def orAdvance (dir : Direction) (fl : Flavour) (it : Iter V) : Except Fault (Iter V) :=
  if it.leaf.isEmpty then
    match stepLeaf dir fl it.leaf it.stack with
    | .error f => .error f
    | .ok none => .ok ⟨.empty, []⟩
    | .ok (some it) => .ok it
  else .ok it

def fromTreeRange (fl : Flavour) (top : Edge V) (start : ℕ) : Except Fault (Iter V) :=
  (descendSeek fl DESCENT_FUEL top 8 0 start new).bind (orAdvance .forward fl)

def fromRootLeafRev (cols : Columns V) : Iter V :=
  if cols.size = 0 then new else ⟨.rootLeaf cols cols.size, []⟩

def fromRootLeafRangeRev (cols : Columns V) (bound : ℕ) : Iter V :=
  let idx := (cols.keys.filter (· ≤ bound)).length
  if idx = 0 then new else ⟨.rootLeaf cols idx, []⟩

def fromTreeRev (fl : Flavour) (top : Edge V) : Except Fault (Iter V) := descendMax fl top 8 0 new

def fromTreeRangeRev (fl : Flavour) (top : Edge V) (bound : ℕ) : Except Fault (Iter V) :=
  (descendSeekBack fl DESCENT_FUEL top 8 0 bound new).bind (orAdvance .backward fl)

end Iter

end Expanse
