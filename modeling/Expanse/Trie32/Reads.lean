import Expanse.Library.Neighbours
import Expanse.Library.WordScan
import Expanse.Trie32.Ops

/-!
# Ordered reads of the 32-bit engine

The first and the last entry, the entry next to a key on either side, the number of entries in a
range, and the walk over a range. The two sides are one definition with a direction; sets and
maps are one with the flavour, a set's values being 0.
-/

namespace Expanse.Trie32

open Bitmap Packed

/-- `rem_mask`. -/
def remMask (kb : ℕ) : ℕ := if 4 ≤ kb then 2 ^ 32 - 1 else 2 ^ (8 * kb) - 1

/-- `combine`. -/
def combine (digit child kb : ℕ) : ℕ := digit * 2 ^ (8 * (kb - 1)) ||| child

/-- Entries under the digits above them. -/
def under (pre : ℕ) (l : List (ℕ × ℕ)) : List (ℕ × ℕ) := l.map fun x => (pre ||| x.1, x.2)

/-- An entry of a child as one of the branch. -/
def lift (digit kb : ℕ) (x : ℕ × ℕ) : ℕ × ℕ := (combine digit x.1 kb, x.2)

/-- `bitmap_first_ge_raw`. -/
def bitmapFirstGe (bits start : ℕ) : Option ℕ :=
  if 255 < start then none
  else scanUp bits 4 (start / 64) (field bits 64 (start / 64) &&& maskFrom (start % 64))

/-- `(word << shift) >> shift`. -/
def dropHigh (word shift : ℕ) : ℕ := word * 2 ^ shift % 2 ^ 64 / 2 ^ shift

/-- `bitmap_last_le_raw`. -/
def bitmapLastLe (bits : ℕ) (last : ℤ) : Option ℕ :=
  if last < 0 then none
  else
    let stop := min last.toNat 255
    scanDown bits (stop / 64) (dropHigh (field bits 64 (stop / 64)) (63 - stop % 64))

/-- `bitmap_count_range_raw`. -/
def bitmapCountRange (bits lo hi : ℕ) : ℕ :=
  if min hi 255 < min lo 255 then 0 else countRange bits (min lo 255) (min hi 255)

/-- `map_bitmap_entry`. -/
def mapBitmapEntry (b : MapBitmap) (digit : ℕ) : Except Fault (Option (ℕ × ℕ)) :=
  match b.subs.getD (digit / 32) none with
  | some s =>
    match s[digitRank false b.bits digit]? with
    | some v => .ok (some (digit, v))
    | none => .error .outOfBounds
  | none => .ok none

/-- The entry of a bitmap leaf at the digit that a scan finds. -/
def bitmapEntry (fl : Flavour) (a : Arena) (h : ℕ) (scan : ℕ → Option ℕ) : Except Fault (Option (ℕ × ℕ)) :=
  match fl with
  | .set => do
    let b ← a.bitmap h
    pure ((scan b.bits).map fun d => (d, 0))
  | .map => do
    let b ← a.mapBitmap h
    match scan b.bits with
    | some d => mapBitmapEntry b d
    | none => pure none

def bitmapEnd (dir : Direction) (bits : ℕ) : Option ℕ :=
  match dir with
  | .forward => bitmapFirstGe bits 0
  | .backward => bitmapLastLe bits 255

def bitmapBeyond (dir : Direction) (k bits : ℕ) : Option ℕ :=
  match dir with
  | .forward => if 255 ≤ k then none else bitmapFirstGe bits (k + 1)
  | .backward => if k = 0 then none else bitmapLastLe bits ((k : ℤ) - 1)

def extreme (dir : Direction) (keys : List ℕ) : Option ℕ :=
  match dir with
  | .forward => keys.min?
  | .backward => keys.max?

def immedEnd (dir : Direction) (fl : Flavour) (l : List (ℕ × ℕ)) : Option (ℕ × ℕ) :=
  match fl with
  | .set => (extreme dir (l.map Prod.fst)).map fun k => (k, 0)
  | .map => l.head?

def immedBeyond (dir : Direction) (fl : Flavour) (k : ℕ) (l : List (ℕ × ℕ)) : Option (ℕ × ℕ) :=
  match fl with
  | .set => (extreme dir ((l.map Prod.fst).filter (dir.past k))).map fun k => (k, 0)
  | .map => l.head?.filter fun e => dir.past k e.1

/-- `leaf_index_after`. -/
def leafIndexAfter (off kb : ℕ) (buf : List ℕ) (pop after : ℕ) : Option ℕ :=
  if remMask kb ≤ after then none
  else
    let i := leafLowerBound off kb buf pop (after + 1)
    if i < pop then some i else none

def leafEnd (dir : Direction) (pop : ℕ) : ℕ :=
  match dir with
  | .forward => 0
  | .backward => pop - 1

def leafBeyond (dir : Direction) (off kb : ℕ) (buf : List ℕ) (pop k : ℕ) : Option ℕ :=
  match dir with
  | .forward => leafIndexAfter off kb buf pop k
  | .backward =>
    let i := leafLowerBound off kb buf pop k
    if i = 0 then none else some (i - 1)

/-- Entry number `i` of a linear leaf. -/
def leafEntry (vw kb pop : ℕ) (buf : List ℕ) (i : ℕ) : ℕ × ℕ :=
  (readRem (keysOff vw pop) kb buf i, readRem 0 vw buf i)

def linearItem (b : LinearBranch) (i : ℕ) : Except Fault (ℕ × Edge32) :=
  match b.digits[i]?, b.edges[i]? with
  | some d, some c => .ok (d, c)
  | _, _ => .error .outOfBounds

def bitmapItem (b : BitmapBranch) (digit : ℕ) : Except Fault (ℕ × Edge32) :=
  (subItem (b.subs.getD (digit / 32) none) (digitRank false b.bits digit)).map fun c => (digit, c)

def flatSlot (b : FlatBranch) (d : ℕ) : Option (ℕ × Edge32) :=
  match b.edges[d]? with
  | some c => if c = .null then none else some (d, c)
  | none => none

/-- The first live slot of a table among some digits. -/
def flatItem (b : FlatBranch) (ds : List ℕ) : Option (ℕ × Edge32) := ds.findSome? (flatSlot b)

/-- The loop over the words of a bitmap branch, to the first or to the last digit. -/
def scanEnd (dir : Direction) (bits : ℕ) : Option ℕ :=
  match dir with
  | .forward => scanUp bits 4 0 (field bits 64 0)
  | .backward => scanDown bits 3 (field bits 64 3)

/-- `branch_first_child` and `branch_last_child`. -/
def nodeEnd (dir : Direction) (n : Node) : Except Fault (Option (ℕ × Edge32)) :=
  match n with
  | .l2 b => if 0 < b.numEdges then (linearItem b (leafEnd dir b.numEdges)).map some else .ok none
  | .l6 b => if 0 < b.numEdges then (linearItem b (leafEnd dir b.numEdges)).map some else .ok none
  | .b b =>
    match scanEnd dir b.bits with
    | some d => (bitmapItem b d).map some
    | none => .ok none
  | .u b => .ok (flatItem b (dir.order (List.range 256)))
  | _ => .error .wrongNode

/-- `branch_for_each_child` and `branch_for_each_child_rev`: the children in the order of the walk. -/
def nodeChildrenIn (dir : Direction) (n : Node) : Except Fault (List (ℕ × Edge32)) :=
  match dir with
  | .forward => nodePairs n
  | .backward =>
    match n with
    | .l2 b => .ok (linearPairs b).reverse
    | .l6 b => .ok (linearPairs b).reverse
    | .b b => (digits b.bits).reverse.mapM (bitmapItem b)
    | .u b => .ok ((List.range 256).reverse.filterMap (flatSlot b))
    | _ => .error .wrongNode

/-- Visit children until one answers. -/
def firstHit (visit : ℕ × Edge32 → Except Fault (Option (ℕ × ℕ))) :
    List (ℕ × Edge32) → Except Fault (Option (ℕ × ℕ))
  | [] => .ok none
  | c :: cs => do
    match ← visit c with
    | some x => pure (some x)
    | none => firstHit visit cs

def endEntry (dir : Direction) (fl : Flavour) (a : Arena) : ℕ → Edge32 → ℕ → Except Fault (Option (ℕ × ℕ))
  | 0, _, _ => .error .outOfFuel
  | fuel + 1, e, kb =>
    match kind fl e with
    | .null => .ok none
    | .immed l => .ok (immedEnd dir fl l)
    | .leaf h pop =>
      if pop = 0 then .ok none
      else do
        let buf ← a.leaf h (keysOff (valueWidth fl) pop + pop * kb)
        pure (some (leafEntry (valueWidth fl) kb pop buf (leafEnd dir pop)))
    | .bitmap h => bitmapEntry fl a h (bitmapEnd dir)
    | .branch form h => do
      let n ← a.branch form h
      match ← nodeEnd dir n with
      | some (d, c) =>
        let r ← endEntry dir fl a fuel c (kb - 1)
        pure (r.map (lift d kb))
      | none => pure none
    | .foreign => .error .wrongFlavour

/-- The entry next to `k` in a direction. -/
def beyondEntry (dir : Direction) (fl : Flavour) (a : Arena) :
    ℕ → Edge32 → ℕ → ℕ → Except Fault (Option (ℕ × ℕ))
  | 0, _, _, _ => .error .outOfFuel
  | fuel + 1, e, kb, k =>
    match kind fl e with
    | .null => .ok none
    | .immed l => .ok (immedBeyond dir fl k l)
    | .leaf h pop => do
      let vw := valueWidth fl
      let buf ← a.leaf h (keysOff vw pop + pop * kb)
      pure ((leafBeyond dir (keysOff vw pop) kb buf pop k).map (leafEntry vw kb pop buf))
    | .bitmap h => bitmapEntry fl a h (bitmapBeyond dir k)
    | .branch form h => do
      let n ← a.branch form h
      let es ← nodeChildrenIn dir n
      firstHit (fun c => do
        if dir.past c.1 (digitAt k kb) then pure none
        else
          let r ← if c.1 = digitAt k kb then beyondEntry dir fl a fuel c.2 (kb - 1) (childRem k kb)
            else endEntry dir fl a fuel c.2 (kb - 1)
          pure (r.map (lift c.1 kb))) es
    | .foreign => .error .wrongFlavour

/-- `first_entry`, and `first` of a set. -/
def firstEntry (fl : Flavour) (a : Arena) (e : Edge32) : Except Fault (Option (ℕ × ℕ)) :=
  endEntry .forward fl a FUEL e KEY_BYTES

/-- `last_entry`, and `last` of a set. -/
def lastEntry (fl : Flavour) (a : Arena) (e : Edge32) : Except Fault (Option (ℕ × ℕ)) :=
  endEntry .backward fl a FUEL e KEY_BYTES

/-- `next_entry`, and `next` of a set. -/
def nextEntry (fl : Flavour) (a : Arena) (e : Edge32) (after : ℕ) : Except Fault (Option (ℕ × ℕ)) :=
  beyondEntry .forward fl a FUEL e KEY_BYTES after

/-- `prev_entry`, and `prev` of a set. -/
def prevEntry (fl : Flavour) (a : Arena) (e : Edge32) (before : ℕ) : Except Fault (Option (ℕ × ℕ)) :=
  beyondEntry .backward fl a FUEL e KEY_BYTES before

/-- `subtree_count`. -/
def subtreeCount (fl : Flavour) (a : Arena) (e : Edge32) : Except Fault ℕ :=
  match kind fl e with
  | .null => .ok 0
  | .immed l => .ok l.length
  | .leaf _ pop => .ok pop
  | .bitmap h =>
    match fl with
    | .set => do
      let b ← a.bitmap h
      pure b.pop0
    | .map => do
      let b ← a.mapBitmap h
      pure (b.pop0 + 1)
  | .branch form h => do
    let n ← a.branch form h
    pure (nodeCount n)
  | .foreign => .error .wrongFlavour

/-- The part of the range `lo .. hi` that lies below a digit. -/
def childRange (kb lo hi d : ℕ) : ℕ × ℕ :=
  (if d = digitAt lo kb then childRem lo kb else 0, if d =
    digitAt hi kb then childRem hi kb else remMask (kb - 1))

/-- Add up what children count, from digit `dlo` to digit `dhi`. -/
def sumChildren (visit : ℕ × Edge32 → Except Fault ℕ) (dlo dhi : ℕ) : List (ℕ × Edge32) → Except Fault ℕ
  | [] => .ok 0
  | c :: cs =>
    if c.1 < dlo then sumChildren visit dlo dhi cs
    else if dhi < c.1 then .ok 0
    else do
      let n ← visit c
      let m ← sumChildren visit dlo dhi cs
      pure (n + m)

/-- `count_range`. -/
def countRangeIn (fl : Flavour) (a : Arena) : ℕ → Edge32 → ℕ → ℕ → ℕ → Except Fault ℕ
  | 0, _, _, _, _ => .error .outOfFuel
  | fuel + 1, e, kb, lo, hi =>
    if hi < lo then .ok 0
    else
      match kind fl e with
      | .null => .ok 0
      | .immed l => .ok ((l.map Prod.fst).countP fun k => decide (lo ≤ k ∧ k ≤ hi))
      | .leaf h pop => do
        let vw := valueWidth fl
        let buf ← a.leaf h (keysOff vw pop + pop * kb)
        pure (((List.range pop).map (readRem (keysOff vw pop) kb buf)).countP fun k => decide (lo ≤ k ∧ k ≤ hi))
      | .bitmap h =>
        match fl with
        | .set => do
          let b ← a.bitmap h
          pure (bitmapCountRange b.bits lo hi)
        | .map => do
          let b ← a.mapBitmap h
          pure (bitmapCountRange b.bits lo hi)
      | .branch form h => do
        let n ← a.branch form h
        let es ← nodePairs n
        sumChildren (fun c =>
          if c.1 = digitAt lo kb ∨ c.1 = digitAt hi kb then
            countRangeIn fl a fuel c.2 (kb - 1) (childRange kb lo hi c.1).1 (childRange kb lo hi c.1).2
          else subtreeCount fl a c.2) (digitAt lo kb) (digitAt hi kb) es
      | .foreign => .error .wrongFlavour

end Expanse.Trie32
