import Expanse.Trie32.Reads

/-!
# The forward iterator of the 32-bit engine

An iterator keeps the branches on its descent path, each with the next digit to try, and a cursor
into the leaf that it streams. A step bumps the cursor; when the leaf is spent, it takes the next
digit at the deepest branch that is not finished. The cursor of a map bitmap leaf counts ranks as
it goes instead of asking the bitmap for each.
-/

namespace Expanse.Trie32

open Bitmap Packed

/-- `branch_child_at_or_after` on a node. -/
def nodeAtOrAfter (n : Node) (start : ℕ) : Except Fault (Option (ℕ × Edge32)) :=
  match n with
  | .l2 b => linearFrom b start
  | .l6 b => linearFrom b start
  | .b b =>
    match bitmapFirstGe b.bits start with
    | some d =>
      match b.subs.getD (d / 32) none with
      | some s => (edgeAt s (digitRank false b.bits d)).map fun c => some (d, c)
      | none => .ok none
    | none => .ok none
  | .u b => .ok (flatItem b (List.range' start (256 - start)))
  | _ => .error .wrongNode
where
  linearFrom (b : LinearBranch) (start : ℕ) : Except Fault (Option (ℕ × Edge32)) :=
    match (List.range b.numEdges).find? fun i => decide (start ≤ b.digits.getD i 0) with
    | some i => (linearItem b i).map some
    | none => .ok none

/-- `branch_child_at_or_after`. -/
def childAtOrAfter (a : Arena) (e : Edge32) (start : ℕ) : Except Fault (Option (ℕ × Edge32)) :=
  match e with
  | .branch form h => do
    let n ← a.branch form h
    nodeAtOrAfter n start
  | _ => .error .wrongFlavour

/-- One branch on the path: the decoded key bytes above it, and the next digit to try. -/
structure Frame32 where
  edge : Edge32
  kb : ℕ
  pre : ℕ
  nextDigit : ℕ

def SUB_NONE : ℕ := 255

inductive LeafCur32 where
  | done
  | immed (keys : List ℕ) (idx val pre : ℕ)
  | linear (h pop idx kb pre : ℕ)
  | bitmap (words : List ℕ) (w pre : ℕ)
  | mapBitmap (h : ℕ) (words : List ℕ) (w pre sub rank : ℕ)

namespace LeafCur32

/-- The cursor on the first entry of a leaf at or above `start`. -/
def new (fl : Flavour) (a : Arena) (e : Edge32) (kb pre start : ℕ) : Except Fault (Option LeafCur32) :=
  match kind fl e with
  | .null => .ok none
  | .immed l =>
    match fl with
    | .set =>
      let keys := (l.map Prod.fst).insertionSort (· ≤ ·)
      let idx := (keys.takeWhile (· < start)).length
      .ok (if idx < keys.length then some (.immed keys idx 0 pre) else none)
    | .map =>
      match l with
      | (r, v) :: _ => .ok (if start ≤ r then some (.immed [r] 0 v pre) else none)
      | [] => .ok none
  | .leaf h pop => do
    let vw := valueWidth fl
    let buf ← a.leaf h (keysOff vw pop + pop * kb)
    let idx := leafLowerBound (keysOff vw pop) kb buf pop start
    pure (if idx < pop then some (.linear h pop idx kb pre) else none)
  | .bitmap h =>
    if 255 < start then .ok none
    else
      match fl with
      | .set => do
        let b ← a.bitmap h
        let words := startWords b.bits start
        pure (if words.all (· == 0) then none else some (.bitmap words 0 pre))
      | .map => do
        let b ← a.mapBitmap h
        let words := startWords b.bits start
        pure (if words.all (· == 0) then none else some (.mapBitmap h words 0 pre SUB_NONE 0))
  | _ => .ok none

/-- The loop of the bitmap cursors: skip empty words, then take the lowest bit. -/
def takeBit : ℕ → List ℕ → ℕ → Option ℕ × List ℕ × ℕ
  | 0, words, w => (none, words, w)
  | fuel + 1, words, w =>
    if 4 ≤ w then (none, words, w)
    else
      match firstBit (words.getD w 0) with
      | none => takeBit fuel words (w + 1)
      | some bit => (some (64 * w + bit), words.set w (dropFirst (words.getD w 0)), w)

/-- `LeafCur32::next`. -/
def next (fl : Flavour) (a : Arena) : LeafCur32 → Except Fault (Option (ℕ × ℕ) × LeafCur32)
  | .done => .ok (none, .done)
  | .immed keys idx val pre =>
    match keys[idx]? with
    | some k => .ok (some (pre ||| k, val), .immed keys (idx + 1) val pre)
    | none => .ok (none, .immed keys idx val pre)
  | .linear h pop idx kb pre =>
    if pop ≤ idx then .ok (none, .linear h pop idx kb pre)
    else do
      let vw := valueWidth fl
      let buf ← a.leaf h (keysOff vw pop + pop * kb)
      pure (some (pre ||| readRem (keysOff vw pop) kb buf idx, readRem 0 vw buf idx),
        .linear h pop (idx + 1) kb pre)
  | .bitmap words w pre =>
    match takeBit 5 words w with
    | (none, words, w) => .ok (none, .bitmap words w pre)
    | (some digit, words, w) => .ok (some (pre ||| digit, 0), .bitmap words w pre)
  | .mapBitmap h words w pre sub rank =>
    match takeBit 5 words w with
    | (none, words, w) => .ok (none, .mapBitmap h words w pre sub rank)
    | (some digit, words, w) => do
      let b ← a.mapBitmap h
      -- inside one subarray the rank runs on; it is asked of the bitmap where a subarray is entered
      let rank := if digit / 32 = sub then rank + 1 else digitRank false b.bits digit
      if rank ≠ digitRank false b.bits digit then .error .assertion
      else
        match b.subs.getD (digit / 32) none with
        | none => pure (none, .mapBitmap h words w pre (digit / 32) rank)
        | some s =>
          match s[rank]? with
          | some v => pure (some (pre ||| digit, v), .mapBitmap h words w pre (digit / 32) rank)
          | none => .error .outOfBounds

end LeafCur32

/-- The stack, deepest branch first, and the leaf. -/
structure RawIter32 where
  stack : List Frame32
  leaf : LeafCur32

namespace RawIter32

/-- `descend`: whether the subtree holds something at or above `start`. -/
def descend (fl : Flavour) (a : Arena) : ℕ → RawIter32 → Edge32 → ℕ → ℕ → ℕ → Except Fault (Bool × RawIter32)
  | 0, _, _, _, _, _ => .error .outOfFuel
  | fuel + 1, it, e, kb, pre, start =>
    match kind fl e with
    | .null => .ok (false, it)
    | .branch _ _ => do
      match ← childAtOrAfter a e (digitAt start kb) with
      | none => pure (false, it)
      | some (d, c) =>
        if 4 ≤ it.stack.length then .error .outOfBounds
        else
          descend fl a fuel { it with stack := ⟨e, kb, pre, d + 1⟩ :: it.stack } c (kb - 1)
            (pre ||| d * 2 ^ (8 * (kb - 1))) (if digitAt start kb < d then 0 else childRem start kb)
    | _ => do
      match ← LeafCur32.new fl a e kb pre start with
      | some cur => pure (true, { it with leaf := cur })
      | none => pure (false, it)

/-- `unwind`: the next digit at the deepest branch that has one. -/
def unwind (fl : Flavour) (a : Arena) : ℕ → RawIter32 → Except Fault RawIter32
  | 0, _ => .error .outOfFuel
  | fuel + 1, it =>
    match it.stack with
    | [] => .ok { it with leaf := .done }
    | f :: rest => do
      match ← (if f.nextDigit ≤ 255 then childAtOrAfter a f.edge f.nextDigit else .ok none) with
      | none => unwind fl a fuel { it with stack := rest }
      | some (d, c) =>
        let (found, it) ← descend fl a FUEL { it with stack := { f with nextDigit := d + 1 } :: rest } c
          (f.kb - 1) (f.pre ||| d * 2 ^ (8 * (f.kb - 1))) 0
        if found then pure it else .error .assertion

/-- `RawIter32::new`: at the first key at or above `start`. -/
def new (fl : Flavour) (a : Arena) (root : Edge32) (kb start : ℕ) : Except Fault RawIter32 := do
  let (found, it) ← descend fl a FUEL ⟨[], .done⟩ root kb 0 start
  if found then pure it else unwind fl a FUEL it

/-- `RawIter32::next`. -/
def next (fl : Flavour) (a : Arena) : ℕ → RawIter32 → Except Fault (Option (ℕ × ℕ) × RawIter32)
  | 0, _ => .error .outOfFuel
  | fuel + 1, it => do
    let (r, leaf) ← it.leaf.next fl a
    match r with
    | some x => pure (some x, { it with leaf := leaf })
    | none =>
      if it.stack = [] then pure (none, { it with leaf := leaf })
      else
        let it ← unwind fl a FUEL { it with leaf := leaf }
        next fl a fuel it

end RawIter32

end Expanse.Trie32
