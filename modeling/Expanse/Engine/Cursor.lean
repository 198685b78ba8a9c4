import Expanse.Engine.IterTree

/-!
# Resumable cursors

A cursor keeps a forward walker and the entry it peeked. To skip ahead it first
searches the leaf it stands in, then climbs to the innermost frame whose expanse
covers the target and seeks again from there; only past the whole path does it
start over at the root. It never moves back.
-/

namespace Expanse

open Radix SortedAssoc Edge

namespace LeafCursor

variable {V : Type}

/-- Whether the leaf still has a key at or beyond `target`, and the cursor moved there. The second
part of a failed search is not read again. -/
def seekForward (target : ℕ) : LeafCursor V → Bool × LeafCursor V
  | empty => (false, empty)
  | rootLeaf cols idx => (false, rootLeaf cols idx)
  | linear cols kb pop idx pre =>
    if target / 256 ^ kb < pre / 256 ^ kb then (true, linear cols kb pop idx pre)
    else if pre / 256 ^ kb < target / 256 ^ kb then (false, linear cols kb pop idx pre)
    else
      let at' := lowerBound cols.keys (low target kb)
      if pop ≤ at' then (false, linear cols kb pop idx pre)
      else (true, linear cols kb pop (if idx < at' then at' else idx) pre)
  | bitmapSet bits wordIdx pre =>
    if target / 256 < pre / 256 then (true, bitmapSet bits wordIdx pre)
    else if pre / 256 < target / 256 then (false, bitmapSet bits wordIdx pre)
    else
      let newWi := target % 256 / 64
      let kept := Bitmap.keepFrom bits (target % 256)
      if (Bitmap.nextSet kept (64 * newWi)).isNone then (false, bitmapSet kept wordIdx pre)
      else (true, bitmapSet kept newWi pre)
  | bitmapMap node sub word rank pre =>
    if target / 256 < pre / 256 then (true, bitmapMap node sub word rank pre)
    else if pre / 256 < target / 256 then (false, bitmapMap node sub word rank pre)
    else
      match Bitmap.nextSet node.bits (target % 256) with
      | none => (false, bitmapMap node sub word rank pre)
      | some fd =>
        -- a digit at or before the front would rewind
        if fd / 32 < sub ∨ fd / 32 = sub ∧ (Bitmap.lowestBit word).all (fd % 32 < ·) then
          (true, bitmapMap node sub word rank pre)
        else
          (true, bitmapMap node (fd / 32)
            (Bitmap.keepFrom (Bitmap.subWord node.bits (fd / 32)) (fd % 32))
            (Bitmap.subexpanseRank node.bits fd) pre)
  | immedSingle key value done =>
    (!done && decide (target ≤ key), immedSingle key value done)
  | immedMulti keys values idx =>
    let i := idx + (keys.drop idx).findIdx (target ≤ ·)
    if keys.length ≤ i then (false, immedMulti keys values idx)
    else (true, immedMulti keys values i)
  | fullExpanse nextKey maxKey =>
    if maxKey < target then (false, fullExpanse nextKey maxKey)
    else (true, fullExpanse (if nextKey < target then target else nextKey) maxKey)

end LeafCursor

namespace Iter

variable {V : Type} [Inhabited V]

/-- Seek again from the innermost frame that covers the target and has a child for it
(`reseek_branch`), or from the root. -/
def climb (fl : Flavour) (top : Edge V) (target : ℕ) (leaf : LeafCursor V) :
    List (Frame V) → Except Fault (Iter V)
  | [] =>
    if Nullable.isNull top then .ok ⟨.empty, []⟩
    else (descendSeek fl DESCENT_FUEL top 8 0 target ⟨.empty, []⟩).bind (orAdvance .forward fl)
  | f :: rest =>
    if 8 ≤ f.level ∨ target / 256 ^ f.level = f.pre / 256 ^ f.level then
      match f.node.slotFrom (f.node.seekPos (digit target f.level)) with
      | none => climb fl top target leaf rest
      | some (d, c, pos) =>
        (descendSeek fl DESCENT_FUEL c (f.level - 1) (f.pre + d * 256 ^ (f.level - 1)) target
          ⟨leaf, { f with pos := pos } :: rest⟩).bind (orAdvance .forward fl)
    else climb fl top target leaf rest

/-- Move a forward walker to the first entry at or beyond `target`, from where it stands. -/
def seekForward (fl : Flavour) (top : Edge V) (target : ℕ) (it : Iter V) : Except Fault (Iter V) :=
  match it.leaf with
  | .rootLeaf cols idx =>
    let at' := lowerBound cols.keys target
    if cols.size ≤ at' then .ok ⟨.empty, it.stack⟩
    else if idx < at' then .ok ⟨.rootLeaf cols at', it.stack⟩
    else .ok it
  | .empty => .ok it
  | leaf =>
    match leaf.seekForward target with
    | (true, leaf) => .ok ⟨leaf, it.stack⟩
    | (false, leaf) => climb fl top target leaf it.stack

end Iter

/-- A walker with its front peeked; `top` is null over a root leaf. -/
structure RawCursor (V : Type) where
  raw : Iter V
  top : Edge V
  front : Option (ℕ × V)

namespace RawCursor

variable {V : Type} [Inhabited V]

def new (fl : Flavour) (raw : Iter V) (top : Edge V) : Except Fault (RawCursor V) :=
  (raw.next fl).map fun r => ⟨r.2, top, r.1⟩

def current (c : RawCursor V) : Option (ℕ × V) := c.front

def next (fl : Flavour) (c : RawCursor V) : Except Fault (Option (ℕ × V) × RawCursor V) :=
  (c.raw.next fl).map fun r => (c.front, { c with raw := r.2, front := r.1 })

def advanceTo (fl : Flavour) (c : RawCursor V) (target : ℕ) :
    Except Fault (Option (ℕ × V) × RawCursor V) :=
  match c.front with
  | none => .ok (none, c)
  | some x =>
    if target ≤ x.1 then .ok (c.front, c)
    else
      match c.raw.seekForward fl c.top target with
      | .error f => .error f
      | .ok raw => (raw.next fl).map fun r => (r.1, { c with raw := r.2, front := r.1 })

end RawCursor

end Expanse
