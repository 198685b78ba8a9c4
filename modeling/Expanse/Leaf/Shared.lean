import Expanse.Leaf.Edit

/-!
# Edits of a shared leaf

On a shared tree's paths a key area is accessed as the aligned words that cover it: a word inside the
area is one atomic of eight bytes, and the last, partial word is atomics of four, two and one bytes. An
edit loads the covering words into a local buffer of 32 words, works on their bytes, and stores the words
back. The values of a map leaf are moved as words, one at a time.
-/

namespace Expanse.Leaf.SharedKeys

open Arrays Packed

/-- Bytes of the key area of a leaf of `pop` keys. -/
def area (kb pop : ℕ) : ℕ := kb * capClass pop

/-- One piece of a tail of `t` bytes at `p`, of `n` bytes, when `t` has it. The pair is what has been
read and from how many bytes. -/
def loadPiece (buf : List ℕ) (p t n : ℕ) (vo : ℕ × ℕ) : Except Fault (ℕ × ℕ) :=
  if t &&& n ≠ 0 then do
    let x ← loadAtomic buf (p + vo.2) n
    return (vo.1 ||| x <<< (vo.2 * 8), vo.2 + n)
  else .ok vo

def tailLoad (buf : List ℕ) (p t : ℕ) : Except Fault ℕ := do
  let vo ← loadPiece buf p t 4 (0, 0)
  let vo ← loadPiece buf p t 2 vo
  let vo ← loadPiece buf p t 1 vo
  return vo.1

/-- The store of one piece. The pair is the memory and how many bytes of the tail are stored. -/
def storePiece (p t v n : ℕ) (bo : List ℕ × ℕ) : Except Fault (List ℕ × ℕ) :=
  if t &&& n ≠ 0 then do
    let buf ← storeAtomic bo.1 (p + bo.2) n (v >>> (bo.2 * 8))
    return (buf, bo.2 + n)
  else .ok bo

def tailStore (buf : List ℕ) (p t v : ℕ) : Except Fault (List ℕ) := do
  let bo ← storePiece p t v 4 (buf, 0)
  let bo ← storePiece p t v 2 bo
  let bo ← storePiece p t v 1 bo
  return bo.1

def freshLocal : List (Option ℕ) := List.replicate 32 none

def writeLocal (words : List (Option ℕ)) (i v : ℕ) : Except Fault (List (Option ℕ)) :=
  if i < words.length then .ok (words.set i (some v)) else .error .panic

/-- The bytes of the first `n` words. -/
def localBytes : List (Option ℕ) → ℕ → Except Fault (List ℕ)
  | _, 0 => .ok []
  | [], _ + 1 => .error .outOfBounds
  | none :: _, _ + 1 => .error .uninit
  | some v :: words, n + 1 => do
    let bytes ← localBytes words n
    return bytesLE 8 v ++ bytes

/-- Word `i` of the edited bytes. -/
def localWord (bytes : List ℕ) (i : ℕ) : ℕ := ofBytes (slice bytes (i * 8) 8)

/-- Loads `n` words of the area, from word `w` on, into their places after word `w0`. -/
def loadWords (buf : List ℕ) (keys w0 : ℕ) : ℕ → ℕ → List (Option ℕ) → Except Fault (List (Option ℕ))
  | 0, _, words => .ok words
  | n + 1, w, words => do
    let v ← loadAtomic buf (keys + w * 8) 8
    let words ← writeLocal words (w - w0) v
    loadWords buf keys w0 n (w + 1) words

/-- Stores `n` words back, from word `w` on. -/
def storeWords (bytes : List ℕ) (keys w0 : ℕ) : ℕ → ℕ → List ℕ → Except Fault (List ℕ)
  | 0, _, buf => .ok buf
  | n + 1, w, buf => do
    let buf ← storeAtomic buf (keys + w * 8) 8 (localWord bytes (w - w0))
    storeWords bytes keys w0 n (w + 1) buf

/-- Loads the partial word, if the covering words reach it. -/
def loadTail (buf : List ℕ) (keys w0 w1 area : ℕ) (words : List (Option ℕ)) :
    Except Fault (List (Option ℕ)) :=
  if area / 8 < w1 then do
    let v ← tailLoad buf (keys + area / 8 * 8) (area - area / 8 * 8)
    writeLocal words (area / 8 - w0) v
  else .ok words

def storeTail (bytes : List ℕ) (keys w0 w1 area : ℕ) (buf : List ℕ) : Except Fault (List ℕ) :=
  if area / 8 < w1 then
    tailStore buf (keys + area / 8 * 8) (area - area / 8 * 8) (localWord bytes (area / 8 - w0))
  else .ok buf

/-- Edits bytes `start .. stop - 1` of an area through its covering words. The edit is given their bytes and
the position of the first one. -/
def rewrite (buf : List ℕ) (keys start stop area : ℕ) (edit : List ℕ → ℕ → Except Fault (List ℕ)) :
    Except Fault (List ℕ) := do
  let w0 := start / 8
  let w1 := (stop + 7) / 8
  let last := min w1 (area / 8)
  let words ← loadWords buf keys w0 (last - w0) w0 freshLocal
  let words ← loadTail buf keys w0 w1 area words
  let bytes ← localBytes words (w1 - w0)
  let bytes ← edit bytes (w0 * 8)
  let buf ← storeWords bytes keys w0 (last - w0) w0 buf
  storeTail bytes keys w0 w1 area buf

/-- `copy_within` of a slice. -/
def sliceCopyWithin (b : List ℕ) (start stop dest : ℕ) : Except Fault (List ℕ) :=
  if start ≤ stop ∧ stop ≤ b.length ∧ dest + (stop - start) ≤ b.length then
    .ok (copyWithin b start stop dest)
  else .error .panic

def putKey (b : List ℕ) (pos kb key : ℕ) : Except Fault (List ℕ) :=
  if (1 ≤ kb ∧ kb ≤ 7) ∧ pos + kb ≤ b.length then .ok (overwrite b pos ((bytesLE 8 key).take kb))
  else .error .panic

def insertAt (buf : List ℕ) (keys kb pop pos key : ℕ) : Except Fault (List ℕ) :=
  rewrite buf keys (pos * kb) ((pop + 1) * kb) (area kb pop) fun b base => do
    let start := pos * kb - base
    let stop := (pop + 1) * kb - base
    let b ← sliceCopyWithin b start (stop - kb) (start + kb)
    putKey b start kb key

def removeAt (buf : List ℕ) (keys kb pop pos : ℕ) : Except Fault (List ℕ) :=
  if pop ≤ pos + 1 then .ok buf
  else
    rewrite buf keys (pos * kb) (pop * kb) (area kb pop) fun b base =>
      let start := pos * kb - base
      let stop := pop * kb - base
      sliceCopyWithin b (start + kb) stop start

/-- `shared_word::shift_up`: moves `n` words from word `at` on up by one, the highest first. -/
def shiftUp (buf : List ℕ) (base start : ℕ) : ℕ → Except Fault (List ℕ)
  | 0 => .ok buf
  | n + 1 => do
    let v ← loadAtomic buf (base + (start + n) * 8) 8
    let buf ← storeAtomic buf (base + (start + n + 1) * 8) 8 v
    shiftUp buf base start n

/-- `shared_word::shift_down`: moves `n` words from word `i + 1` on down by one, the lowest first. -/
def shiftDown (buf : List ℕ) (base : ℕ) : ℕ → ℕ → Except Fault (List ℕ)
  | 0, _ => .ok buf
  | n + 1, i => do
    let v ← loadAtomic buf (base + (i + 1) * 8) 8
    let buf ← storeAtomic buf (base + i * 8) 8 v
    shiftDown buf base n (i + 1)

def setInsertAt (buf : List ℕ) (base kb pop pos key : ℕ) : Except Fault (List ℕ) :=
  insertAt buf base kb pop pos key

def setRemoveAt (buf : List ℕ) (base kb pop pos : ℕ) : Except Fault (List ℕ) :=
  removeAt buf base kb pop pos

def mapInsertAt (buf : List ℕ) (base kb pop pos key val : ℕ) : Except Fault (List ℕ) := do
  let buf ← shiftUp buf base pos (pop - pos)
  let buf ← storeAtomic buf (base + pos * 8) 8 val
  insertAt buf (base + mapKeysOffset pop) kb pop pos key

def mapRemoveAt (buf : List ℕ) (base kb pop pos : ℕ) : Except Fault (List ℕ) := do
  let buf ← shiftDown buf base (pop - 1 - pos) pos
  removeAt buf (base + mapKeysOffset pop) kb pop pos

end Expanse.Leaf.SharedKeys
