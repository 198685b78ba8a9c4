import Expanse.Library.Ensures
import Expanse.Trie32.Arena

/-!
# Linear leaves of the 32-bit engine

A linear leaf is one byte buffer: the values, then the packed keys, both areas sized by the
capacity class of the population. A set's leaf has values of width zero. An edit inside the
class works in place; one that crosses it copies the areas into a fresh buffer. The shared
walk edits in place through whole words. The edits are functions on buffers here, followed
by the operations on the arena.
-/

namespace Expanse.Trie32

open Arrays Packed

/-- Bytes of a value: none in a set, a word in a map. -/
def valueWidth : Flavour → ℕ
  | .set => 0
  | .map => VALUE_SIZE

def keysOff (vw pop : ℕ) : ℕ := vw * capClass pop

/-- `size_set32` and `size_map32`. -/
def leafSize (vw kb pop : ℕ) : ℕ := vw * capClass pop + kb * capClass pop

/-- Store values and keys from number `i` on. -/
def fillLeaf (vw off kb : ℕ) : List ℕ → ℕ → List (ℕ × ℕ) → List ℕ
  | buf, _, [] => buf
  | buf, i, (k, v) :: rest =>
    fillLeaf vw off kb (writeRem off kb (writeRem 0 vw buf i v) i k) (i + 1) rest

/-- The buffer that `make_set_leaf` and `make_map_leaf` allocate. -/
def leafBytes (vw kb : ℕ) (l : List (ℕ × ℕ)) : List ℕ :=
  fillLeaf vw (keysOff vw l.length) kb (List.replicate (leafSize vw kb l.length) 0) 0 l

/-- `read_set_leaf` and `read_map_leaf`. -/
def readLeaf (vw kb pop : ℕ) (buf : List ℕ) : List (ℕ × ℕ) :=
  (List.range pop).map fun i => (readRem (keysOff vw pop) kb buf i, readRem 0 vw buf i)

/-- `leaf_lower_bound`: the binary search over `lo .. hi - 1`. -/
def leafLowerBoundLoop (off kb : ℕ) (buf : List ℕ) (needle : ℕ) : ℕ → ℕ → ℕ → ℕ
  | 0, lo, _ => lo
  | fuel + 1, lo, hi =>
    if lo < hi then
      let mid := (lo + hi) / 2
      if readRem off kb buf mid < needle then leafLowerBoundLoop off kb buf needle fuel (mid + 1) hi
      else leafLowerBoundLoop off kb buf needle fuel lo mid
    else lo

def leafLowerBound (off kb : ℕ) (buf : List ℕ) (pop needle : ℕ) : ℕ :=
  leafLowerBoundLoop off kb buf needle pop 0 pop

/-- `leaf_insert_pos`: past the last key at once, else by search. -/
def leafInsertPos (off kb : ℕ) (buf : List ℕ) (pop needle : ℕ) : ℕ :=
  if 0 < pop ∧ readRem off kb buf (pop - 1) < needle then pop
  else leafLowerBound off kb buf pop needle

def insertInPlace (vw kb pop pos rem val : ℕ) (buf : List ℕ) : List ℕ :=
  openGap (keysOff vw pop) kb pop pos rem (openGap 0 vw pop pos val buf)

def insertCopied (vw kb pop pos rem val : ℕ) (old : List ℕ) : List ℕ :=
  let buf := List.replicate (leafSize vw kb (pop + 1)) 0
  let buf := copyOpen 0 0 vw pop pos val old buf
  copyOpen (keysOff vw pop) (keysOff vw (pop + 1)) kb pop pos rem old buf

def removeInPlace (vw kb pop i₀ i₁ : ℕ) (buf : List ℕ) : List ℕ :=
  closeGap (keysOff vw pop) kb pop i₀ i₁ (closeGap 0 vw pop i₀ i₁ buf)

def removeCopied (vw kb pop i₀ i₁ : ℕ) (old : List ℕ) : List ℕ :=
  let newPop := pop - (i₁ - i₀)
  let buf := List.replicate (leafSize vw kb newPop) 0
  let buf := copyClose 0 0 vw pop i₀ i₁ old buf
  copyClose (keysOff vw pop) (keysOff vw newPop) kb pop i₀ i₁ old buf

def LEAF_KEYS_MAX : ℕ := 96

/-- `div_ceil(4)`. -/
def wordsUp (n : ℕ) : ℕ := (n + 3) / 4

/-- The words `w₀ .. w₁ - 1` of a leaf, edited in a local buffer of `LEAF_KEYS_MAX + 4` bytes and
stored back word by word. -/
def editWords (w₀ w₁ : ℕ) (edit : List ℕ → List ℕ) (buf : List ℕ) : Except Fault (List ℕ) :=
  if LEAF_KEYS_MAX + 4 < 4 * (w₁ - w₀) ∨ buf.length < 4 * w₁ then .error .outOfBounds
  else
    let loaded := slice buf (4 * w₀) (4 * (w₁ - w₀)) ++
      List.replicate (LEAF_KEYS_MAX + 4 - 4 * (w₁ - w₀)) 0
    .ok (overwrite buf (4 * w₀) ((edit loaded).take (4 * (w₁ - w₀))))

def leafKeysInsertShared (off kb pos pop rem : ℕ) (buf : List ℕ) : Except Fault (List ℕ) :=
  let start := off + pos * kb
  let stop := off + (pop + 1) * kb
  let base := 4 * (start / 4)
  editWords (start / 4) (wordsUp stop) (fun local_ =>
    overwrite (copyWithin local_ (start - base) (off + pop * kb - base) (start - base + kb))
      (start - base) (bytesLE kb rem)) buf

def leafKeysRemoveShared (off kb i₀ i₁ pop : ℕ) (buf : List ℕ) : Except Fault (List ℕ) :=
  let start := off + i₀ * kb
  let stop := off + pop * kb
  let base := 4 * (start / 4)
  let gap := (i₁ - i₀) * kb
  editWords (start / 4) (wordsUp stop) (fun local_ =>
    overwrite (copyWithin local_ (start - base + gap) (stop - base) (start - base))
      (stop - base - gap) (List.replicate gap 0)) buf

/-- Copy word `n - 1` to word `n`, then the one below it, down to word `i`. -/
def shiftWordsUp (i : ℕ) : ℕ → List ℕ → List ℕ
  | 0, buf => buf
  | n + 1, buf =>
    if i ≤ n then shiftWordsUp i n (overwrite buf (4 * (n + 1)) (slice buf (4 * n) 4)) else buf

/-- Copy word `i + gap` to word `i`, then the one above it, `n` times. -/
def shiftWordsDown (gap : ℕ) : ℕ → ℕ → List ℕ → List ℕ
  | 0, _, buf => buf
  | n + 1, i, buf => shiftWordsDown gap n (i + 1) (overwrite buf (4 * i) (slice buf (4 * (i + gap)) 4))

def leafValsInsertShared (pos pop val : ℕ) (buf : List ℕ) : List ℕ :=
  overwrite (shiftWordsUp pos pop buf) (4 * pos) (bytesLE 4 val)

def leafValsRemoveShared (i₀ i₁ pop : ℕ) (buf : List ℕ) : List ℕ :=
  shiftWordsDown (i₁ - i₀) (pop - (i₁ - i₀) - i₀) i₀ buf

def insertShared (fl : Flavour) (kb pop pos rem val : ℕ) (buf : List ℕ) : Except Fault (List ℕ) :=
  match fl with
  | .set => leafKeysInsertShared 0 kb pos pop rem buf
  | .map =>
    leafKeysInsertShared (VALUE_SIZE * capClass pop) kb pos pop rem
      (leafValsInsertShared pos pop val buf)

def removeShared (fl : Flavour) (kb pop i₀ i₁ : ℕ) (buf : List ℕ) : Except Fault (List ℕ) :=
  match fl with
  | .set => leafKeysRemoveShared 0 kb i₀ i₁ pop buf
  | .map =>
    leafKeysRemoveShared (VALUE_SIZE * capClass pop) kb i₀ i₁ pop (leafValsRemoveShared i₀ i₁ pop buf)

def leafEdge (fl : Flavour) (kb h pop : ℕ) : Edge32 :=
  match fl with
  | .set => .setLeaf kb h pop
  | .map => .mapLeaf kb h pop

/-- `make_set_leaf` and `make_map_leaf`. -/
def makeLeaf (fl : Flavour) (a : Arena) (kb : ℕ) (l : List (ℕ × ℕ)) : Except Fault (Edge32 × Arena) := do
  let (h, a) ← a.alloc (.leaf (leafBytes (valueWidth fl) kb l))
  pure (leafEdge fl kb h l.length, a)

/-- `set_leaf_insert_at` and `map_leaf_insert_at`. -/
def leafInsertAt (shared : Bool) (fl : Flavour) (a : Arena) (kb h pop pos rem val : ℕ) :
    Except Fault (Edge32 × Arena) := do
  let vw := valueWidth fl
  if capClass (pop + 1) = capClass pop then
    let buf ← a.leaf h (keysOff vw pop + (pop + 1) * kb)
    let buf ← if shared then insertShared fl kb pop pos rem val buf
      else pure (insertInPlace vw kb pop pos rem val buf)
    pure (leafEdge fl kb h (pop + 1), a.put h (.leaf buf))
  else
    let old ← a.leaf h (keysOff vw pop + pop * kb)
    let (nh, a) ← a.alloc (.leaf (insertCopied vw kb pop pos rem val old))
    let a ← a.freeNode h
    pure (leafEdge fl kb nh (pop + 1), a)

/-- `set_leaf_remove_span` and `map_leaf_remove_span`. -/
def leafRemoveSpan (shared : Bool) (fl : Flavour) (a : Arena) (kb h pop i₀ i₁ : ℕ) :
    Except Fault (Edge32 × Arena) := do
  let vw := valueWidth fl
  let newPop := pop - (i₁ - i₀)
  let buf ← a.leaf h (keysOff vw pop + pop * kb)
  if capClass newPop = capClass pop then
    let buf ← if shared then removeShared fl kb pop i₀ i₁ buf
      else pure (removeInPlace vw kb pop i₀ i₁ buf)
    pure (leafEdge fl kb h newPop, a.put h (.leaf buf))
  else
    let (nh, a) ← a.alloc (.leaf (removeCopied vw kb pop i₀ i₁ buf))
    let a ← a.freeNode h
    pure (leafEdge fl kb nh newPop, a)

/-- `set_leaf_remove_at` and `map_leaf_remove_at`. -/
def leafRemoveAt (shared : Bool) (fl : Flavour) (a : Arena) (kb h pop pos : ℕ) :
    Except Fault (Edge32 × Arena) := leafRemoveSpan shared fl a kb h pop pos (pos + 1)

/-- The value overwrite of a map leaf, one word in place in either walk. -/
def leafOverwrite (a : Arena) (h pos val : ℕ) : Except Fault Arena := do
  let buf ← a.leaf h (4 * pos + 4)
  pure (a.put h (.leaf (writeRem 0 VALUE_SIZE buf pos val)))

end Expanse.Trie32
