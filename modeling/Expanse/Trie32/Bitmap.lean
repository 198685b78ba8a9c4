import Expanse.Library.BitFields
import Expanse.Library.Ensures
import Expanse.Trie32.Arena

/-!
# Bitmap leaves and subarrays of the 32-bit engine

A bitmap node keeps the items of each 32 digits in a subarray of its own, in digit order,
allocated at the capacity class of its population; the spare slots hold a filler. The
plain walk reads ranks and populations off the 64-bit word that covers a digit and moves
a tail as one block; the shared walk takes the 32-bit half and moves item by item. Both
are one definition here, with a flag.
-/

namespace Expanse.Trie32

open Arrays Bitmap

variable {α : Type}

def bitmapSubRank (word digit : ℕ) : ℕ :=
  popcount (word &&& ((2 ^ (digit % 64) - 1) &&& (2 ^ 64 - 2 ^ (32 * (digit / 32 % 2)))))

def bitmapSubPop (word digit : ℕ) : ℕ := popcount (field word 32 (digit / 32 % 2))

/-- The word, or the half of it, that a walk loads for a digit. -/
def wordWidth (shared : Bool) : ℕ := if shared then 32 else 64

def bitmapWord (shared : Bool) (bits digit : ℕ) : ℕ :=
  field bits (wordWidth shared) (digit / wordWidth shared)

def digitRank (shared : Bool) (bits digit : ℕ) : ℕ :=
  if shared then popcount (bitmapWord true bits digit &&& (2 ^ (digit % 32) - 1))
  else bitmapSubRank (bitmapWord false bits digit) digit

def digitPop (shared : Bool) (bits digit : ℕ) : ℕ :=
  if shared then popcount (bitmapWord true bits digit)
  else bitmapSubPop (bitmapWord false bits digit) digit

def setDigit (shared : Bool) (bits digit : ℕ) : ℕ :=
  storeField bits (wordWidth shared) (digit / wordWidth shared)
    (bitmapWord shared bits digit ||| 2 ^ (digit % wordWidth shared))

def clearDigit (shared : Bool) (bits digit : ℕ) : ℕ :=
  storeField bits (wordWidth shared) (digit / wordWidth shared)
    (clear (bitmapWord shared bits digit) (digit % wordWidth shared))

def testDigit (shared : Bool) (bits digit : ℕ) : Bool :=
  (bitmapWord shared bits digit).testBit (digit % wordWidth shared)

/-- `Vec::resize`. -/
def resize (n : ℕ) (x : α) (l : List α) : List α := l.take n ++ List.replicate (n - l.length) x

/-- `subarray_insert`, with the length of the allocation that it replaced. -/
def subarrayInsert (shared : Bool) (slot : Sub α) (pop rank : ℕ) (val filler : α) :
    Except Fault (Sub α × Option ℕ) :=
  match slot with
  | some existing =>
    if existing.length = capClass pop ∧ rank ≤ pop then
      if existing.length = capClass (pop + 1) then
        if shared then .ok (some ((shiftUp rank pop existing).set rank val), none)
        else .ok (some ((copyWithin existing rank pop (rank + 1)).set rank val), none)
      else
        .ok (some (resize (capClass (pop + 1)) filler
          (existing.take rank ++ val :: slice existing rank (pop - rank))), some existing.length)
    else .error .assertion
  | none =>
    if rank ≤ pop then .ok (some (resize (capClass (pop + 1)) filler [val]), none)
    else .error .assertion

/-- `subarray_remove`. -/
def subarrayRemove (shared : Bool) (slot : Sub α) (pop rank : ℕ) (filler : α) :
    Except Fault (Sub α × Option ℕ) :=
  if rank < pop then
    if pop - 1 = 0 then .ok (none, slot.map List.length)
    else
      match slot with
      | some existing =>
        if existing.length = capClass pop then
          if existing.length = capClass (pop - 1) then
            if shared then .ok (some ((shiftDown 1 (pop - 1 - rank) rank existing).set (pop - 1) filler), none)
            else .ok (some ((copyWithin existing (rank + 1) pop rank).set (pop - 1) filler), none)
          else
            .ok (some (resize (capClass (pop - 1)) filler
              (existing.take rank ++ slice existing (rank + 1) (pop - (rank + 1)))), some existing.length)
        else .error .assertion
      | none => .error .deadSubarray
  else .error .assertion

/-- `subarray_bytes_delta`, for items of `size` bytes. -/
def subarrayBytesDelta (size oldPop newPop : ℕ) : ℤ :=
  ((capClass newPop : ℤ) - capClass oldPop) * size

/-- The item of rank `rank` of a live subarray. -/
def subItem (slot : Sub α) (rank : ℕ) : Except Fault α :=
  match slot with
  | some s =>
    match s[rank]? with
    | some x => .ok x
    | none => .error .outOfBounds
  | none => .error .deadSubarray

/-- The subarrays that `make_map_bitmap` and `make_b` build: for each 32 digits, their items in order. -/
def row (l : List (ℕ × α)) (i : ℕ) : List α := (l.filter fun e => e.1 / 32 = i).map Prod.snd

def packSub (filler : α) (items : List α) : Sub α :=
  if items = [] then none else some (resize (capClass items.length) filler items)

def subsOf (filler : α) (l : List (ℕ × α)) : List (Sub α) :=
  (List.range 8).map fun i => packSub filler (row l i)

def bitsOf (keys : List ℕ) : ℕ := keys.foldl Bitmap.set 0

/-- `LeafBitmap1_32::set`, and `set_bitmap_edit_shared` that sets. -/
def setBitmapInsert (shared : Bool) (b : SetBitmap) (digit : ℕ) : Bool × SetBitmap :=
  if testDigit shared b.bits digit then (false, b)
  else (true, ⟨setDigit shared b.bits digit, b.pop0 + 1⟩)

/-- `LeafBitmap1_32::unset`, and `set_bitmap_edit_shared` that clears. -/
def setBitmapRemove (shared : Bool) (b : SetBitmap) (digit : ℕ) : Bool × SetBitmap :=
  if testDigit shared b.bits digit then (true, ⟨clearDigit shared b.bits digit, b.pop0 - 1⟩)
  else (false, b)

/-- `bitmap_from_keys`. -/
def bitmapFromKeys (l : List (ℕ × ℕ)) : SetBitmap :=
  l.foldl (fun b e => (setBitmapInsert false b e.1).2) ⟨0, 0⟩

/-- `make_map_bitmap`. -/
def mapBitmapOf (l : List (ℕ × ℕ)) : MapBitmap :=
  ⟨bitsOf (l.map Prod.fst), l.length - 1, subsOf 0 l⟩

/-- What an edit of a map bitmap leaf leaves to account for: the bytes of the subarray it replaced, and
the change of the leaf's own bytes. -/
structure SubEdit where
  retired : Option ℕ
  delta : ℤ

/-- The map bitmap arm of `map_insert_f_mode`, and `map_bitmap_insert_shared`. A present digit is
found through the 64-bit word in both walks. -/
def mapBitmapInsert (shared : Bool) (b : MapBitmap) (digit val : ℕ) :
    Except Fault (Option ℕ × MapBitmap × SubEdit) := do
  let sub := digit / 32
  let slot := b.subs.getD sub none
  if testDigit false b.bits digit then
    let rank := digitRank false b.bits digit
    let old ← subItem slot rank
    pure (some old, { b with subs := b.subs.set sub (slot.map (·.set rank val)) }, ⟨none, 0⟩)
  else
    let pop := digitPop shared b.bits digit
    let (new, retired) ← subarrayInsert shared slot pop (digitRank shared b.bits digit) val 0
    pure (none, ⟨setDigit shared b.bits digit, b.pop0 + 1, b.subs.set sub new⟩,
      ⟨retired.map (· * VALUE_SIZE), subarrayBytesDelta VALUE_SIZE pop (pop + 1)⟩)

/-- The map bitmap arm of `map_remove_mode`, and `map_bitmap_remove_shared`: the value removed with the
`pop0` before the removal. -/
def mapBitmapRemove (shared : Bool) (b : MapBitmap) (digit : ℕ) :
    Except Fault (Option (ℕ × ℕ) × MapBitmap × SubEdit) := do
  let sub := digit / 32
  let slot := b.subs.getD sub none
  if testDigit shared b.bits digit then
    let rank := digitRank shared b.bits digit
    let pop := digitPop shared b.bits digit
    let old ← subItem slot rank
    let (new, retired) ← subarrayRemove shared slot pop rank 0
    pure (some (old, b.pop0),
      ⟨clearDigit shared b.bits digit, if 0 < b.pop0 then b.pop0 - 1 else b.pop0, b.subs.set sub new⟩,
      ⟨retired.map (· * VALUE_SIZE), subarrayBytesDelta VALUE_SIZE pop (pop - 1)⟩)
  else pure (none, b, ⟨none, 0⟩)

/-- The map bitmap arm of `map_get`. -/
def mapBitmapGet (b : MapBitmap) (digit : ℕ) : Except Fault (Option ℕ) :=
  if testDigit false b.bits digit then
    match b.subs.getD (digit / 32) none with
    | some s =>
      match s[digitRank false b.bits digit]? with
      | some v => .ok (some v)
      | none => .error .outOfBounds
    | none => .ok none
  else .ok none

/-- `bitmap_keys`, the set's entries. -/
def bitmapKeys (b : SetBitmap) : List (ℕ × ℕ) := (digits b.bits).map fun d => (d, 0)

/-- `read_map_bitmap`. -/
def readMapBitmap (b : MapBitmap) : Except Fault (List (ℕ × ℕ)) :=
  (digits b.bits).mapM fun d => do
    let v ← subItem (b.subs.getD (d / 32) none) (digitRank false b.bits d)
    pure (d, v)

/-- Store an edited node, park what it replaced and account for the change. -/
def commitSub (a : Arena) (h : ℕ) (n : Node) (edit : SubEdit) : Except Fault Arena := do
  let a ← (a.put h n).retireSub edit.retired
  pure (a.addBytes edit.delta)

def mapBitmapInsertAt (shared : Bool) (a : Arena) (h digit val : ℕ) : Except Fault (Option ℕ × Arena) := do
  let b ← a.mapBitmap h
  let (old, b, edit) ← mapBitmapInsert shared b digit val
  let a ← commitSub a h (.mapBitmap b) edit
  pure (old, a)

def mapBitmapRemoveAt (shared : Bool) (a : Arena) (h digit : ℕ) :
    Except Fault (Option (ℕ × ℕ) × Arena) := do
  let b ← a.mapBitmap h
  let (old, b, edit) ← mapBitmapRemove shared b digit
  let a ← commitSub a h (.mapBitmap b) edit
  pure (old, a)

def setBitmapInsertAt (shared : Bool) (a : Arena) (h digit : ℕ) : Except Fault (Bool × Arena) := do
  let b ← a.bitmap h
  let (inserted, b) := setBitmapInsert shared b digit
  pure (inserted, a.put h (.bitmap b))

def setBitmapRemoveAt (shared : Bool) (a : Arena) (h digit : ℕ) : Except Fault (Bool × Arena) := do
  let b ← a.bitmap h
  let (removed, b) := setBitmapRemove shared b digit
  pure (removed, a.put h (.bitmap b))

end Expanse.Trie32
