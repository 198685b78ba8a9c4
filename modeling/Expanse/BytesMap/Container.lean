import Mathlib.Data.Set.Card
import Mathlib.Logic.Function.Basic
import Expanse.Library.Boxes
import Expanse.Library.Bytes
import Expanse.Library.Ensures
import Expanse.Library.Runs
import Expanse.StrMap.WordMap

/-!
# `ExpanseBytesMap`: an unordered map from byte strings to words

The word map underneath takes the hash of a key to the address of a bucket. A bucket
lists the keys of one hash with their values; the key bytes are boxes of their own. A
bucket is replaced when a key comes or goes: its entries move into the new bucket, and
the old one is disposed of without its keys. Reading or freeing a box that is not live
is a fault.
-/

namespace Expanse.BytesMap

open StrMap (WordMap WORD)
open Runs

/-- One hash bucket: the box of each key, and its value. -/
abbrev Bucket : Type := List (ℕ × ℕ)

/-- Any hash function of 64 bits. -/
structure Hasher where
  hashOne : List Byte → ℕ
  lt_word : ∀ key, hashOne key < WORD

/-- `size_of::<(Box<[u8]>, u64)>()`. -/
def ENTRY_OVERHEAD : ℕ := 24

/-- `size_of::<Bucket>()`. -/
def BUCKET_OVERHEAD : ℕ := 24

structure ExpanseBytesMap (M : WordMap) where
  map : M.Map
  pop : ℕ
  extraBytes : ℕ
  buckets : Boxes Bucket
  keys : Boxes (List Byte)

/-- The address of a value word: a bucket and the index of the entry. -/
structure ValueSlot where
  word : ℕ
  index : ℕ

namespace ExpanseBytesMap

variable {M : WordMap} (H : Hasher) (P : Placing)

def new : ExpanseBytesMap M := ⟨M.new, 0, 0, .empty, .empty⟩

def len (s : ExpanseBytesMap M) : ℕ := s.pop

def memUsed (s : ExpanseBytesMap M) : ℕ := M.bytes s.map + s.extraBytes

def bucketAt (s : ExpanseBytesMap M) (word : ℕ) : Except Fault Bucket :=
  match s.buckets.find word with
  | some b => .ok b
  | none => .error .unreachable

/-- `iter().position(|(k, _)| &**k == key)`, from index `i` on. -/
def position (s : ExpanseBytesMap M) (key : List Byte) : Bucket → ℕ → Except Fault (Option ℕ)
  | [], _ => .ok none
  | (box, _) :: rest, i =>
    match s.keys.find box with
    | some k => if k = key then .ok (some i) else position s key rest (i + 1)
    | none => .error .unreachable

def disposeKey (s : ExpanseBytesMap M) (box : ℕ) : Except Fault (ExpanseBytesMap M) :=
  match s.keys.free box with
  | some keys => .ok { s with keys := keys }
  | none => .error .unreachable

/-- Free a bucket that is not published any more, with its keys if it still owns them. -/
def disposeBucket (s : ExpanseBytesMap M) (word : ℕ) (ownKeys : Bool) :
    Except Fault (ExpanseBytesMap M) := do
  let b ← s.bucketAt word
  let s ← if ownKeys then (b.map Prod.fst).foldlM disposeKey s else pure s
  match s.buckets.free word with
  | some buckets => .ok { s with buckets := buckets }
  | none => .error .unreachable

def readValue (s : ExpanseBytesMap M) (slot : ValueSlot) : Except Fault ℕ := do
  let b ← s.bucketAt slot.word
  match b[slot.index]? with
  | some e => .ok e.2
  | none => .error .indexOutOfBounds

def writeValue (s : ExpanseBytesMap M) (slot : ValueSlot) (val : ℕ) :
    Except Fault (ExpanseBytesMap M) := do
  let b ← s.bucketAt slot.word
  match b[slot.index]? with
  | some e =>
    match s.buckets.store slot.word (b.set slot.index (e.1, val)) with
    | some buckets => .ok { s with buckets := buckets }
    | none => .error .unreachable
  | none => .error .indexOutOfBounds

def bucketOf (s : ExpanseBytesMap M) (key : List Byte) : Option ℕ :=
  (M.get s.map (H.hashOne key)).bind fun word => if word = 0 then none else some word

def get (s : ExpanseBytesMap M) (key : List Byte) : Except Fault (Option ℕ) :=
  match s.bucketOf H key with
  | none => .ok none
  | some word => do
    let b ← s.bucketAt word
    match ← s.position key b 0 with
    | none => return none
    | some i =>
      let v ← s.readValue ⟨word, i⟩
      return some v

/-- The slot of `key`, inserted with `init` if it is absent, and the value it had. -/
def insertSlotInner (s : ExpanseBytesMap M) (key : List Byte) (init : ℕ) :
    Except Fault (ValueSlot × Option ℕ × ExpanseBytesMap M) := do
  let (slot, map) ← M.insSlot s.map (H.hashOne key)
  let word := (M.readSlot map slot).getD 0
  if word = 0 then
    -- a hash that had no bucket
    let (box, keys) := s.keys.alloc P key
    let (raw, buckets) := s.buckets.alloc P [(box, init)]
    return (⟨raw, 0⟩, none, ⟨M.writeSlot map slot raw, s.pop + 1,
      s.extraBytes + (BUCKET_OVERHEAD + key.length + ENTRY_OVERHEAD), buckets, keys⟩)
  else
    let s := { s with map := map }
    let old ← s.bucketAt word
    match ← s.position key old 0 with
    | some i =>
      let v ← s.readValue ⟨word, i⟩
      return (⟨word, i⟩, some v, s)
    | none =>
      -- a collision: the entries move into a replacement
      let (box, keys) := s.keys.alloc P key
      let (raw, buckets) := s.buckets.alloc P (old ++ [(box, init)])
      let s ← disposeBucket ⟨M.writeSlot map slot raw, s.pop, s.extraBytes, buckets, keys⟩ word false
      return (⟨raw, old.length⟩, none,
        { s with pop := s.pop + 1, extraBytes := s.extraBytes + (key.length + ENTRY_OVERHEAD) })

def insSlot (s : ExpanseBytesMap M) (key : List Byte) :
    Except Fault (ValueSlot × ExpanseBytesMap M) := do
  let (slot, _, s) ← s.insertSlotInner H P key 0
  return (slot, s)

def insert (s : ExpanseBytesMap M) (key : List Byte) (val : ℕ) :
    Except Fault (Option ℕ × ExpanseBytesMap M) := do
  let (slot, prev, s) ← s.insertSlotInner H P key val
  if prev.isSome then
    let s ← s.writeValue slot val
    return (prev, s)
  else return (prev, s)

/-- `remove_impl`. -/
def remove (s : ExpanseBytesMap M) (key : List Byte) :
    Except Fault (Option ℕ × ExpanseBytesMap M) :=
  match M.get s.map (H.hashOne key) with
  | none => .ok (none, s)
  | some word => do
    let b ← s.bucketAt word
    match ← s.position key b 0 with
    | none => return (none, s)
    | some i =>
      let val ← s.readValue ⟨word, i⟩
      if b.length = 1 then
        let (_, map) ← M.remove s.map (H.hashOne key)
        let s ← disposeBucket { s with map := map } word true
        return (some val, { s with
          pop := s.pop - 1
          extraBytes := s.extraBytes - BUCKET_OVERHEAD - (key.length + ENTRY_OVERHEAD) })
      else
        let (raw, buckets) := s.buckets.alloc P (b.eraseIdx i)
        let (prev, map) ← M.insert s.map (H.hashOne key) raw
        -- `debug_assert_eq!(prev, Some(word))`
        if prev = some word then
          let s ← disposeBucket { s with map := map, buckets := buckets } word false
          let s ← s.disposeKey ((b.map Prod.fst).getD i 0)
          return (some val, { s with
            pop := s.pop - 1
            extraBytes := s.extraBytes - (key.length + ENTRY_OVERHEAD) })
        else .error .unreachable

def update (s : ExpanseBytesMap M) (key : List Byte) (f : Option ℕ → Option ℕ) :
    Except Fault (Option ℕ × ExpanseBytesMap M) := do
  let old ← s.get H key
  match f old with
  | some v =>
    let (_, s) ← s.insert H P key v
    return (old, s)
  | none =>
    if old.isSome then
      let (_, s) ← s.remove H P key
      return (old, s)
    else return (old, s)

/-- `clear_entries`: empty the word map, then dispose of every bucket it had. -/
def clear (s : ExpanseBytesMap M) : Except Fault (ExpanseBytesMap M) := do
  let words := (M.iter s.map).map Prod.snd
  let s ← words.foldlM (fun s word => disposeBucket s word true) { s with map := M.new }
  return { s with pop := 0, extraBytes := 0 }

inductive Op where
  | insert (key : List Byte) (val : ℕ)
  | insSlot (key : List Byte) (val : ℕ)
  | get (key : List Byte)
  | remove (key : List Byte)
  | update (key : List Byte) (f : Option ℕ → Option ℕ)
  | clear
  | len

inductive Out where
  | value (v : Option ℕ)
  | slot (v : ℕ)
  | count (n : ℕ)
  | unit
deriving DecidableEq

/-- One call. `ins_slot` is followed by a store through the slot; it answers with the value that was
there before the store. -/
def step (s : ExpanseBytesMap M) : Op → Except Fault (Out × ExpanseBytesMap M)
  | .insert key val => do
    let (old, s) ← s.insert H P key val
    return (.value old, s)
  | .insSlot key val => do
    let (slot, s) ← s.insSlot H P key
    let before ← s.readValue slot
    let s ← s.writeValue slot val
    return (.slot before, s)
  | .get key => do
    let v ← s.get H key
    return (.value v, s)
  | .remove key => do
    let (old, s) ← s.remove H P key
    return (.value old, s)
  | .update key f => do
    let (old, s) ← s.update H P key f
    return (.value old, s)
  | .clear => do
    let s ← s.clear
    return (.unit, s)
  | .len => return (.count s.len, s)

end ExpanseBytesMap

noncomputable def refStep (m : List Byte → Option ℕ) :
    ExpanseBytesMap.Op → ExpanseBytesMap.Out × (List Byte → Option ℕ)
  | .insert key val => (.value (m key), Function.update m key (some val))
  | .insSlot key val => (.slot ((m key).getD 0), Function.update m key (some val))
  | .get key => (.value (m key), m)
  | .remove key => (.value (m key), Function.update m key none)
  | .update key f => (.value (m key), Function.update m key (f (m key)))
  | .clear => (.unit, fun _ => none)
  | .len => (.count {k | (m k).isSome}.ncard, m)

end Expanse.BytesMap
