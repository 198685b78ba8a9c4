import Expanse.Blob32.Slot
import Expanse.Trie32.MapRuns

/-!
# `ExpanseBlobMap32`: byte strings and metadata under 32-bit keys

The index takes a key to its slot word. A value that its word cannot hold is a record of the slab;
a record that goes away leaves its number on a freelist.
-/

namespace Expanse

namespace Trie32.ExpanseMap32

/-- The callback runs on the entries of a range that the predicate takes. -/
def scanFiltered {σ : Type} (m : ExpanseMap32) (start stop : ℕ) (pred : σ → ℕ × ℕ → Bool × σ)
    (cb : σ → ℕ × ℕ → σ) (s : σ) : Except Fault σ :=
  (m.tryForEachRange start stop (fun s x =>
    match pred s x with
    | (true, s) => (true, cb s x)
    | (false, s) => (true, s)) s).map Prod.snd

end Trie32.ExpanseMap32

namespace Blob32

open Bytes SortedAssoc Runs
open Trie32 (ExpanseMap32)
open ValueSlot32

inductive BlobMap32Error where
  | offsetOverflow
  | metaOverflow
deriving DecidableEq

inductive BlobView32 where
  | inline (payload : List Byte) (len : ℕ)
  | arena (bytes : List Byte)

def BlobView32.asBytes : BlobView32 → List Byte
  | inline payload len => payload.take len
  | arena bytes => bytes

/-- The freelist has the number freed last at its head. -/
structure ExpanseBlobMap32 where
  index : ExpanseMap32
  arena : List (Option (List Byte))
  freelist : List ℕ

namespace ExpanseBlobMap32

def new : ExpanseBlobMap32 := ⟨ExpanseMap32.new, [], []⟩

def allocArenaSlot (m : ExpanseBlobMap32) (data : List Byte) :
    Except Trie32.Fault (Except BlobMap32Error ℕ × ExpanseBlobMap32) :=
  match m.freelist with
  | i :: rest =>
    if i < m.arena.length then .ok (.ok i, { m with arena := m.arena.set i (some data), freelist := rest })
    else .error .outOfBounds
  | [] =>
    if 0x0FFF < m.arena.length then .ok (.error .offsetOverflow, m)
    else .ok (.ok m.arena.length, { m with arena := m.arena ++ [some data] })

def names (m : ExpanseBlobMap32) (raw : ℕ) : Bool := tag raw = .arena && slabOffset raw < m.arena.length

/-- Where the record of a key goes: over its old one, if it has one. -/
def placeRecord (m : ExpanseBlobMap32) (data : List Byte) (old : Option ℕ) :
    Except Trie32.Fault (Except BlobMap32Error ℕ × ExpanseBlobMap32) :=
  match old with
  | none => m.allocArenaSlot data
  | some raw =>
    if m.names raw then
      .ok (.ok (slabOffset raw), { m with arena := m.arena.set (slabOffset raw) (some data) })
    else m.allocArenaSlot data

/-- Give back the record of a word that has left the index. -/
def release (m : ExpanseBlobMap32) (raw : ℕ) : ExpanseBlobMap32 :=
  if m.names raw then
    { m with arena := m.arena.set (slabOffset raw) none, freelist := slabOffset raw :: m.freelist }
  else m

def insert (m : ExpanseBlobMap32) (key : ℕ) (data : List Byte) (hot : ℕ) :
    Except Trie32.Fault (Except BlobMap32Error Unit × ExpanseBlobMap32) :=
  if 0x0FFF < hot then .ok (.error .metaOverflow, m)
  else if data.length ≤ 3 ∧ hot = 0 then
    match newInline data with
    | none => .error .assertion
    | some slot => do
      let (old, index) ← m.index.insert key slot
      pure (.ok (), old.elim { m with index } { m with index }.release)
  else do
    let old ← m.index.get key
    let (placed, m) ← m.placeRecord data old
    match placed with
    | .error e => pure (.error e, m)
    | .ok offset =>
      match newArena hot offset with
      | none => pure (.error .offsetOverflow, m)
      | some slot => do
        let (_, index) ← m.index.insert key slot
        pure (.ok (), { m with index })

def view (m : ExpanseBlobMap32) (raw : ℕ) : Option (BlobView32 × ℕ) :=
  match tag raw with
  | .arena =>
    match m.arena[slabOffset raw]? with
    | some (some bytes) => some (.arena bytes, hotMeta raw)
    | _ => none
  | .rawWord => none
  | _ => some (.inline (inlinePayload raw).1 (inlinePayload raw).2, 0)

def get (m : ExpanseBlobMap32) (key : ℕ) : Except Trie32.Fault (Option (BlobView32 × ℕ)) :=
  (m.index.get key).map fun raw => raw.bind m.view

def remove (m : ExpanseBlobMap32) (key : ℕ) : Except Trie32.Fault (Bool × ExpanseBlobMap32) := do
  let (old, index) ← m.index.remove key
  match old with
  | some raw => pure (true, { m with index }.release raw)
  | none => pure (false, { m with index })

def len (m : ExpanseBlobMap32) : ℕ := m.index.len

/-- The predicate sees the metadata before the payload is fetched. -/
def scanFiltered {σ : Type} (m : ExpanseBlobMap32) (start stop : ℕ) (pred : σ → ℕ × ℕ → Bool × σ)
    (cb : σ → ℕ × BlobView32 × ℕ → σ) (s : σ) : Except Trie32.Fault σ :=
  m.index.scanFiltered start stop (fun s x => pred s (x.1, if tag x.2 = .arena then hotMeta x.2 else 0))
    (fun s x => (m.view x.2).elim s fun v => cb s (x.1, v)) s

/-- What a caller can ask. -/
inductive Op where
  | insert (key : UInt32) (data : List Byte) (hot : UInt16)
  | get (key : UInt32)
  | remove (key : UInt32)
  | len
  | scanFiltered (start stop : UInt32) (pred : List (ℕ × (List Byte × ℕ)) → ℕ × ℕ →
      Bool × List (ℕ × (List Byte × ℕ)))
    (cb : List (ℕ × (List Byte × ℕ)) → ℕ × (List Byte × ℕ) → List (ℕ × (List Byte × ℕ)))

inductive Out where
  | stored (r : Except BlobMap32Error Unit)
  | found (v : Option (List Byte × ℕ))
  | gone (b : Bool)
  | count (n : ℕ)
  | seen (l : List (ℕ × (List Byte × ℕ)))

def shown (v : BlobView32 × ℕ) : List Byte × ℕ := (v.1.asBytes, v.2)

def step (m : ExpanseBlobMap32) : Op → Except Trie32.Fault (Out × ExpanseBlobMap32)
  | .insert key data hot => (m.insert key.toNat data hot.toNat).map fun r => (.stored r.1, r.2)
  | .get key => (m.get key.toNat).map fun v => (.found (v.map shown), m)
  | .remove key => (m.remove key.toNat).map fun r => (.gone r.1, r.2)
  | .len => .ok (.count m.len, m)
  | .scanFiltered start stop pred cb =>
    (m.scanFiltered start.toNat stop.toNat pred (fun s x => cb s (x.1, shown x.2)) []).map fun s => (.seen s, m)

/-- A value that its slot word holds. -/
def small (v : List Byte × ℕ) : Bool := v.1.length ≤ 3 && v.2 = 0

def records (l : List (ℕ × (List Byte × ℕ))) : ℕ := l.countP fun x => !small x.2

/-- An insertion is refused if its metadata does not fit, or if its value needs a record, its key has none,
and all 4096 are in use. -/
def refInsert (l : List (ℕ × (List Byte × ℕ))) (key : ℕ) (v : List Byte × ℕ) :
    Except BlobMap32Error Unit × List (ℕ × (List Byte × ℕ)) :=
  if 0x0FFF < v.2 then (.error .metaOverflow, l)
  else if small v = false ∧ (l.lookup key).all small ∧ records l = 0x1000 then (.error .offsetOverflow, l)
  else (.ok (), put key v l)

/-- The callback runs on the entries whose metadata the predicate takes. -/
def refScan {σ : Type} (pred : σ → ℕ × ℕ → Bool × σ) (cb : σ → ℕ × (List Byte × ℕ) → σ) (s : σ)
    (x : ℕ × (List Byte × ℕ)) : σ :=
  match pred s (x.1, x.2.2) with
  | (true, s) => cb s x
  | (false, s) => s

def refStep (l : List (ℕ × (List Byte × ℕ))) : Op → Out × List (ℕ × (List Byte × ℕ))
  | .insert key data hot =>
    (.stored (refInsert l key.toNat (data, hot.toNat)).1, (refInsert l key.toNat (data, hot.toNat)).2)
  | .get key => (.found (l.lookup key.toNat), l)
  | .remove key => (.gone (l.lookup key.toNat).isSome, del key.toNat l)
  | .len => (.count l.length, l)
  | .scanFiltered start stop pred cb =>
    (.seen ((between start.toNat stop.toNat l).foldl (refScan pred cb) []), l)

end ExpanseBlobMap32

end Blob32

end Expanse
