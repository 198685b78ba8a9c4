import Expanse.Domain.Buffers
import Expanse.StrMap.WalkSpec

/-!
# `ExpanseOrderedBytesMap` and its cursor

The map is a string map whose keys are the escape codes of arbitrary byte strings; every
path of `with_encoded_key` and of `insert` hands it that code. The cursor steps the string
map's cursor and then decodes the key, into a new vector or into the caller's buffer.
-/

namespace Expanse.OrderedBytes

open Domain StrMap BigEndian Runs

def toStr (l : List Byte) : List ℕ := l.map Fin.val

def ofStr (l : List ℕ) : List Byte := l.map (Fin.ofNat 256)

theorem ofStr_toStr (l : List Byte) : ofStr (toStr l) = l := by
  induction l with
  | nil => rfl
  | cons b l ih =>
    rw [toStr, List.map_cons, ofStr, List.map_cons, Fin.ofNat_val_eq_self]
    exact congrArg (b :: ·) ih

theorem nulFree_encoded (key : List Byte) : NulFree (toStr (escapeEncode key)) := by
  intro b hb
  obtain ⟨x, hx, rfl⟩ := List.mem_map.mp hb
  refine ⟨Nat.pos_of_ne_zero fun h => ?_, x.isLt⟩
  have hzero : x = 0 := Fin.ext h
  exact zero_not_mem_escapeEncode key (hzero ▸ hx)

/-- The view of a key that the string map is called with. -/
def encoded (key : List Byte) : NulFreeStr := ⟨toStr (escapeEncode key), nulFree_encoded key⟩

structure ExpanseOrderedBytesMap (M : WordMap) where
  inner : ExpanseStrMap M

namespace ExpanseOrderedBytesMap

variable {M : WordMap} (P : Placement) (m : ExpanseOrderedBytesMap M)

def new : ExpanseOrderedBytesMap M := ⟨.new⟩

def insert (key : List Byte) (val : ℕ) : Except Fault (Option ℕ × ExpanseOrderedBytesMap M) := do
  let (old, inner) ← m.inner.insert P (encoded key) val
  return (old, ⟨inner⟩)

def remove (key : List Byte) : Except Fault (Option ℕ × ExpanseOrderedBytesMap M) := do
  let (old, inner) ← m.inner.remove (encoded key)
  return (old, ⟨inner⟩)

/-- `ins_slot`, and a store of `val` through the slot. -/
def insSlot (key : List Byte) (val : ℕ) : Except Fault (ExpanseOrderedBytesMap M) := do
  let (slot, inner) ← m.inner.insSlot P (encoded key)
  let inner ← inner.writeSlot slot val
  return ⟨inner⟩

def clear : Except Fault (ExpanseOrderedBytesMap M) := do
  let (_, inner) ← m.inner.clear
  return ⟨inner⟩

/-- The calls that change a map. -/
inductive Op where
  | insert (key : List Byte) (val : ℕ)
  | insSlot (key : List Byte) (val : ℕ)
  | remove (key : List Byte)
  | clear

def step : Op → Except Fault (Unit × ExpanseOrderedBytesMap M)
  | .insert key val => do return ((), (← m.insert P key val).2)
  | .insSlot key val => do return ((), ← m.insSlot P key val)
  | .remove key => do return ((), (← m.remove key).2)
  | .clear => do return ((), ← m.clear)

def cursor : Walk M := m.inner.cursor

def cursorAtOrAfter (key : List Byte) : Except Fault (Walk M) :=
  m.inner.cursorAtOrAfter (encoded key)

/-- A cursor from the smallest entry, or from the smallest one at or after a key. -/
def cursorFrom : Option (List Byte) → Except Fault (Walk M)
  | none => .ok m.cursor
  | some key => m.cursorAtOrAfter key

/-- A read through a value slot the cursor has handed out. -/
def read (slot : ValueSlot M) : Except Fault ℕ :=
  match m.inner.alloc.readSlot slot with
  | some val => .ok val
  | none => .error .unreachable

/-- `expect` on a stored key that must decode. -/
def decodeStored (escaped : List ℕ) : Except Fault (List Byte) :=
  match escapeDecode (ofStr escaped) with
  | .ok key => .ok key
  | .error _ => .error .unreachable

def nextOwned (w : Walk M) : Except Fault (Option (List Byte × ℕ) × Walk M) := do
  let (entry, w) ← Walk.next m.inner false w
  match entry with
  | none => return (none, w)
  | some (escaped, slot) => do
    let val ← m.read slot
    let key ← decodeStored escaped
    return (some (key, val), w)

/-- The result and the buffer; the cursor has stepped before the key is decoded. -/
def nextDecodeInto (w : Walk M) (buf : List Byte) :
    Except Fault ((Except EscapeDecodeError (Option (ℕ × ValueSlot M)) × List Byte) × Walk M) := do
  let (entry, w) ← Walk.next m.inner false w
  match entry with
  | none => return ((.ok none, buf), w)
  | some (escaped, slot) =>
    match escapeDecodeInto (ofStr escaped) buf with
    | (.ok len, buf) => return ((.ok (some (len, slot)), buf), w)
    | (.error e, buf) => return ((.error e, buf), w)

def nextEntryDecodeInto (w : Walk M) (buf : List Byte) :
    Except Fault ((Except EscapeDecodeError (Option (ℕ × ℕ)) × List Byte) × Walk M) := do
  let (entry, w) ← Walk.next m.inner false w
  match entry with
  | none => return ((.ok none, buf), w)
  | some (escaped, slot) =>
    match escapeDecodeInto (ofStr escaped) buf with
    | (.ok len, buf) => do
      let val ← m.read slot
      return ((.ok (some (len, val)), buf), w)
    | (.error e, buf) => return ((.error e, buf), w)

end ExpanseOrderedBytesMap

/-- The calls on a cursor, with the caller's buffer. -/
inductive CursorCall where
  | nextOwned
  | nextDecodeInto (buf : List Byte)
  | nextEntryDecodeInto (buf : List Byte)

/-- What the caller has after a call: the end, an entry, or an error. -/
inductive Answer where
  | done
  | entry (key : List Byte) (val : ℕ)
  | failed (e : EscapeDecodeError)
deriving DecidableEq

/-- One call. After `next_decode_into` the caller reads the value through the slot. -/
def ExpanseOrderedBytesMap.cursorStep {M : WordMap} (m : ExpanseOrderedBytesMap M) (w : Walk M) :
    CursorCall → Except Fault (Answer × Walk M)
  | .nextOwned => do
    let (entry, w) ← m.nextOwned w
    match entry with
    | none => return (.done, w)
    | some (key, val) => return (.entry key val, w)
  | .nextDecodeInto buf => do
    let ((r, buf), w) ← m.nextDecodeInto w buf
    match r with
    | .error e => return (.failed e, w)
    | .ok none => return (.done, w)
    | .ok (some (len, slot)) => return (.entry (buf.take len) (← m.read slot), w)
  | .nextEntryDecodeInto buf => do
    let ((r, buf), w) ← m.nextEntryDecodeInto w buf
    match r with
    | .error e => return (.failed e, w)
    | .ok none => return (.done, w)
    | .ok (some (len, val)) => return (.entry (buf.take len) val, w)

def Answer.yield : Answer → Option (List Byte × ℕ)
  | .entry key val => some (key, val)
  | _ => none

def yielded (answers : List Answer) : List (List Byte × ℕ) := answers.filterMap Answer.yield

def CursorCall.Fits : CursorCall → List Byte → Prop
  | .nextOwned, _ => True
  | .nextDecodeInto buf, key => key.length ≤ buf.length
  | .nextEntryDecodeInto buf, key => key.length ≤ buf.length

/-- A map from byte strings to words, one call at a time. -/
def refStep (m : List Byte → Option ℕ) : ExpanseOrderedBytesMap.Op → Unit × (List Byte → Option ℕ)
  | .insert key val => ((), Function.update m key (some val))
  | .insSlot key val => ((), Function.update m key (some val))
  | .remove key => ((), Function.update m key none)
  | .clear => ((), fun _ => none)

end Expanse.OrderedBytes
