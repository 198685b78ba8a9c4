import Expanse.StrMap.Neighbours

/-!
# Cursors over a string map

A cursor keeps the path to the entry it emitted last, one frame per level. It advances the
deepest level that has an entry left: a level is first advanced by a positional search
of its word map and from the second time on, if that map is a tree, by a cursor of its own.
A prefix cursor compares one masked chunk at one depth to see that it has left the prefix.
-/

namespace Expanse.StrMap

open BigEndian

variable {M : WordMap}

structure StrFrame where
  node : ℕ
  chunk : ℕ
  keyLen : ℕ
  advanced : Bool

/-- The walk behind both cursors. The vector of word-map cursors is split where its live part
ends: `subs` holds `subs[..live]`, last first, and `spare` the slots kept past it. -/
structure Walk (M : WordMap) where
  stack : List StrFrame
  subs : List (ℕ × M.Cursor)
  spare : List (ℕ × M.Cursor)
  key : List ℕ
  done : Bool
  started : Bool
  pending : Option (ValueSlot M)
  boundDepth : ℕ
  boundMask : ℕ
  boundWant : ℕ

namespace Walk

def new : Walk M := ⟨[], [], [], [], false, false, none, 0, 0, 0⟩

variable (s : ExpanseStrMap M) (bounded : Bool)

def pastBound (w : Walk M) (depth chunk : ℕ) : Bool :=
  bounded && decide (depth ≤ w.boundDepth) &&
    (decide (depth < w.boundDepth) || chunk &&& w.boundMask != w.boundWant)

def pushFrame (w : Walk M) (node chunk keyLen : ℕ) (advanced : Bool) : Walk M :=
  { w with stack := ⟨node, chunk, keyLen, advanced⟩ :: w.stack }

def truncate (w : Walk M) (len : ℕ) : Walk M := { w with key := w.key.take len }

/-- `while live > 0 && subs[live - 1].0 > depth`: dead cursors become spare slots. -/
def dropDeeper (depth : ℕ) : List (ℕ × M.Cursor) → List (ℕ × M.Cursor) →
    List (ℕ × M.Cursor) × List (ℕ × M.Cursor)
  | [], spare => ([], spare)
  | sub :: subs, spare =>
    if depth < sub.1 then dropDeeper depth subs (sub :: spare) else (sub :: subs, spare)

/-- The cursor of the deepest live level, if that level is at `depth`. -/
def liveAt (w : Walk M) (depth : ℕ) : Option (M.Cursor × List (ℕ × M.Cursor)) :=
  match w.subs with
  | (d, cur) :: subs => if d = depth then some (cur, subs) else none
  | [] => none

/-- The next free slot of the cursor vector, and the slots after it. -/
def freeSlot (w : Walk M) : M.Cursor × List (ℕ × M.Cursor) :=
  match w.spare with
  | (_, cur) :: spare => (cur, spare)
  | [] => (M.emptyCursor, [])

/-- The next entry of the level of `frame`, which was at depth `stack.len()`. -/
def sibling (w : Walk M) (frame : StrFrame) : Except Fault (Option (ℕ × ℕ) × Walk M) := do
  let depth := w.stack.length
  let (subs, spare) := dropDeeper depth w.subs w.spare
  let w := { w with subs := subs, spare := spare }
  match w.liveAt depth with
  | some (cur, subs) =>
    let (entry, cur) ← M.cursorNext cur
    return (entry, { w with subs := (depth, cur) :: subs })
  | none =>
    let m ← s.alloc.shell frame.node
    if frame.advanced = false ∨ M.rootIsTree m = false then return (M.nextAfter m frame.chunk, w)
    else if frame.chunk + 1 < WORD then
      let (cur, spare) := w.freeSlot
      let cur ← M.resetRawCursor m cur (frame.chunk + 1)
      let (entry, cur) ← M.cursorNext cur
      return (entry, { w with subs := (depth, cur) :: w.subs, spare := spare })
    else return (none, w)

/-- The unwinding loop: the nearest level with an unexplored sibling, popped from the stack,
and that sibling. -/
def unwindTo : List StrFrame → Walk M → Except Fault (Option (StrFrame × ℕ × ℕ) × Walk M)
  | [], w => .ok (none, { w with stack := [] })
  | frame :: stack, w => do
    let w := { w with stack := stack }
    if bounded ∧ stack.length < w.boundDepth then return (none, w)
    let (entry, w) ← (w.truncate frame.keyLen).sibling s frame
    match entry with
    | some entry =>
      if w.pastBound bounded stack.length entry.1 then return (none, w) else return (some (frame, entry), w)
    | none => unwindTo stack w

/-- What a finished descent returns: the slot it reached. -/
abbrev Descent (M : WordMap) : Type := Option (ValueSlot M) × Walk M

abbrev Emitted (M : WordMap) : Type := Option (List ℕ × ValueSlot M) × Walk M

def emit : Descent M → Emitted M
  | (some slot, w) => (some (w.key, slot), w)
  | (none, w) => (none, { w with done := true })

mutual

def finishDescent : ℕ → Walk M → ℕ → ℕ → ℕ → Except Fault (Descent M)
  | 0, _, _, _, _ => .error .fuel
  | fuel + 1, w, node, chunk, v => do
    if isTerminal chunk then
      let m ← s.alloc.shell node
      return ((M.getSlotPtr m chunk).map (.word node), { w with key := pushTerminal w.key chunk })
    else if isSuffixPtr v then
      let (bytes, _) ← s.alloc.suffix (unpackSuffix v)
      return (some (.suffix (unpackSuffix v)), { w with key := w.key ++ beBytes chunk ++ bytes })
    else
      let w := { w with key := w.key ++ beBytes chunk }
      let m ← s.alloc.shell (unpackChild v)
      match M.first m with
      | none =>
        -- `past_empty_child`
        let (entry, w) ← nextFrom fuel w
        return (entry.map Prod.snd, w)
      | some (chunk, v') =>
        finishDescent fuel (w.pushFrame (unpackChild v) chunk w.key.length false) (unpackChild v) chunk v'

/-- `next`, from the state `w`. -/
def nextFrom : ℕ → Walk M → Except Fault (Emitted M)
  | 0, _ => .error .fuel
  | fuel + 1, w => do
    if w.done then return (none, w)
    match w.pending with
    | some slot => return (some (w.key, slot), { w with pending := none })
    | none =>
      if w.started = false then
        let w := { w with started := true }
        match s.root with
        | none => return (none, { w with done := true })
        | some root =>
          let m ← s.alloc.shell root
          match M.first m with
          | none => return (none, { w with done := true })
          | some (chunk, v) =>
            let r ← finishDescent fuel (w.pushFrame root chunk w.key.length false) root chunk v
            return emit r
      else
        match w.stack, w.liveAt (w.stack.length - 1) with
        | top :: stack, some (cur, subs) =>
          -- the deepest level streams from its own cursor
          let (entry, cur) ← M.cursorNext cur
          let w := { w with subs := (stack.length, cur) :: subs }
          match entry with
          | some (chunk, v) =>
            if w.pastBound bounded stack.length chunk then return (none, { w with done := true })
            else
              let w := { w with stack := { top with chunk := chunk } :: stack }
              let r ← finishDescent fuel (w.truncate top.keyLen) top.node chunk v
              return emit r
          | none => unwound fuel stack (w.truncate top.keyLen)
        | stack, _ => unwound fuel stack w

/-- The rest of `next`: unwind, then descend into the sibling found. -/
def unwound : ℕ → List StrFrame → Walk M → Except Fault (Emitted M)
  | 0, _, _ => .error .fuel
  | fuel + 1, stack, w => do
    let (found, w) ← unwindTo s bounded stack w
    match found with
    | none => return (none, { w with done := true })
    | some (frame, chunk, v) =>
      let r ← finishDescent fuel (w.pushFrame frame.node chunk w.key.length true) frame.node chunk v
      return emit r

end

def next (w : Walk M) : Except Fault (Emitted M) := nextFrom s bounded (visits s.alloc + 2) w

/-- `descend` and `descend_from` of a seek, which leave the slot to be emitted first. -/
def descendFrom (w : Walk M) (node : ℕ) (entry : ℕ × ℕ) (advanced : Bool) : Except Fault (Descent M) :=
  finishDescent s bounded (visits s.alloc + 2) (w.pushFrame node entry.1 w.key.length advanced) node
    entry.1 entry.2

def seekUnwind (w : Walk M) : Except Fault (Descent M) := do
  let (found, w) ← unwindTo s false w.stack w
  match found with
  | none => return (none, { w with done := true })
  | some (frame, entry) => w.descendFrom s bounded frame.node entry true

/-- The loop of `seek`. -/
def seekLoop (key : List ℕ) : ℕ → Walk M → ℕ → ℕ → Except Fault (Descent M)
  | 0, _, _, _ => .error .fuel
  | fuel + 1, w, node, off => do
    let m ← s.alloc.shell node
    let target := (chunkAt key off).1
    match M.nextAtOrAfter m target with
    | some (chunk, v) =>
      if chunk = target ∧ isTerminal chunk = false then
        if isSuffixPtr v then
          let (bytes, _) ← s.alloc.suffix (unpackSuffix v)
          if remAfter key off ≤ bytes then w.descendFrom s bounded node (chunk, v) false
          else
            match M.nextAfter m target with
            | some entry => w.descendFrom s bounded node entry false
            | none => w.seekUnwind s bounded
        else
          let w := w.pushFrame node chunk w.key.length false
          seekLoop key fuel { w with key := w.key ++ beBytes chunk } (unpackChild v) (off + CHUNK)
      else w.descendFrom s bounded node (chunk, v) false
    | none => w.seekUnwind s bounded

def seek (w : Walk M) (key : List ℕ) : Except Fault (Descent M) :=
  let w := { w with started := true }
  match s.root with
  | none => .ok (none, { w with done := true })
  | some root => w.seekLoop s bounded key (turns key) root 0

end Walk

namespace ExpanseStrMap

open Walk

variable (s : ExpanseStrMap M)

def cursor (_ : ExpanseStrMap M) : Walk M := .new

def walkAtOrAfter (bounded : Bool) (key : List ℕ) : Except Fault (Walk M) := do
  let (slot, w) ← Walk.new.seek s bounded key
  return { w with pending := slot }

def cursorAtOrAfter (key : NulFreeStr) : Except Fault (Walk M) := s.walkAtOrAfter false key.bytes

/-- `!0 << (64 - 8 * rem)`. -/
def prefixMask (rem : ℕ) : ℕ := (WORD - 1) <<< (64 - 8 * rem) % WORD

/-- The bound fields that `cursor_prefix` sets. -/
def setBound (w : Walk M) (p : List ℕ) : Walk M :=
  let rem := p.length % CHUNK
  if 0 < rem then
    { w with
      boundDepth := p.length / CHUNK
      boundMask := prefixMask rem
      boundWant := (chunkAt p (p.length - rem)).1 &&& prefixMask rem }
  else { w with boundDepth := p.length / CHUNK }

def cursorPrefix (pre : NulFreeStr) : Except Fault (Walk M) := do
  let p := pre.bytes
  let w ← s.walkAtOrAfter true p
  let w := setBound w p
  if w.pending.isSome ∧ ¬ p.isPrefixOf w.key then return { w with pending := none, done := true }
  else return w

end ExpanseStrMap

end Expanse.StrMap
