import Mathlib.Data.List.AList
import Expanse.Library.BigEndian
import Expanse.StrMap.WordMap

/-!
# String map: shells, suffix leaves and the mutating walks

The heap of a string map holds two kinds of blocks, each named by its address: a shell
(one trie level, with the word map of its chunks) and a suffix leaf (the remaining bytes
of one key, and its value). A continuation entry of a word map holds an address, with
bit 0 set when the block is a suffix leaf. Where the allocator places a block is a
parameter: any address that is not live, at the raw alignment.
-/

namespace Expanse.StrMap

open BigEndian

def CHUNK : ℕ := 8
def RAW_ALIGN : ℕ := 16
/-- `size_of::<StrSuffix>()`: the value and the length in front of the bytes. -/
def SUFFIX_BYTES : ℕ := 16
/-- `size_of::<StrNode>()`: cover word, dirty flag and the word map's root. -/
def SHELL_BYTES : ℕ := 40

def accountedSize (bytes : ℕ) : ℕ := (bytes + (RAW_ALIGN - 1)) / RAW_ALIGN * RAW_ALIGN

def SHELL_ACCOUNTED : ℕ := accountedSize SHELL_BYTES

/-- The next chunk of `key` from byte `off` on, and whether the key ends inside it. -/
def chunkAt (key : List ℕ) (off : ℕ) : ℕ × Bool :=
  let rest := key.drop off
  (pack CHUNK rest, decide (rest.length < CHUNK))

/-- `chunk.wrapping_sub(LO) & !chunk & HI != 0`. -/
def isTerminal (chunk : ℕ) : Bool :=
  (chunk + WORD - lanes 1 CHUNK) % WORD &&& (WORD - 1 - chunk) &&& lanes 128 CHUNK != 0

/-- `chunk.to_be_bytes()`. -/
def beBytes (chunk : ℕ) : List ℕ := unpack CHUNK chunk

/-- Append the content of a terminal chunk: its eight bytes, cut after the last one that
is not zero. -/
def pushTerminal (out : List ℕ) (chunk : ℕ) : List ℕ :=
  (out ++ beBytes chunk).take (out.length + CHUNK - trailingZeros (8 * CHUNK) chunk / 8)

def isSuffixPtr (v : ℕ) : Bool := v % 2 == 1

def unpackSuffix (v : ℕ) : ℕ := v - v % 2

def packSuffix (p : ℕ) : ℕ := p ||| 1

def unpackChild (v : ℕ) : ℕ := v

def packChild (p : ℕ) : ℕ := p

/-- Where the allocator places the next block, given how many requests it has served and
the live addresses. -/
structure Placement where
  pick : ℕ → List ℕ → ℕ
  fresh : ∀ n live, pick n live ∉ live
  aligned : ∀ n live, RAW_ALIGN ∣ pick n live
  pos : ∀ n live, 0 < pick n live

theorem le_foldr_max {q : ℕ} {live : List ℕ} (h : q ∈ live) : q ≤ live.foldr max 0 := by
  induction live with
  | nil => exact absurd h List.not_mem_nil
  | cons r live ih =>
    rw [List.foldr_cons]
    rcases List.mem_cons.mp h with rfl | h
    · exact le_max_left _ _
    · exact (ih h).trans (le_max_right _ _)

/-- Every block goes above the live ones. -/
def Placement.above : Placement where
  pick _ live := RAW_ALIGN * (live.foldr max 0 + 1)
  fresh _ live h := by
    have := le_foldr_max h
    have : 1 ≤ RAW_ALIGN := by decide
    nlinarith
  aligned _ _ := Dvd.intro _ rfl
  pos _ _ := Nat.mul_pos (by decide) (Nat.succ_pos _)

inductive Cell (M : WordMap) where
  | shell (map : M.Map)
  | suffix (bytes : List ℕ) (value : ℕ)

namespace Cell

variable {M : WordMap}

/-- Bytes a block counts for. A suffix is requested at `raw_class_fit` of its size, which
has the same accounted size. A shell carries the nodes of its word map, which come from
the same allocator. -/
def bytes : Cell M → ℕ
  | shell m => SHELL_ACCOUNTED + M.bytes m
  | suffix bs _ => accountedSize (SUFFIX_BYTES + bs.length)

end Cell

/-- The one allocator behind all blocks of a string map. -/
structure NodeAlloc (M : WordMap) where
  cells : AList fun _ : ℕ => Cell M
  bytesInUse : ℕ
  requests : ℕ

/-- The address of a value word: in the word map of a shell, or in a suffix leaf. -/
inductive ValueSlot (M : WordMap) where
  | word (node : ℕ) (slot : M.Slot)
  | suffix (p : ℕ)

namespace NodeAlloc

variable {M : WordMap}

def new : NodeAlloc M := ⟨∅, 0, 0⟩

def alloc (P : Placement) (a : NodeAlloc M) (c : Cell M) : ℕ × NodeAlloc M :=
  let p := P.pick a.requests a.cells.keys
  (p, ⟨a.cells.insert p c, a.bytesInUse + c.bytes, a.requests + 1⟩)

/-- Free a live block (`dispose_suffix`, and `dispose_node` with the interior of its map). -/
def free (a : NodeAlloc M) (p : ℕ) : Except Fault (NodeAlloc M) :=
  match a.cells.lookup p with
  | some c => .ok ⟨a.cells.erase p, a.bytesInUse - c.bytes, a.requests + 1⟩
  | none => .error .unreachable

/-- Replace the content of a live block. -/
def store (a : NodeAlloc M) (p : ℕ) (c : Cell M) : Except Fault (NodeAlloc M) :=
  match a.cells.lookup p with
  | some old => .ok { a with
      cells := a.cells.insert p c
      bytesInUse := a.bytesInUse + c.bytes - old.bytes }
  | none => .error .unreachable

def shell (a : NodeAlloc M) (p : ℕ) : Except Fault M.Map :=
  match a.cells.lookup p with
  | some (.shell m) => .ok m
  | _ => .error .unreachable

def suffix (a : NodeAlloc M) (p : ℕ) : Except Fault (List ℕ × ℕ) :=
  match a.cells.lookup p with
  | some (.suffix bs v) => .ok (bs, v)
  | _ => .error .unreachable

def readSlot (a : NodeAlloc M) : ValueSlot M → Option ℕ
  | .word node s =>
    match a.cells.lookup node with
    | some (.shell m) => M.readSlot m s
    | _ => none
  | .suffix p =>
    match a.cells.lookup p with
    | some (.suffix _ v) => some v
    | _ => none

def writeSlot (a : NodeAlloc M) (slot : ValueSlot M) (v : ℕ) : Except Fault (NodeAlloc M) :=
  match slot with
  | .word node s => do
    let m ← a.shell node
    a.store node (.shell (M.writeSlot m s v))
  | .suffix p => do
    let (bs, _) ← a.suffix p
    a.store p (.suffix bs v)

end NodeAlloc

/-- Where the chunk loop of a lookup ends. -/
inductive Found where
  | terminal (node chunk : ℕ)
  | suffix (p : ℕ)
  | absent
deriving DecidableEq

section Walks

variable {M : WordMap} (P : Placement)

/-- The chunk loop of `get` and `get_value_slot`. -/
def locateKey (a : NodeAlloc M) (key : List ℕ) : ℕ → ℕ → ℕ → Except Fault Found
  | 0, _, _ => .error .fuel
  | fuel + 1, node, off => do
    let (chunk, terminal) := chunkAt key off
    if terminal then return .terminal node chunk
    let m ← a.shell node
    match M.get m chunk with
    | none => return .absent
    | some v =>
      if isSuffixPtr v then
        let (bytes, _) ← a.suffix (unpackSuffix v)
        return if key.drop (off + CHUNK) = bytes then .suffix (unpackSuffix v) else .absent
      else locateKey a key fuel (unpackChild v) (off + CHUNK)

/-- Turns of a chunk loop: one per whole chunk, and one for the last. -/
def turns (key : List ℕ) : ℕ := key.length / CHUNK + 1

/-- The child that replaces a suffix entry: the continuation of the old suffix, as a
terminal entry or a shorter suffix. -/
def buildSplitChild (a : NodeAlloc M) (old : ℕ) : Except Fault (ℕ × NodeAlloc M) := do
  let (child, a) := a.alloc P (.shell M.new)
  let (bytes, value) ← a.suffix old
  let m ← a.shell child
  let (c1, t1) := chunkAt bytes 0
  if t1 then
    let (_, m) ← M.insert m c1 value
    let a ← a.store child (.shell m)
    return (child, a)
  else
    let (s1, a) := a.alloc P (.suffix (bytes.drop CHUNK) value)
    let (_, m) ← M.insert m c1 (packSuffix s1)
    let a ← a.store child (.shell m)
    return (child, a)

/-- Publish the child over the suffix entry, then dispose of the old suffix. -/
def splitSuffix (a : NodeAlloc M) (node chunk old : ℕ) : Except Fault (ℕ × NodeAlloc M) := do
  let (child, a) ← buildSplitChild P a old
  let m ← a.shell node
  let (_, m) ← M.insert m chunk (packChild child)
  let a ← a.store node (.shell m)
  let a ← a.free old
  return (child, a)

/-- Where the chunk loop of an insertion ends. -/
inductive Reached where
  | terminal (node chunk : ℕ)
  | fresh (p : ℕ)
  | hit (p : ℕ)
deriving DecidableEq

/-- The chunk loop of `insert_impl` and `ins_slot_impl`: descend, splitting the suffixes
that diverge from the key. A new suffix leaf holds `val`. -/
def reachKey (key : List ℕ) (val : ℕ) : ℕ → NodeAlloc M → ℕ → ℕ →
    Except Fault (Reached × NodeAlloc M)
  | 0, _, _, _ => .error .fuel
  | fuel + 1, a, node, off => do
    let (chunk, terminal) := chunkAt key off
    if terminal then return (.terminal node chunk, a)
    let m ← a.shell node
    match M.get m chunk with
    | none =>
      let (p, a) := a.alloc P (.suffix (key.drop (off + CHUNK)) val)
      let (_, m) ← M.insert m chunk (packSuffix p)
      let a ← a.store node (.shell m)
      return (.fresh p, a)
    | some v =>
      if isSuffixPtr v then
        let p := unpackSuffix v
        let (bytes, _) ← a.suffix p
        if key.drop (off + CHUNK) = bytes then return (.hit p, a)
        let (child, a) ← splitSuffix P a node chunk p
        reachKey key val fuel a child (off + CHUNK)
      else reachKey key val fuel a (unpackChild v) (off + CHUNK)

/-- The descent of a removal: the key's binding is taken out, and the levels above it are
left on the path. -/
def removeKey (key : List ℕ) : ℕ → NodeAlloc M → ℕ → ℕ → List (ℕ × ℕ) →
    Except Fault (Option (ℕ × NodeAlloc M × List (ℕ × ℕ)))
  | 0, _, _, _, _ => .error .fuel
  | fuel + 1, a, node, off, path => do
    let (chunk, terminal) := chunkAt key off
    let m ← a.shell node
    if terminal then
      let (old, m) ← M.remove m chunk
      match old with
      | none => return none
      | some v =>
        let a ← a.store node (.shell m)
        return some (v, a, path)
    else
      match M.get m chunk with
      | none => return none
      | some v =>
        if isSuffixPtr v then
          let p := unpackSuffix v
          let (bytes, value) ← a.suffix p
          if key.drop (off + CHUNK) = bytes then
            let (_, m) ← M.remove m chunk
            let a ← a.store node (.shell m)
            let a ← a.free p
            return some (value, a, path)
          else return none
        else removeKey key fuel a (unpackChild v) (off + CHUNK) ((node, chunk) :: path)

/-- The unwind: an emptied child is unlinked and disposed of, up to the first level that
is not empty. -/
def prune : List (ℕ × ℕ) → NodeAlloc M → Except Fault (NodeAlloc M)
  | [], a => .ok a
  | (parent, chunk) :: path, a => do
    let m ← a.shell parent
    match M.get m chunk with
    | none => .error .unreachable
    | some v =>
      if isSuffixPtr v then prune path a
      else
        let c ← a.shell (unpackChild v)
        if M.isEmpty c then
          let (_, m) ← M.remove m chunk
          let a ← a.store parent (.shell m)
          let a ← a.free (unpackChild v)
          prune path a
        else return a

/-- `StrNode::remove_impl`. -/
def removeImpl (a : NodeAlloc M) (node : ℕ) (key : List ℕ) :
    Except Fault (Option (ℕ × NodeAlloc M)) := do
  match ← removeKey key (turns key) a node 0 [] with
  | none => return none
  | some (v, a, path) =>
    let a ← prune path a
    return some (v, a)

/-- Dispose of the suffixes a node's map leads to and queue its children. -/
def queueKids : List (ℕ × ℕ) → NodeAlloc M → List ℕ → Except Fault (NodeAlloc M × List ℕ)
  | [], a, stack => .ok (a, stack)
  | (k, v) :: rest, a, stack =>
    if isTerminal k then queueKids rest a stack
    else if isSuffixPtr v then do
      let a ← a.free (unpackSuffix v)
      queueKids rest a stack
    else queueKids rest a (unpackChild v :: stack)

def disposeTree : ℕ → NodeAlloc M → List ℕ → Except Fault (NodeAlloc M)
  | _, a, [] => .ok a
  | 0, _, _ :: _ => .error .fuel
  | fuel + 1, a, p :: stack => do
    let m ← a.shell p
    let (a, stack) ← queueKids (M.iter m) a stack
    let a ← a.free p
    disposeTree fuel a stack

end Walks

end Expanse.StrMap
