import Expanse.Library.Packed
import Expanse.Engine.Edge

/-!
# The node arena of the 32-bit engine

Nodes live in a table of slots and edges name them by handle. Freed handles go on a
stack and are reused first. The arena counts the bytes of its live nodes: whole nodes
as they are allocated and freed, and the subarrays of bitmap nodes by signed
differences. An arena of the concurrent wrapper has a fixed table and parks what it
frees.

Every access that the source checks by an assertion, an `expect`, an unreachable arm
or a slice bound is a `Fault` here.
-/

namespace Expanse.Trie32

def SET_LEAF_MAX : ℕ := 24
def SET_BITMAP_ENTER : ℕ := 64
def SET_BITMAP_LEAVE : ℕ := SET_BITMAP_ENTER - 16
def MAP_LEAF_MAX : ℕ := 16
def MAP_BITMAP_ENTER : ℕ := 64
def MAP_BITMAP_LEAVE : ℕ := MAP_BITMAP_ENTER - 16
def BRANCH_L2_CAP : ℕ := 2
def BRANCH_L6_CAP : ℕ := 6
def BRANCH_L6_DOWN : ℕ := BRANCH_L2_CAP - 1
def BRANCH_B_TO_UNCOMPRESSED : ℕ := 192
def BRANCH_B_DOWN : ℕ := BRANCH_L6_CAP - 1
def BRANCH_U_DOWN : ℕ := BRANCH_B_TO_UNCOMPRESSED - 2

def setImmedCap (kb : ℕ) : ℕ := 7 / kb

inductive Fault where
  | doubleFree
  | deadSlot
  | wrongNode
  | wrongFlavour
  | digitNotPresent
  | deadSubarray
  | outOfBounds
  | arenaExhausted
  | pendingExhausted
  | underflow
  | assertion
  | outOfFuel
deriving DecidableEq

/-- The branch forms. -/
inductive Form where
  | l2
  | l6
  | b
  | u
deriving DecidableEq

/-- One edge. An immediate packs its keys, and a map's one value, into the edge itself; a linear leaf
keeps its population beside the handle. -/
inductive Edge32 where
  | null
  | setImmed (kb : ℕ) (keys : List ℕ)
  | mapImmed (kb rem val : ℕ)
  | setLeaf (kb h pop : ℕ)
  | mapLeaf (kb h pop : ℕ)
  | bitmap (h : ℕ)
  | mapBitmap (h : ℕ)
  | branch (form : Form) (h : ℕ)
deriving DecidableEq

/-- A rank-ordered subarray of a bitmap node: its allocation, live items first. -/
abbrev Sub (α : Type) : Type := Option (List α)

/-- `BranchL2_32` and `BranchL6_32`: the first `numEdges` digits and edges are live. -/
structure LinearBranch where
  level : ℕ
  count : ℕ
  numEdges : ℕ
  digits : List ℕ
  edges : List Edge32

structure BitmapBranch where
  level : ℕ
  count : ℕ
  numChildren : ℕ
  bits : ℕ
  popCounts : List ℕ
  subs : List (Sub Edge32)

structure FlatBranch where
  level : ℕ
  count : ℕ
  numChildren : ℕ
  edges : List Edge32

/-- `LeafBitmap1_32`; `pop0` is the population itself. -/
structure SetBitmap where
  bits : ℕ
  pop0 : ℕ

/-- `LeafBitmapL32Data`; `pop0` is the population minus one. -/
structure MapBitmap where
  bits : ℕ
  pop0 : ℕ
  subs : List (Sub ℕ)

inductive Node where
  | l2 (b : LinearBranch)
  | l6 (b : LinearBranch)
  | b (b : BitmapBranch)
  | u (b : FlatBranch)
  | bitmap (b : SetBitmap)
  | mapBitmap (b : MapBitmap)
  | leaf (bytes : List ℕ)

/-- Bytes of the allocated subarrays, `size` for each item. -/
def subBytes {α : Type} (size : ℕ) (subs : List (Sub α)) : ℕ :=
  (subs.map fun s => (s.getD []).length * size).sum

def EDGE_SIZE : ℕ := 8
def VALUE_SIZE : ℕ := 4

def Node.heapBytes : Node → ℕ
  | .l2 _ => 32
  | .l6 _ => 64
  | .b n => 96 + subBytes EDGE_SIZE n.subs
  | .u _ => 2080
  | .bitmap _ => 64
  | .mapBitmap n => 96 + subBytes VALUE_SIZE n.subs
  | .leaf bytes => bytes.length

/-- The arena. `pending` lists the bytes of each parked allocation. -/
structure Arena where
  slots : List (Option Node)
  free : List ℕ
  bytes : ℕ
  fixed : Bool
  deferred : Bool
  pending : List ℕ
  pendingCap : ℕ
  allocs : ℕ

namespace Arena

def new : Arena := ⟨[], [], 0, false, false, [], 0, 0⟩

/-- A fixed arena whose freed allocations are parked; low handles are handed out first. -/
def withCapacity (cap pendingCap : ℕ) : Arena :=
  ⟨List.replicate cap none, List.range cap, 0, true, true, [], pendingCap, 0⟩

/-- The node in slot `h`. -/
def node (a : Arena) (h : ℕ) : Option Node := (a.slots[h]?).join

def alloc (a : Arena) (n : Node) : Except Fault (ℕ × Arena) :=
  match a.free with
  | h :: free =>
    if h < a.slots.length then
      .ok (h, { a with
        slots := a.slots.set h (some n), free := free, bytes := a.bytes + n.heapBytes,
        allocs := a.allocs + 1 })
    else .error .outOfBounds
  | [] =>
    if a.fixed then .error .arenaExhausted
    else
      .ok (a.slots.length, { a with
        slots := a.slots ++ [some n], bytes := a.bytes + n.heapBytes, allocs := a.allocs + 1 })

/-- `push_pending`, in a deferred arena; elsewhere the allocation is dropped. -/
def retire (a : Arena) (heapBytes : ℕ) : Except Fault Arena :=
  if a.deferred then
    if a.pending.length < a.pendingCap then .ok { a with pending := a.pending ++ [heapBytes] }
    else .error .pendingExhausted
  else .ok a

/-- Park the subarray that an edit has replaced, if it has replaced one. -/
def retireSub (a : Arena) (heapBytes : Option ℕ) : Except Fault Arena :=
  match heapBytes with
  | some n => a.retire n
  | none => .ok a

def freeNode (a : Arena) (h : ℕ) : Except Fault Arena :=
  match a.node h with
  | some n =>
    if a.bytes < n.heapBytes then .error .underflow
    else
      match { a with slots := a.slots.set h none, bytes := a.bytes - n.heapBytes }.retire
          n.heapBytes with
      | .ok a' => .ok { a' with free := h :: a'.free }
      | .error f => .error f
  | none => .error .doubleFree

def put (a : Arena) (h : ℕ) (n : Node) : Arena := { a with slots := a.slots.set h (some n) }

/-- `wrapping_add_signed` on the byte count. -/
def addBytes (a : Arena) (delta : ℤ) : Arena := { a with bytes := ((a.bytes : ℤ) + delta).toNat }

def get (a : Arena) (h : ℕ) : Except Fault Node :=
  match a.node h with
  | some n => .ok n
  | none => .error .deadSlot

def bitmap (a : Arena) (h : ℕ) : Except Fault SetBitmap :=
  match a.node h with
  | some (.bitmap b) => .ok b
  | some _ => .error .wrongNode
  | none => .error .deadSlot

def mapBitmap (a : Arena) (h : ℕ) : Except Fault MapBitmap :=
  match a.node h with
  | some (.mapBitmap b) => .ok b
  | some _ => .error .wrongNode
  | none => .error .deadSlot

/-- The bytes of a leaf, at least `need` of them. -/
def leaf (a : Arena) (h need : ℕ) : Except Fault (List ℕ) :=
  match a.node h with
  | some (.leaf bytes) => if need ≤ bytes.length then .ok bytes else .error .outOfBounds
  | some _ => .error .wrongNode
  | none => .error .deadSlot

def liveAllocs (a : Arena) : ℕ := a.slots.length - a.free.length

/-- `shrink_to_fit`: drop trailing empty slots and their handles. -/
def shrinkToFit (a : Arena) : Arena :=
  if a.fixed then a
  else
    let slots := (a.slots.reverse.dropWhile Option.isNone).reverse
    { a with slots := slots, free := a.free.filter fun h => decide (h < slots.length) }

end Arena

end Expanse.Trie32
