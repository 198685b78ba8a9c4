import Expanse.Library.Puts
import Expanse.Trie32.Bitmap

/-!
# Branches of the 32-bit engine

A branch routes by one digit. It has four forms: two linear ones with sorted digits, a
bitmap with subarrays of edges, and a table of 256 edges. Editing a branch in place is a
function on its node; a branch that outgrows its form, or falls to the band below it, is
rebuilt in the next form from the list of its children. The two walks differ in how a
subarray moves its tail, and in whether a count wraps around or is checked.
-/

namespace Expanse.Trie32

open Arrays Bitmap

def COUNT_MOD : ℕ := 2 ^ 32

namespace Form

/-- The number of children from which an insertion rebuilds the branch. -/
def cap : Form → ℕ
  | l2 => BRANCH_L2_CAP
  | l6 => BRANCH_L6_CAP
  | b => BRANCH_B_TO_UNCOMPRESSED
  | u => 256

/-- The number of children down to which a removal rebuilds the branch. -/
def downAt : Form → ℕ
  | l2 => 0
  | l6 => BRANCH_L6_DOWN
  | b => BRANCH_B_DOWN
  | u => BRANCH_U_DOWN

def up : Form → Form
  | l2 => l6
  | l6 => b
  | _ => u

def down : Form → Form
  | l6 => l2
  | b => l6
  | u => b
  | l2 => l2

end Form

/-- `make_l2` and `make_l6`: the digits and edges, padded to the capacity. -/
def linearOf (cap level count : ℕ) (es : List (ℕ × Edge32)) : LinearBranch :=
  ⟨level, count, es.length, resize cap 0 (es.map Prod.fst), resize cap .null (es.map Prod.snd)⟩

/-- `make_b`. -/
def bitmapBranchOf (level count : ℕ) (es : List (ℕ × Edge32)) : BitmapBranch :=
  ⟨level, count, es.length, bitsOf (es.map Prod.fst), (List.range 8).map fun i => (row es i).length,
    subsOf .null es⟩

/-- `make_u`. -/
def flatBranchOf (level count : ℕ) (es : List (ℕ × Edge32)) : FlatBranch :=
  ⟨level, count, es.length, es.foldl (fun edges e => edges.set e.1 e.2) (List.replicate 256 .null)⟩

def branchNode (form : Form) (level count : ℕ) (es : List (ℕ × Edge32)) : Node :=
  match form with
  | .l2 => .l2 (linearOf BRANCH_L2_CAP level count es)
  | .l6 => .l6 (linearOf BRANCH_L6_CAP level count es)
  | .b => .b (bitmapBranchOf level count es)
  | .u => .u (flatBranchOf level count es)

/-- `branch_level`. -/
def nodeLevel : Node → ℕ
  | .l2 b => b.level
  | .l6 b => b.level
  | .b b => b.level
  | .u b => b.level
  | _ => 0

/-- `branch_total_keys`. -/
def nodeCount : Node → ℕ
  | .l2 b => b.count
  | .l6 b => b.count
  | .b b => b.count
  | .u b => b.count
  | _ => 0

def nodeChildren : Node → ℕ
  | .l2 b => b.numEdges
  | .l6 b => b.numEdges
  | .b b => b.numChildren
  | .u b => b.numChildren
  | _ => 0

def linearIndex (b : LinearBranch) (digit : ℕ) : Option ℕ :=
  (b.digits.take b.numEdges).findIdx? (· == digit)

def edgeAt (edges : List Edge32) (i : ℕ) : Except Fault Edge32 :=
  match edges[i]? with
  | some c => .ok c
  | none => .error .outOfBounds

def linearChild (b : LinearBranch) (digit : ℕ) : Except Fault (Option Edge32) :=
  match linearIndex b digit with
  | some i => (edgeAt b.edges i).map some
  | none => .ok none

/-- `branch_child`. -/
def nodeChild (n : Node) (digit : ℕ) : Except Fault (Option Edge32) :=
  match n with
  | .l2 b => linearChild b digit
  | .l6 b => linearChild b digit
  | .b b =>
    if testDigit false b.bits digit then
      match b.subs.getD (digit / 32) none with
      | some s => (edgeAt s (digitRank false b.bits digit)).map some
      | none => .ok none
    else .ok none
  | .u b => (edgeAt b.edges digit).map fun c => if c = .null then none else some c
  | _ => .error .wrongNode

def linearPairs (b : LinearBranch) : List (ℕ × Edge32) :=
  (b.digits.take b.numEdges).zip (b.edges.take b.numEdges)

/-- `branch_pairs`: the children in digit order. -/
def nodePairs (n : Node) : Except Fault (List (ℕ × Edge32)) :=
  match n with
  | .l2 b => .ok (linearPairs b)
  | .l6 b => .ok (linearPairs b)
  | .b b =>
    (digits b.bits).mapM fun d => do
      let c ← subItem (b.subs.getD (d / 32) none) (digitRank false b.bits d)
      pure (d, c)
  | .u b =>
    .ok ((List.range 256).filterMap fun d =>
      match b.edges[d]? with
      | some c => if c = .null then none else some (d, c)
      | none => none)
  | _ => .error .wrongNode

/-- `(count as i64 + delta) as u32`. -/
def wrapCount (count : ℕ) (delta : ℤ) : ℕ := (((count : ℤ) + delta) % COUNT_MOD).toNat

/-- `count + keys_added`, which must not overflow; the shared edit of a linear branch wraps. -/
def addCount (wraps : Bool) (count keys : ℕ) : Except Fault ℕ :=
  if wraps then .ok (wrapCount count keys)
  else if count + keys < COUNT_MOD then .ok (count + keys) else .error .assertion

def linearCommit (b : LinearBranch) (digit : ℕ) (child : Option Edge32) (delta : ℤ) :
    Except Fault LinearBranch :=
  let b := { b with count := wrapCount b.count delta }
  match child with
  | none => .ok b
  | some c =>
    match linearIndex b digit with
    | some i => .ok { b with edges := b.edges.set i c }
    | none => .error .digitNotPresent

/-- `branch_commit`, and `branch_add_keys` without a child. -/
def nodeCommit (n : Node) (digit : ℕ) (child : Option Edge32) (delta : ℤ) : Except Fault Node :=
  match n with
  | .l2 b => (linearCommit b digit child delta).map .l2
  | .l6 b => (linearCommit b digit child delta).map .l6
  | .b b =>
    let b := { b with count := wrapCount b.count delta }
    match child with
    | none => .ok (.b b)
    | some c =>
      match b.subs.getD (digit / 32) none with
      | some s =>
        if digitRank false b.bits digit < s.length then
          .ok (.b { b with subs := b.subs.set (digit / 32) (some (s.set (digitRank false b.bits digit) c)) })
        else .error .outOfBounds
      | none => .error .deadSubarray
  | .u b =>
    let b := { b with count := wrapCount b.count delta }
    match child with
    | none => .ok (.u b)
    | some c => .ok (.u { b with edges := b.edges.set digit c })
  | _ => .error .wrongNode

def linearAdd (shared : Bool) (b : LinearBranch) (digit : ℕ) (child : Edge32) (keys : ℕ) :
    Except Fault LinearBranch := do
  let n := b.numEdges
  let pos := ((b.digits.take n).takeWhile (· < digit)).length
  let count ← addCount shared b.count keys
  pure ⟨b.level, count, n + 1, (shiftUp pos n b.digits).set pos digit, (shiftUp pos n b.edges).set pos child⟩

/-- The in-place arms of `branch_insert_new`. -/
def nodeAdd (shared : Bool) (n : Node) (digit : ℕ) (child : Edge32) (keys : ℕ) :
    Except Fault (Node × SubEdit) := do
  match n with
  | .l2 b =>
    let b ← linearAdd shared b digit child keys
    pure (.l2 b, ⟨none, 0⟩)
  | .l6 b =>
    let b ← linearAdd shared b digit child keys
    pure (.l6 b, ⟨none, 0⟩)
  | .b b =>
    if testDigit false b.bits digit then .error .assertion
    else
      let sub := digit / 32
      let pop := b.popCounts.getD sub 0
      let (new, retired) ← subarrayInsert shared (b.subs.getD sub none) pop (digitRank false b.bits digit)
        child .null
      let count ← addCount false b.count keys
      pure (.b ⟨b.level, count, b.numChildren + 1, setDigit false b.bits digit,
          b.popCounts.set sub (pop + 1), b.subs.set sub new⟩,
        ⟨retired.map (· * EDGE_SIZE), subarrayBytesDelta EDGE_SIZE pop (pop + 1)⟩)
  | .u b =>
    if b.edges.getD digit .null = .null then
      let count ← addCount false b.count keys
      pure (.u ⟨b.level, count, b.numChildren + 1, b.edges.set digit child⟩, ⟨none, 0⟩)
    else .error .assertion
  | _ => .error .wrongNode

def linearDrop (b : LinearBranch) (digit : ℕ) : Except Fault LinearBranch :=
  let n := b.numEdges
  match linearIndex b digit with
  | some pos =>
    .ok ⟨b.level, b.count, n - 1, (shiftDown 1 (n - 1 - pos) pos b.digits).set (n - 1) 0,
      (shiftDown 1 (n - 1 - pos) pos b.edges).set (n - 1) .null⟩
  | none => .error .digitNotPresent

/-- The in-place part of `branch_remove_digit`. -/
def nodeDrop (shared : Bool) (n : Node) (digit : ℕ) : Except Fault (Node × SubEdit) := do
  match n with
  | .l2 b =>
    let b ← linearDrop b digit
    pure (.l2 b, ⟨none, 0⟩)
  | .l6 b =>
    let b ← linearDrop b digit
    pure (.l6 b, ⟨none, 0⟩)
  | .b b =>
    if testDigit false b.bits digit then
      let sub := digit / 32
      let pop := b.popCounts.getD sub 0
      let (new, retired) ← subarrayRemove shared (b.subs.getD sub none) pop (digitRank false b.bits digit)
        .null
      pure (.b ⟨b.level, b.count, b.numChildren - 1, clearDigit false b.bits digit,
          b.popCounts.set sub (pop - 1), b.subs.set sub new⟩,
        ⟨retired.map (· * EDGE_SIZE), subarrayBytesDelta EDGE_SIZE pop (pop - 1)⟩)
    else .error .assertion
  | .u b =>
    if b.edges.getD digit .null = .null then .error .assertion
    else pure (.u ⟨b.level, b.count, b.numChildren - 1, b.edges.set digit .null⟩, ⟨none, 0⟩)
  | _ => .error .wrongNode

def Arena.branch (a : Arena) (form : Form) (h : ℕ) : Except Fault Node :=
  match form, a.node h with
  | .l2, some (.l2 b) => .ok (.l2 b)
  | .l6, some (.l6 b) => .ok (.l6 b)
  | .b, some (.b b) => .ok (.b b)
  | .u, some (.u b) => .ok (.u b)
  | _, some _ => .error .wrongNode
  | _, none => .error .deadSlot

/-- `make_l2`, `make_l6`, `make_b` and `make_u`. -/
def makeBranch (form : Form) (a : Arena) (level : ℕ) (es : List (ℕ × Edge32)) (total : ℕ) :
    Except Fault (Edge32 × Arena) :=
  match form with
  | .l2 | .l6 =>
    if es.length ≤ form.cap then do
      let (h, a) ← a.alloc (branchNode form level total es)
      pure (.branch form h, a)
    else .error .assertion
  | .b | .u => do
    let (h, a) ← a.alloc (branchNode form level total es)
    pure (.branch form h, a)

def branchChild (a : Arena) (form : Form) (h digit : ℕ) : Except Fault (Option Edge32) := do
  let n ← a.branch form h
  nodeChild n digit

def branchCommit (a : Arena) (form : Form) (h digit : ℕ) (child : Option Edge32) (delta : ℤ) :
    Except Fault Arena := do
  let n ← a.branch form h
  let n ← nodeCommit n digit child delta
  pure (a.put h n)

/-- `insert_pair_sorted`. -/
def insertPairSorted (es : List (ℕ × Edge32)) (digit : ℕ) (child : Edge32) : List (ℕ × Edge32) :=
  es.insertIdx (es.takeWhile fun e => e.1 < digit).length (digit, child)

/-- `branch_insert_new`. -/
def branchInsertNew (shared : Bool) (a : Arena) (form : Form) (h digit : ℕ) (child : Edge32) (keys : ℕ) :
    Except Fault (Edge32 × Arena) := do
  let n ← a.branch form h
  if form = .u ∨ nodeChildren n < form.cap then
    let (n, edit) ← nodeAdd shared n digit child keys
    let a ← commitSub a h n edit
    pure (.branch form h, a)
  else
    let total ← addCount false (nodeCount n) keys
    let es ← nodePairs n
    let (e, a) ← makeBranch form.up a (nodeLevel n) (insertPairSorted es digit child) total
    let a ← a.freeNode h
    pure (e, a)

/-- `branch_remove_digit`. -/
def branchRemoveDigit (shared : Bool) (a : Arena) (form : Form) (h digit : ℕ) :
    Except Fault (Edge32 × Arena) := do
  let n ← a.branch form h
  let (n, edit) ← nodeDrop shared n digit
  let a ← commitSub a h n edit
  if nodeChildren n ≤ form.downAt then
    let es ← nodePairs n
    if es = [] then
      let a ← a.freeNode h
      pure (.null, a)
    else
      let (e, a) ← makeBranch form.down a (nodeLevel n) es (nodeCount n)
      let a ← a.freeNode h
      pure (e, a)
  else pure (.branch form h, a)

end Expanse.Trie32
