import Expanse.Library.Radix
import Expanse.Library.Columns
import Expanse.Engine.Branch

/-!
# Edges and the entries below them

An edge sits in a slot that covers `L` undecoded key bytes. It is empty, holds
its keys directly (an immediate), or refers to a leaf or a branch node. The aux
word is split at the node's own level: the low bytes are the population minus
one, the bytes above it name the digits a narrow pointer skips.

`entries` is the meaning of an edge: the sorted list of the suffix keys below it
with their values. `Shape` is the structural invariant. Sets use the value type
`Unit`; maps use their value words.
-/

namespace Expanse

open Radix SortedAssoc

def LEAF1_CAP : ℕ := 25
def LEAF_CAP : ℕ := 32
def LEAFB1_DOWN : ℕ := 21
def ROOT_LEAF_CAP : ℕ := 31
def IMMED_PAYLOAD_BYTES : ℕ := 15

/-- Allocation classes of packed arrays. -/
def capClass (pop : ℕ) : ℕ :=
  if pop ≤ 2 then pop
  else if pop ≤ 16 then (pop + 3) / 4 * 4
  else if pop ≤ 24 then 24
  else if pop ≤ 32 then 32
  else (pop + 3) / 4 * 4

theorem le_capClass (n : ℕ) : n ≤ capClass n := by
  unfold capClass
  split_ifs <;> omega

/-- The two engines. -/
inductive Flavour where
  | set
  | map
deriving DecidableEq

/-- Keys of `kb` bytes that fit in an immediate edge: a set packs them into the whole payload, a
map into the seven aux bytes, since word 0 holds the value or the value array. -/
def Flavour.immedMax : Flavour → ℕ → ℕ
  | .set, kb => IMMED_PAYLOAD_BYTES / kb
  | .map, kb => 7 / kb

/-- Capacity of a linear leaf with `kb`-byte keys. -/
def leafCap (kb : ℕ) : ℕ := if kb = 1 then LEAF1_CAP else LEAF_CAP

namespace Aux

def pop0 (aux level : ℕ) : ℕ := low aux level

def setPop0 (aux level pop0 : ℕ) : ℕ := setSlice aux 0 level pop0

/-- The skipped digits at levels `kb + 1 .. level`, as one number. -/
def decodeValue (aux kb level : ℕ) : ℕ := slice aux kb level

def decodeMatches (aux key kb level : ℕ) : Bool := slice key kb level == slice aux kb level

/-- Decode digits for a child at `kb` under a slot at `level`, taken from `key`. -/
def writeDecode (aux kb level key : ℕ) : ℕ := setSlice aux kb level (slice key kb level)

def restoreDecode (aux kb level saved : ℕ) : ℕ :=
  if kb < level then setSlice aux kb level (slice saved kb level) else aux

/-- Zero the aux bytes `i .. j - 1`. -/
def clearBytes (aux i j : ℕ) : ℕ := setSlice aux i j 0

end Aux

/-- One edge slot. Linear leaves of width `kb` carry the tags `Leaf1 .. Leaf7`. -/
inductive Edge (V : Type) where
  | null
  | immed (kb : ℕ) (cols : Columns V)
  | leaf (kb aux : ℕ) (cols : Columns V)
  | leafB1 (aux : ℕ) (node : Ranked V)
  | fullExpanse (aux : ℕ)
  | branch (aux : ℕ) (node : Branch (Edge V))

namespace Edge

variable {V : Type}

def isNull : Edge V → Bool
  | null => true
  | _ => false

instance : Nullable (Edge V) where
  null := null
  isNull := isNull
  isNull_iff := by
    intro e
    cases e <;> simp [isNull]

@[simp] theorem nullable_null : (Nullable.null : Edge V) = null := rfl

/-- Prefix every key of a list by a constant. -/
def shift (n : ℕ) (l : List (ℕ × V)) : List (ℕ × V) := l.map fun e => (n + e.1, e.2)

variable [Inhabited V]

/-- The entries below an edge in a slot of `L` undecoded bytes, in key order. -/
def entries : ℕ → Edge V → List (ℕ × V)
  | _, null => []
  | _, immed _ cols => cols.entries
  | L, leaf kb aux cols => shift (slice aux kb L * 256 ^ kb) cols.entries
  | L, leafB1 aux node => shift (slice aux 1 L * 256 ^ 1) node.entries
  | L, fullExpanse _ => (List.range (256 ^ L)).map fun k => (k, default)
  | L, branch aux node =>
    if _h : 1 ≤ node.level L ∧ node.level L ≤ L then
      node.slots.flatMap fun s =>
        shift (slice aux (node.level L) L * 256 ^ node.level L + s.1 * 256 ^ (node.level L - 1))
          (entries (node.level L - 1) s.2)
    else []
termination_by L => L
decreasing_by omega

/-- A branch's population field is exact. Level 8 has no such field. -/
def Exact (L : ℕ) : Edge V → Prop
  | branch aux node =>
    node.level L ≤ 7 →
      Aux.pop0 aux (node.level L) + 1 = (entries L (branch aux node)).length
  | _ => True

/-- Populations at which each branch layout is kept. -/
def InRange : Branch (Edge V) → Prop
  | .linear _ _ _ => True
  | .bitmap _ kids => BRANCH_L7_CAP ≤ Bitmap.count kids.bits ∧ Bitmap.count kids.bits ≤ BRANCHB_UP
  | .uncompressed edges => BRANCHU_TO_B_DOWN < (Branch.uncompressed edges).count

/-- The structural invariant of an edge in a slot at level `L`; below a branch every child is
also exact. A leaf of `kb`-byte keys in a slot at level `L` holds at least `lo L kb` keys:
zero asks nothing, the immediate capacity is the hysteresis floor of the validator. -/
def Shape (fl : Flavour) (lo : ℕ → ℕ → ℕ) : ℕ → Edge V → Prop
  | _, null => True
  | L, immed kb cols =>
    kb = L ∧ 1 ≤ L ∧ L ≤ 7 ∧ cols.Packed kb ∧ 1 ≤ cols.size ∧ cols.size ≤ fl.immedMax kb
  | L, leaf kb aux cols =>
    1 ≤ kb ∧ kb ≤ L ∧ L ≤ 7 ∧ cols.Packed kb ∧ 1 ≤ cols.size ∧ cols.size ≤ leafCap kb ∧
      Aux.pop0 aux kb + 1 = cols.size ∧ lo L kb ≤ cols.size
  | L, leafB1 aux node =>
    1 ≤ L ∧ L ≤ 7 ∧ node.Ok ∧ LEAFB1_DOWN ≤ Bitmap.count node.bits ∧
      Aux.pop0 aux 1 + 1 = Bitmap.count node.bits
  | L, fullExpanse aux => fl = .set ∧ L = 1 ∧ Aux.pop0 aux 1 = 255
  | L, branch _ node =>
    L ≤ 8 ∧ (L = 8 → node.level L = 8) ∧ node.Ok ∧ node.Filled ∧ InRange node ∧
      ∃ _h : 2 ≤ node.level L ∧ node.level L ≤ L, ∀ d c, node.find d = some c →
        Shape fl lo (node.level L - 1) c ∧ Exact (node.level L - 1) c
termination_by L => L
decreasing_by omega

/-- What the readers rely on: packed leaves with their own populations, well-formed nodes at levels
that fit the slot, and `P` of every branch node. The populations of branches are left out: the
insert path defers them. -/
def Readable (fl : Flavour) (P : Branch (Edge V) → Prop) : ℕ → Edge V → Prop
  | _, null => True
  | L, immed kb cols => kb = L ∧ 1 ≤ L ∧ cols.Packed kb ∧ 1 ≤ cols.size
  | L, leaf kb aux cols =>
    1 ≤ kb ∧ kb ≤ L ∧ cols.Packed kb ∧ 1 ≤ cols.size ∧ Aux.pop0 aux kb + 1 = cols.size
  | L, leafB1 aux node =>
    1 ≤ L ∧ node.Ok ∧ 1 ≤ Bitmap.count node.bits ∧ Aux.pop0 aux 1 + 1 = Bitmap.count node.bits
  | L, fullExpanse _ => fl = .set ∧ L = 1
  | L, branch _ node =>
    node.Ok ∧ node.Filled ∧ P node ∧
      ∃ _h : 2 ≤ node.level L ∧ node.level L ≤ L, ∀ d c, node.find d = some c →
        Readable fl P (node.level L - 1) c
termination_by L => L
decreasing_by omega

/-- A well-formed edge: structure and exact population. -/
def WF (fl : Flavour) (lo : ℕ → ℕ → ℕ) (L : ℕ) (e : Edge V) : Prop := Shape fl lo L e ∧ Exact L e

end Edge

end Expanse
