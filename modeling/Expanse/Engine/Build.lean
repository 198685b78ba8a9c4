import Expanse.Library.Grouping
import Expanse.Engine.Overflow

/-!
# Building a tree from sorted keys

`build_subtree` and its map twin emit a subtree bottom-up from sorted, distinct
entries that share their bytes above the slot's level: an immediate, a linear leaf
of full width, a bitmap leaf behind a narrow pointer, a full expanse, or a branch at
the level where the keys part, whose children are the runs of equal digits. An
uncompressed branch that would have to skip is hosted by a narrow branch with one
child.
-/

namespace Expanse

open Radix SortedAssoc Grouping

namespace Branch

variable {α : Type} [Nullable α]

/-- `build_branch`: the layout follows the number of children. -/
def build (level : ℕ) (kids : List (ℕ × α)) : Branch α :=
  let digits := kids.map Prod.fst
  let children := kids.map Prod.snd
  let hdr : BranchHeader := ⟨level, BranchHeader.refreshPresence digits, digits⟩
  if kids.length ≤ BRANCH_L3_CAP then linear .l3 hdr children
  else if kids.length ≤ BRANCH_L7_CAP then linear .l7 hdr children
  else if kids.length ≤ BRANCHB_UP then bitmap level (Ranked.ofEntries kids)
  else uncompressed (kids.foldl (fun edges k => edges.set k.1 k.2) (List.replicate 256 Nullable.null))

end Branch

namespace Edge

variable {V : Type}

/-- The keys below a slot of `L` bytes: the low bytes of each key. -/
def suffix (L : ℕ) (l : List (ℕ × V)) : List (ℕ × V) := l.map fun e => (low e.1 L, e.2)

def fullEdge (level : ℕ) : Edge V :=
  fullExpanse (if level ≤ 7 then Aux.setPop0 0 level (256 ^ level - 1) else 0)

/-- `set_skip_decode`: the digits above the final byte, from the number they form. -/
def setSkipDecode (aux level dv : ℕ) : ℕ :=
  if 1 < level then Aux.writeDecode aux 1 level (dv <<< 8) else aux

/-- `wrap_u_narrow`: a branch with one child at `bl + 1` carries the skip of an uncompressed one. -/
def wrapUNarrow (childU : Edge V) (bl slotLevel repKey n : ℕ) : Edge V :=
  let d := digit repKey (bl + 1)
  let aux := if bl + 1 < slotLevel then Aux.writeDecode 0 (bl + 1) slotLevel repKey else 0
  branch (if bl < 7 then Aux.setPop0 aux (bl + 1) (n - 1) else aux)
    (.linear .l3 ⟨bl + 1, BranchHeader.refreshPresence [d], [d]⟩ [childU])

/-- The edge of a freshly built branch: population, then the skip up to the slot's level. -/
def stampBranch (node : Branch (Edge V)) (bl slotLevel repKey n : ℕ) : Edge V :=
  let aux := if bl ≤ 7 then Aux.setPop0 0 bl (n - 1) else 0
  if bl < slotLevel then
    match node with
    | .uncompressed _ => wrapUNarrow (branch aux node) bl slotLevel repKey n
    | _ => branch (Aux.writeDecode aux bl slotLevel repKey) node
  else branch aux node

def buildKids (build : List (ℕ × V) → Except Fault (Edge V)) :
    List (ℕ × List (ℕ × V)) → Except Fault (List (ℕ × Edge V))
  | [] => .ok []
  | (d, run) :: more =>
    match build run with
    | .error f => .error f
    | .ok child =>
      match buildKids build more with
      | .error f => .error f
      | .ok kids => .ok ((d, child) :: kids)

/-- `build_branch_from_keys`, and `build_map_branch`. -/
def buildBranchFromKeys (build : List (ℕ × V) → Except Fault (Edge V)) (l : List (ℕ × V))
    (slotLevel bl : ℕ) : Except Fault (Edge V) :=
  match buildKids build (runsBy (fun e => digit e.1 bl) l) with
  | .error f => .error f
  | .ok kids => .ok (stampBranch (Branch.build bl kids) bl slotLevel (firstKey l) l.length)

variable [Inhabited V]

/-- `build_leaf_from_bitmap`: the terminal of a set for the final bytes in `bm`, below the digits
that `dv` spells. -/
def buildLeafFromBitmap (bm level dv : ℕ) : Option (Edge V) :=
  let count := Bitmap.count bm
  let finals := (Bitmap.digits bm).map fun b => (b, (default : V))
  let base := dv <<< 8
  if count = 0 then none
  else if count = 256 ∧ level = 1 then some (fullEdge 1)
  else if count ≤ Flavour.set.immedMax level then
    some (immed level (Columns.ofEntries (finals.map fun e => (base ||| e.1, e.2))))
  else if count ≤ LEAF1_CAP then
    some (leaf 1 (setSkipDecode (Aux.setPop0 0 1 (count - 1)) level dv) (Columns.ofEntries finals))
  else
    some (leafB1 (setSkipDecode (Aux.setPop0 0 1 (count - 1)) level dv) (Ranked.ofEntries finals))

/-- `build_terminal`: keys that differ in their final byte only. -/
def buildTerminal (l : List (ℕ × V)) (level : ℕ) : Except Fault (Edge V) :=
  let bm := l.foldl (fun bm e => Bitmap.set bm (digit e.1 1)) 0
  let dv := if 1 < level then slice (firstKey l) 1 level else 0
  match buildLeafFromBitmap bm level dv with
  | some e => .ok e
  | none => .error .unreachable

/-- `build_subtree`. -/
def buildSubtree : ℕ → List (ℕ × V) → ℕ → Except Fault (Edge V)
  | 0, _, _ => .error .fuel
  | fuel + 1, l, level =>
    let n := l.length
    if level = 8 then buildBranchFromKeys (fun run => buildSubtree fuel run 7) l 8 8
    else if n = 1 then .ok (immed level (Columns.ofEntries (suffix level l)))
    else
      let bl := divergenceLevel (firstKey l) (lastKey l) level
      if n ≤ Flavour.set.immedMax level then .ok (immed level (Columns.ofEntries (suffix level l)))
      else if n ≤ leafCap level then
        .ok (leaf level (Aux.setPop0 0 level (n - 1)) (Columns.ofEntries (suffix level l)))
      else if bl = 1 then buildTerminal l level
      else buildBranchFromKeys (fun run => buildSubtree fuel run (bl - 1)) l level bl

/-- `build_map_subtree`. -/
def buildMapSubtree : ℕ → List (ℕ × V) → ℕ → Except Fault (Edge V)
  | 0, _, _ => .error .fuel
  | fuel + 1, l, level =>
    let n := l.length
    if level = 8 then buildBranchFromKeys (fun run => buildMapSubtree fuel run 7) l 8 8
    else if n ≤ Flavour.map.immedMax level then
      .ok (immed level (Columns.ofEntries (suffix level l)))
    else if n ≤ leafCap level then
      .ok (leaf level (Aux.setPop0 0 level (n - 1)) (Columns.ofEntries (suffix level l)))
    else
      let bl := if level = 1 then 1 else divergenceLevel (firstKey l) (lastKey l) level
      if bl = 1 then
        match buildBitmapLeafMap (l.map fun e => (low e.1 1, e.2)) with
        | .error f => .error f
        | .ok node =>
          let aux := Aux.setPop0 0 1 (n - 1)
          .ok (leafB1 (if 1 < level then Aux.writeDecode aux 1 level (firstKey l) else aux) node)
      else buildBranchFromKeys (fun run => buildMapSubtree fuel run (bl - 1)) l level bl

end Edge

end Expanse
