import Expanse.Engine.Skip
import Expanse.Engine.Insert

/-!
# Removal

The recursion of `remove` and `map_remove`. A terminal form gives up the key or
answers that it does not hold it; on the way back a branch closes the slot of a
child that became null, vanishes with its last slot, and moves to a smaller
layout below its hysteresis threshold.
-/

namespace Expanse

open Radix SortedAssoc

namespace Branch

variable {α : Type} [Nullable α]

/-- The slot search of a removal: both linear forms ask the presence filter first. -/
def findSlot (d : ℕ) : Branch α → Option α
  | linear _ hdr edges => (hdr.find d).bind (edges[·]?)
  | b => b.find d

/-- Move to a smaller layout when the population fell to the layout's threshold. -/
def demote (level : ℕ) (b : Branch α) : Branch α :=
  match b with
  | linear .l3 _ _ => b
  | linear .l7 _ _ => if b.count < BRANCH_L3_CAP then b.downgradeL7ToL3 else b
  | bitmap _ _ => if b.count ≤ BRANCHB_TO_L7_DOWN then b.downgradeBToL7 else b
  | uncompressed _ => if b.count ≤ BRANCHU_TO_B_DOWN then b.downgradeUToB level else b

end Branch

namespace Edge

variable {V : Type} [Inhabited V]

/-- What a branch becomes once the slot of `d` holds `c`. -/
def afterRemove (aux : ℕ) (node : Branch (Edge V)) (level d : ℕ) (c : Edge V) : Edge V :=
  let aux' := Aux.decPop0 aux (node.level level)
  if c.isNull then
    let node' := node.removeSlot d
    if node'.count = 0 then null else branch aux' (node'.demote level)
  else branch aux' (node.setChild d c)

/-- A bitmap leaf that lost a digit: below the hysteresis floor it becomes a linear leaf, or an
immediate when the slot's level holds that many keys. -/
def shrinkBitmap (fl : Flavour) (aux : ℕ) (node : Ranked V) (level : ℕ) : Edge V :=
  let pop := Aux.pop0 aux 1
  if pop < LEAFB1_DOWN then
    let all := node.entries
    if all.length < fl.immedMax level then
      immed level (Columns.ofEntries (absorbDecode aux 1 level all))
    else
      leaf 1 (Aux.restoreDecode (Aux.setPop0 0 1 (all.length - 1)) 1 level aux)
        (Columns.ofEntries all)
  else leafB1 (Aux.setPop0 aux 1 (pop - 1)) node

def materializeFull (level : ℕ) : Edge V :=
  if level = 1 then
    leafB1 (Aux.setPop0 0 1 255) (Ranked.ofEntries ((List.range 256).map fun d => (d, default)))
  else
    branch (Aux.setPop0 0 level (256 ^ level - 1))
      (.uncompressed (List.replicate 256
        (fullExpanse (Aux.setPop0 0 (level - 1) (256 ^ (level - 1) - 1)))))

/-- The removal: the value removed and the slot's new edge, or nothing when the key is absent. -/
def removeFlat (fl : Flavour) :
    ℕ → Edge V → ℕ → ℕ → Except Fault (Option (V × Edge V))
  | 0, _, _, _ => .error .fuel
  | fuel + 1, e, key, level =>
    match e with
    | null => .ok none
    | immed kb cols =>
      match locate cols.keys (low key kb) with
      | .error _ => .ok none
      | .ok pos =>
        let old := cols.vals[pos]?.getD default
        if cols.size = 1 then .ok (some (old, null))
        else .ok (some (old, immed kb (cols.removeAt pos)))
    | leaf kb aux cols =>
      if kb < level && !Aux.decodeMatches aux key kb level then .ok none
      else
        let pop := Aux.pop0 aux kb + 1
        match locate cols.keys (low key kb) with
        | .error _ => .ok none
        | .ok pos =>
          let old := cols.vals[pos]?.getD default
          if fl.immedMax level < pop then
            -- stays a leaf, in place or in a smaller allocation
            .ok (some (old, leaf kb (Aux.setPop0 aux kb (pop - 2)) (cols.removeAt pos)))
          else if pop = 1 then .ok (some (old, null))
          else
            .ok (some (old, immed level (Columns.ofEntries
              (absorbDecode aux kb level (cols.removeAt pos).entries))))
    | leafB1 aux node =>
      if 1 < level && !Aux.decodeMatches aux key 1 level then .ok none
      else
        match node.get (digit key 1) with
        | none => .ok none
        | some old => .ok (some (old, shrinkBitmap fl aux (node.remove (digit key 1)) level))
    | fullExpanse _ =>
      match fl with
      | .set => removeFlat fl fuel (materializeFull level) key level
      | .map => .error .unreachable
    | branch aux node =>
      let bl := node.level level
      if bl < level && !Aux.decodeMatches aux key bl level then .ok none
      else
        let d := digit key bl
        match node.findSlot d with
        | none => .ok none
        | some c =>
          match removeFlat fl fuel c key (bl - 1) with
          | .ok none => .ok none
          | .ok (some (old, c')) => .ok (some (old, afterRemove aux node level d c'))
          | .error f => .error f

end Edge

end Expanse
