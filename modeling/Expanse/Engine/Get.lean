import Expanse.Engine.Content

/-!
# Lookup

`walk` is the read descent of both engines: sets ask whether it answers, maps
take the value word. `locateSlot` is the descent that hands out the address of a
value word. An address is a route of digits from the root and a position in the
terminal form; `slotEntry` reads the key and value it addresses and `writeSlot`
stores through it.
-/

namespace Expanse

open Radix SortedAssoc

/-- Where a terminal form keeps a value word. -/
inductive SlotPos where
  | index (i : ℕ)
  | sub (sub rank : ℕ)
deriving DecidableEq

/-- The address of a value word: the digits down to its terminal edge, then its position. -/
structure Slot where
  route : List ℕ
  pos : SlotPos
deriving DecidableEq

def Slot.under (d : ℕ) (s : Slot) : Slot := ⟨d :: s.route, s.pos⟩

namespace Edge

variable {V : Type} [Inhabited V]

/-- The read descent (`walk_set_impl`, `walk_map_impl`). A narrow pointer whose decode digits
differ from the key's ends the search. -/
def walk : ℕ → Edge V → ℕ → ℕ → Option V
  | 0, _, _, _ => none
  | fuel + 1, e, key, level =>
    match e with
    | null => none
    | immed kb cols => cols.find (low key kb)
    | leaf kb aux cols =>
      if kb < level && !Aux.decodeMatches aux key kb level then none else cols.find (low key kb)
    | leafB1 aux node =>
      if 1 < level && !Aux.decodeMatches aux key 1 level then none else node.get (digit key 1)
    | fullExpanse _ => some default
    | branch aux node =>
      let bl := node.level level
      if bl < level && !Aux.decodeMatches aux key bl level then none
      else
        match node.find (digit key bl) with
        | some c => walk fuel c key (bl - 1)
        | none => none

/-- The slot level and the edge at which the descent for a key ends: a form without children, or a
narrow branch pointer that the key leaves. -/
def terminal : ℕ → Edge V → ℕ → ℕ × Edge V
  | L, branch aux node, key =>
    if _h : 1 ≤ node.level L ∧ node.level L ≤ L then
      if slice key (node.level L) L = slice aux (node.level L) L then
        terminal (node.level L - 1) (node.child (digit key (node.level L))) key
      else (L, branch aux node)
    else (L, branch aux node)
  | L, e, _ => (L, e)
termination_by L => L
decreasing_by omega

/-- Position of the value word of a digit in a bitmap leaf. -/
def bitmapPos (node : Ranked V) (d : ℕ) : SlotPos :=
  .sub (d / 32) (Bitmap.subexpanseRank node.bits d)

/-- The descent that hands out the address of a key's value word. -/
def locateSlot : ℕ → Edge V → ℕ → ℕ → Option Slot
  | 0, _, _, _ => none
  | fuel + 1, e, key, level =>
    match e with
    | null => none
    | immed kb cols => (indexOf? cols.keys (low key kb)).map fun i => ⟨[], .index i⟩
    | leaf kb aux cols =>
      if kb < level && !Aux.decodeMatches aux key kb level then none
      else (indexOf? cols.keys (low key kb)).map fun i => ⟨[], .index i⟩
    | leafB1 aux node =>
      if 1 < level && !Aux.decodeMatches aux key 1 level then none
      else if node.bits.testBit (digit key 1) then some ⟨[], bitmapPos node (digit key 1)⟩ else none
    | fullExpanse _ => none
    | branch aux node =>
      let bl := node.level level
      if bl < level && !Aux.decodeMatches aux key bl level then none
      else
        match node.find (digit key bl) with
        | some c => (locateSlot fuel c key (bl - 1)).map (Slot.under (digit key bl))
        | none => none

/-- The suffix key and value at an address below an edge in a slot at level `L`. -/
def slotEntry : ℕ → Edge V → List ℕ → SlotPos → Option (ℕ × V)
  | _, immed _ cols, [], .index i => cols.entries[i]?
  | L, leaf kb aux cols, [], .index i =>
    cols.entries[i]?.map fun e => (slice aux kb L * 256 ^ kb + e.1, e.2)
  | L, leafB1 aux node, [], .sub s r =>
    (node.row s)[r]?.map fun e => (slice aux 1 L * 256 ^ 1 + e.1, e.2)
  | L, branch aux node, d :: ds, pos =>
    (slotEntry (node.level L - 1) (node.child d) ds pos).map fun e =>
      (slice aux (node.level L) L * 256 ^ node.level L + d * 256 ^ (node.level L - 1) + e.1, e.2)
  | _, _, _, _ => none

/-- Store through an address. -/
def writeSlot : Edge V → List ℕ → SlotPos → V → Edge V
  | immed kb cols, [], .index i, v => immed kb (cols.setVal i v)
  | leaf kb aux cols, [], .index i, v => leaf kb aux (cols.setVal i v)
  | leafB1 aux node, [], .sub s r, v =>
    leafB1 aux ⟨node.bits, node.subs.modify s fun row => row.set r v⟩
  | branch aux node, d :: ds, pos, v =>
    branch aux (node.setChild d (writeSlot (node.child d) ds pos v))
  | e, _, _, _ => e

/-- The value word an address reads. -/
def readSlot (e : Edge V) (s : Slot) (L : ℕ) : Option V := (slotEntry L e s.route s.pos).map Prod.snd

end Edge

end Expanse
