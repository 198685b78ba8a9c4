import Expanse.Engine.Skip

/-!
# Ordered navigation, rank and select

`next` finds the smallest key at or above a suffix, `countBelow` counts the keys
strictly below one, and `byCount` selects the key with a given number of keys
below it. All work on suffixes of the slot's level. Children are visited in
digit order; rank and select read the populations that the edges carry.
-/

namespace Expanse.Edge

open Radix SortedAssoc

variable {V : Type} [Inhabited V]

/-- A digit or decode value above a child's suffix; the bits are disjoint, so or-ing adds. -/
def compose (d rem l : ℕ) : ℕ := d * 256 ^ l + rem

/-- Where a search for a suffix with upper part `q` and lower part `r` starts inside the
sub-expanse at `x`: at its start, at `r`, or nowhere. -/
def seekIn (x q r : ℕ) : Option ℕ := if q < x then some 0 else if q = x then some r else none

/-- The search position below a narrow pointer to a node at level `m`. -/
def enterSkip (aux m level suffix : ℕ) : Option ℕ :=
  seekIn (slice aux m level) (suffix / 256 ^ m) (low suffix m)

/-- The smallest key at or above `suffix`, with its value. -/
def next : ℕ → Edge V → ℕ → ℕ → Option (ℕ × V)
  | 0, _, _, _ => none
  | fuel + 1, e, suffix, level =>
    match e with
    | null => none
    | immed _ cols => firstFrom cols.entries suffix
    | leaf kb aux cols =>
      (enterSkip aux kb level suffix).bind fun k =>
        (firstFrom cols.entries k).map fun x => (compose (slice aux kb level) x.1 kb, x.2)
    | leafB1 aux node =>
      (enterSkip aux 1 level suffix).bind fun k =>
        (Bitmap.nextSet node.bits k).bind fun d =>
          (node.get d).map fun v => (compose (slice aux 1 level) d 1, v)
    | fullExpanse _ => some (suffix, default)
    | branch aux node =>
      let bl := node.level level
      (enterSkip aux bl level suffix).bind fun k =>
        let d := digit k bl
        (node.slots.dropWhile fun s => s.1 < d).findSome? fun s =>
          (next fuel s.2 (if s.1 = d then low k (bl - 1) else 0) (bl - 1)).map fun x =>
            (compose (slice aux bl level) (compose s.1 x.1 (bl - 1)) bl, x.2)

/-- The population an edge in a slot at `level` carries. -/
def edgePop (level : ℕ) : Edge V → ℕ
  | null => 0
  | immed _ cols => cols.size
  | leaf kb aux _ => Aux.pop0 aux kb + 1
  | leafB1 aux _ => Aux.pop0 aux 1 + 1
  | fullExpanse aux => Aux.pop0 aux level + 1
  | branch aux node => Aux.pop0 aux (node.level level) + 1

/-- The number of keys strictly below `suffix`. -/
def countBelow : ℕ → Edge V → ℕ → ℕ → ℕ
  | 0, _, _, _ => 0
  | fuel + 1, e, suffix, level =>
    match e with
    | null => 0
    | immed _ cols => lowerBound cols.keys suffix
    | leaf kb aux cols =>
      if suffix / 256 ^ kb < slice aux kb level then 0
      else if suffix / 256 ^ kb = slice aux kb level then lowerBound cols.keys (low suffix kb)
      else Aux.pop0 aux kb + 1
    | leafB1 aux node =>
      if suffix / 256 ^ 1 < slice aux 1 level then 0
      else if suffix / 256 ^ 1 = slice aux 1 level then
        ((Bitmap.digits node.bits).filter (· < low suffix 1)).length
      else Aux.pop0 aux 1 + 1
    | fullExpanse _ => suffix
    | branch aux node =>
      let bl := node.level level
      let below (s : ℕ) :=
        (node.slots.map fun c =>
          if c.1 < digit s bl then edgePop (bl - 1) c.2
          else if c.1 = digit s bl then countBelow fuel c.2 (low s (bl - 1)) (bl - 1)
          else 0).sum
      if bl < level then
        if suffix / 256 ^ bl < slice aux bl level then 0
        else if suffix / 256 ^ bl = slice aux bl level then below (low suffix bl)
        else Aux.pop0 aux bl + 1
      else below suffix

/-- The child that holds the entry of rank `n`, and the rank inside it. -/
def selectSlot (level : ℕ) : List (ℕ × Edge V) → ℕ → Option (ℕ × Edge V × ℕ)
  | [], _ => none
  | (d, c) :: rest, n =>
    if n < edgePop level c then some (d, c, n) else selectSlot level rest (n - edgePop level c)

/-- The key with `n` keys below it; nothing stands for a select beyond the population. -/
def byCount : ℕ → Edge V → ℕ → ℕ → Option (ℕ × V)
  | 0, _, _, _ => none
  | fuel + 1, e, n, level =>
    match e with
    | null => none
    | immed _ cols => cols.entries[n]?
    | leaf kb aux cols => cols.entries[n]?.map fun x => (compose (slice aux kb level) x.1 kb, x.2)
    | leafB1 aux node =>
      (Bitmap.digits node.bits)[n]?.bind fun d =>
        (node.get d).map fun v => (compose (slice aux 1 level) d 1, v)
    | fullExpanse _ => some (n, default)
    | branch aux node =>
      let bl := node.level level
      (selectSlot (bl - 1) node.slots n).bind fun s =>
        (byCount fuel s.2.1 s.2.2 (bl - 1)).map fun x =>
          (compose (slice aux bl level) (compose s.1 x.1 (bl - 1)) bl, x.2)

end Expanse.Edge
