import Expanse.Leaf.Kernels

/-!
# Searching packed keys

The searches at a fixed key width: a kernel where the capacity class holds the bytes it loads, an
unrolled chain up to four keys, and binary search otherwise. The needle of `lowerBoundFixed` and
`locateFixed` is masked to the key width by the callers; `searchFixed` masks it itself. `keys` is the
position of the key area in its allocation.
-/

namespace Expanse.Leaf

/-- The widths of an integer type, at which a key is one access. -/
def IsWord (kb : ℕ) : Prop := kb = 1 ∨ kb = 2 ∨ kb = 4

instance (kb : ℕ) : Decidable (IsWord kb) := inferInstanceAs (Decidable (_ ∨ _))

/-- Key `slot` as the unrolled chains read it. -/
def readChain (kb : ℕ) (buf : List ℕ) (keys slot : ℕ) : Except Fault ℕ :=
  if IsWord kb then readUnaligned buf (keys + slot * kb) kb else readPackedFixed kb buf keys slot

/-- The needle in the type that the unrolled chains compare in. -/
def chainNeedle (kb needle : ℕ) : ℕ := if IsWord kb then needle % 256 ^ kb else needle

/-- One if key `slot` is below the needle. -/
def countBelow (read : ℕ → Except Fault ℕ) (n slot : ℕ) : Except Fault ℕ := do
  let v ← read slot
  return if v < n then 1 else 0

def lowerBoundChain (read : ℕ → Except Fault ℕ) (n : ℕ) : ℕ → Except Fault ℕ
  | 0 => .ok 0
  | 1 => countBelow read n 0
  | 2 => do
    let c0 ← countBelow read n 0
    let c1 ← countBelow read n 1
    return c0 + c1
  | 3 => do
    let c0 ← countBelow read n 0
    let c1 ← countBelow read n 1
    let c2 ← countBelow read n 2
    return c0 + c1 + c2
  | _ => do
    let c0 ← countBelow read n 0
    let c1 ← countBelow read n 1
    let c2 ← countBelow read n 2
    let c3 ← countBelow read n 3
    return c0 + c1 + c2 + c3

/-- The binary search; the interval shrinks in every round, so `pop` rounds suffice. -/
def lowerBoundLoop (kb : ℕ) (buf : List ℕ) (keys needle : ℕ) : ℕ → ℕ → ℕ → Except Fault ℕ
  | 0, lo, _ => .ok lo
  | fuel + 1, lo, hi =>
    if lo < hi then do
      let mid := (lo + hi) / 2
      let v ← readPackedFixed kb buf keys mid
      if v < needle then lowerBoundLoop kb buf keys needle fuel (mid + 1) hi
      else lowerBoundLoop kb buf keys needle fuel lo mid
    else .ok lo

def lowerBoundFixed (arch : Arch) (kb : ℕ) (buf : List ℕ) (keys pop needle : ℕ) : Except Fault ℕ :=
  if kb = 1 ∧ 13 ≤ pop ∧ pop ≤ 16 then lowerBound16U8 arch buf keys pop (needle % 256)
  else if kb = 1 ∧ 5 ≤ pop ∧ pop ≤ 8 then lowerBound8U8 arch buf keys pop (needle % 256)
  else if kb = 2 ∧ 5 ≤ pop ∧ pop ≤ 8 then lowerBound8U16 arch buf keys pop (needle % 256 ^ 2)
  else if kb = 4 ∧ 3 ≤ pop ∧ pop ≤ 4 then lowerBound4U32 arch buf keys pop (needle % 256 ^ 4)
  else if pop ≤ 4 then lowerBoundChain (readChain kb buf keys) (chainNeedle kb needle) pop
  else lowerBoundLoop kb buf keys needle pop 0 pop

/-- Whether slot `pos` is a key and holds the needle. -/
def holds (kb : ℕ) (buf : List ℕ) (keys pop needle pos : ℕ) : Except Fault Bool :=
  if pos < pop then do
    let v ← readPackedFixed kb buf keys pos
    return v == needle
  else .ok false

def locateFixed (arch : Arch) (kb : ℕ) (buf : List ℕ) (keys pop needle : ℕ) :
    Except Fault (Except ℕ ℕ) :=
  if pop = 0 then .ok (.error 0)
  else do
    let pos ← lowerBoundFixed arch kb buf keys pop needle
    let hit ← holds kb buf keys pop needle pos
    return if hit then .ok pos else .error pos

/-- One comparison of the unrolled chain, and what follows when it fails. -/
def probe (read : ℕ → Except Fault ℕ) (n pop slot : ℕ) (rest : Except Fault (Option ℕ)) :
    Except Fault (Option ℕ) :=
  if slot + 1 ≤ pop then do
    let v ← read slot
    if v = n then return some slot else rest
  else rest

def searchChain (read : ℕ → Except Fault ℕ) (n pop : ℕ) : Except Fault (Option ℕ) :=
  probe read n pop 0 (probe read n pop 1 (probe read n pop 2 (probe read n pop 3 (.ok none))))

def searchFixed (arch : Arch) (kb : ℕ) (buf : List ℕ) (keys pop key : ℕ) : Except Fault (Option ℕ) :=
  if kb = 1 ∧ pop = 16 then search16U8 arch buf keys 16 (key % 256)
  else if kb = 1 ∧ pop = 8 then search8U8 arch buf keys 8 (key % 256)
  else if kb = 2 ∧ pop = 8 then search8U16 arch buf keys 8 (key % 256 ^ 2)
  else if kb = 4 ∧ pop = 4 then search4U32 arch buf keys 4 (key % 256 ^ 4)
  else if pop ≤ 4 then
    searchChain (readChain kb buf keys) (chainNeedle kb (keyLow key kb)) pop
  else do
    let needle := keyLow key kb
    let pos ← lowerBoundFixed arch kb buf keys pop needle
    let hit ← holds kb buf keys pop needle pos
    return if hit then some pos else none

end Expanse.Leaf
