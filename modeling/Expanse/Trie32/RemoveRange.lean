import Expanse.Trie32.Map
import Expanse.Trie32.Reads
import Expanse.Trie32.Set

/-!
# Removing a range

One descent removes all entries of a range: a terminal drops its part in one edit, and a branch
settles its counts and its form after each child that it went to. The entries are handed out in key
order, under their whole keys. The walk is the plain one.
-/

namespace Expanse.Trie32

open Bitmap Packed

/-- What a removal of a range leaves: the entries handed out, their number, the edge and the arena. -/
structure Swept where
  gone : List (ℕ × ℕ)
  count : ℕ
  edge : Edge32
  arena : Arena

def inRange (lo hi : ℕ) (x : ℕ × ℕ) : Bool := decide (lo ≤ x.1 ∧ x.1 ≤ hi)

def sweepImmed (fl : Flavour) (a : Arena) (e : Edge32) (kb pre lo hi : ℕ) (l : List (ℕ × ℕ)) : Swept :=
  let gone := l.filter (inRange lo hi)
  let rest := l.filter fun x => !inRange lo hi x
  if gone = [] then ⟨[], 0, e, a⟩
  else ⟨under pre gone, gone.length, if rest = [] then .null else immedEdge fl kb rest, a⟩

/-- The entries that an immediate takes over from a leaf. A map's immediate takes the one at the end
that stays. -/
def survivors (fl : Flavour) (kb pop i₀ i₁ : ℕ) (buf : List ℕ) : List (ℕ × ℕ) :=
  match fl with
  | .set => (List.range i₀ ++ List.range' i₁ (pop - i₁)).map (leafEntry (valueWidth .set) kb pop buf)
  | .map => [leafEntry (valueWidth .map) kb pop buf (if i₀ = 0 then pop - 1 else 0)]

def sweepLeaf (fl : Flavour) (a : Arena) (e : Edge32) (kb h pop pre lo hi : ℕ) : Except Fault Swept := do
  let vw := valueWidth fl
  let buf ← a.leaf h (keysOff vw pop + pop * kb)
  let i₀ := leafLowerBound (keysOff vw pop) kb buf pop lo
  let i₁ := if hi = remMask kb then pop else leafLowerBound (keysOff vw pop) kb buf pop (hi + 1)
  if i₁ ≤ i₀ then pure ⟨[], 0, e, a⟩
  else
    let gone := under pre ((List.range' i₀ (i₁ - i₀)).map (leafEntry vw kb pop buf))
    if pop - (i₁ - i₀) = 0 then
      let a ← a.freeNode h
      pure ⟨gone, i₁ - i₀, .null, a⟩
    else if pop - (i₁ - i₀) ≤ immedCap fl kb then
      let a ← a.freeNode h
      pure ⟨gone, i₁ - i₀, immedEdge fl kb (survivors fl kb pop i₀ i₁ buf), a⟩
    else
      let (e, a) ← leafRemoveSpan false fl a kb h pop i₀ i₁
      pure ⟨gone, i₁ - i₀, e, a⟩

/-- The digits of a set's bitmap leaf from `start` to `hi`. -/
def digitsTo (bits hi : ℕ) : ℕ → ℕ → Except Fault (List ℕ)
  | 0, _ => .error .outOfFuel
  | fuel + 1, start =>
    match bitmapFirstGe bits start with
    | some d => if hi < d then .ok [] else (digitsTo bits hi fuel (d + 1)).map (d :: ·)
    | none => .ok []

/-- The digits of one subarray, from rank `rank` on: the entries that go, and the values that stay. -/
def sortRow (existing : List ℕ) (hit : ℕ → Bool) : ℕ → List ℕ → Except Fault (List (ℕ × ℕ) × List ℕ)
  | _, [] => .ok ([], [])
  | rank, i :: is =>
    match existing[rank]? with
    | none => .error .outOfBounds
    | some v => do
      let (gone, keep) ← sortRow existing hit (rank + 1) is
      pure (if hit i then ((i, v) :: gone, keep) else (gone, v :: keep))

def dropRow (lo hi : ℕ) (b : MapBitmap) (sub : ℕ) : Except Fault (List (ℕ × ℕ) × MapBitmap × SubEdit) :=
  let subLo := sub * 32
  let subHi := subLo + 31
  if subHi < lo ∨ hi < subLo then .ok ([], b, ⟨none, 0⟩)
  else
    let base := sub % 2 * 32
    let word := field b.bits 64 (sub / 2)
    let first := max lo subLo - subLo
    let last := min hi subHi - subLo
    let hit := word &&& (2 ^ (last - first + 1) - 1) * 2 ^ (first + base)
    if hit = 0 then .ok ([], b, ⟨none, 0⟩)
    else
      match b.subs.getD sub none with
      | none => .ok ([], b, ⟨none, 0⟩)
      | some existing => do
        let half := field word 32 (sub % 2)
        let (gone, keep) ← sortRow existing (fun i => hit.testBit (base + i)) 0 (bitsOfWord half)
        let slot := if keep = [] then none else some (resize (capClass keep.length) 0 keep)
        pure (gone.map fun x => (subLo + x.1, x.2),
          ⟨storeField b.bits 64 (sub / 2) (word &&& (2 ^ 64 - 1 - hit)), b.pop0, b.subs.set sub slot⟩,
          ⟨some (existing.length * VALUE_SIZE), subarrayBytesDelta VALUE_SIZE (popcount half) keep.length⟩)

/-- The subarrays in turn, with the bytes of the allocations they replace and the change in all. -/
def dropRows (lo hi : ℕ) : List ℕ → MapBitmap → Except Fault (List (ℕ × ℕ) × MapBitmap × List ℕ × ℤ)
  | [], b => .ok ([], b, [], 0)
  | sub :: subs, b => do
    let (gone, b, edit) ← dropRow lo hi b sub
    let (gone', b, retired, delta) ← dropRows lo hi subs b
    pure (gone ++ gone', b, edit.retired.toList ++ retired, edit.delta + delta)

/-- Park one allocation after the other. -/
def Arena.retireAll : Arena → List ℕ → Except Fault Arena
  | a, [] => .ok a
  | a, n :: ns => do
    let a ← a.retire n
    a.retireAll ns

/-- Clear the digits of a range in a bitmap leaf: the entries that went, and the population left. -/
def dropDigits (fl : Flavour) (a : Arena) (h lo hi : ℕ) : Except Fault (List (ℕ × ℕ) × ℕ × Arena) :=
  match fl with
  | .set => do
    let b ← a.bitmap h
    let ds ← digitsTo b.bits hi 257 lo
    let b := ds.foldl (fun b d => (setBitmapRemove false b d).2) b
    pure (ds.map fun d => (d, 0), b.pop0, a.put h (.bitmap b))
  | .map => do
    let b ← a.mapBitmap h
    let (gone, b', retired, delta) ← dropRows lo hi (List.range 8) b
    if b.pop0 + 1 < gone.length then .error .underflow
    else
      let count := b.pop0 + 1 - gone.length
      let b' := if 0 < count then { b' with pop0 := count - 1 } else b'
      let a ← (a.put h (.mapBitmap b')).retireAll retired
      pure (gone, count, a.addBytes delta)

/-- The form of a bitmap leaf that keeps `pop` entries. -/
def settleBitmap (fl : Flavour) (a : Arena) (e : Edge32) (h pop : ℕ) : Except Fault (Edge32 × Arena) :=
  if pop = 0 then do
    let a ← a.freeNode h
    pure (.null, a)
  else if pop ≤ bitmapLeave fl then do
    let l ← readBitmap fl a h
    if l.length ≤ immedCap fl 1 then
      let a ← a.freeNode h
      pure (immedEdge fl 1 l, a)
    else
      let (e, a) ← makeLeaf fl a 1 l
      let a ← a.freeNode h
      pure (e, a)
  else .ok (e, a)

def sweepBitmap (fl : Flavour) (a : Arena) (e : Edge32) (h pre lo hi : ℕ) : Except Fault Swept := do
  let (gone, pop, a) ← dropDigits fl a h lo hi
  if gone = [] then pure ⟨[], 0, e, a⟩
  else
    let (e, a) ← settleBitmap fl a e h pop
    pure ⟨under pre gone, gone.length, e, a⟩

def sweepDigit (below : Arena → Edge32 → Except Fault Swept) (a : Arena) (e : Edge32) (d : ℕ) :
    Except Fault Swept :=
  match e with
  | .branch form h => do
    match ← branchChild a form h d with
    | none => pure ⟨[], 0, e, a⟩
    | some child =>
      let r ← below a child
      if r.count = 0 then pure ⟨r.gone, 0, e, r.arena⟩
      else if r.edge = .null then
        let a ← branchCommit r.arena form h d none (-r.count)
        let (e, a) ← branchRemoveDigit false a form h d
        pure ⟨r.gone, r.count, e, a⟩
      else
        let a ← branchCommit r.arena form h d (if r.edge ≠ child then some r.edge else none) (-r.count)
        pure ⟨r.gone, r.count, e, a⟩
  | _ => .error .wrongNode

/-- The digits in turn, until the branch is gone. -/
def sweepDigits (below : ℕ → Arena → Edge32 → Except Fault Swept) : List ℕ → Arena → Edge32 → Except Fault Swept
  | [], a, e => .ok ⟨[], 0, e, a⟩
  | d :: ds, a, e => do
    let r ← sweepDigit (below d) a e d
    if r.edge = .null then pure r
    else
      let r' ← sweepDigits below ds r.arena r.edge
      pure ⟨r.gone ++ r'.gone, r.count + r'.count, r'.edge, r'.arena⟩

/-- `set_remove_range` and `map_remove_range`. -/
def removeRange (fl : Flavour) : ℕ → Arena → Edge32 → ℕ → ℕ → ℕ → ℕ → Except Fault Swept
  | 0, _, _, _, _, _, _ => .error .outOfFuel
  | fuel + 1, a, e, kb, pre, lo, hi =>
    if hi < lo then .error .assertion
    else
      match kind fl e with
      | .null => .ok ⟨[], 0, e, a⟩
      | .immed l => .ok (sweepImmed fl a e kb pre lo hi l)
      | .leaf h pop => sweepLeaf fl a e kb h pop pre lo hi
      | .bitmap h => sweepBitmap fl a e h pre lo hi
      | .branch _ _ =>
        sweepDigits (fun d a c => removeRange fl fuel a c (kb - 1) (pre ||| d * 2 ^ (8 * (kb - 1)))
          (childRange kb lo hi d).1 (childRange kb lo hi d).2)
          (List.range' (digitAt lo kb) (digitAt hi kb + 1 - digitAt lo kb)) a e
      | .foreign => .error .wrongFlavour

/-- `remove_range`: what it hands out, the number it returns, and the map. -/
def ExpanseMap32.removeRange (m : ExpanseMap32) (lo hi : ℕ) : Except Fault ((List (ℕ × ℕ) × ℕ) × ExpanseMap32) :=
  if hi < lo then .ok (([], 0), m)
  else do
    let r ← Trie32.removeRange .map FUEL m.alloc m.root KEY_BYTES 0 lo hi
    if m.len < r.count then .error .underflow
    else pure ((r.gone, r.count), ⟨r.arena, r.edge, m.len - r.count, m.finger.clear⟩)

/-- `remove_range` of a set. -/
def ExpanseSet32.removeRange (s : ExpanseSet32) (lo hi : ℕ) : Except Fault ((List ℕ × ℕ) × ExpanseSet32) :=
  if hi < lo then .ok (([], 0), s)
  else do
    let r ← Trie32.removeRange .set FUEL s.alloc s.root KEY_BYTES 0 lo hi
    if s.len < r.count then .error .underflow
    else pure ((r.gone.map Prod.fst, r.count), ⟨r.arena, r.edge, s.len - r.count⟩)

end Expanse.Trie32
