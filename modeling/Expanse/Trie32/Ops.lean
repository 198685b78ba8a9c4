import Expanse.Trie32.Branch
import Expanse.Trie32.Leaf
import Expanse.Library.Radix
import Expanse.Library.SortedAssoc

/-!
# Point operations of the 32-bit engine

One walk serves sets and maps, plain and shared trees. A set stores the value 0 under
each key; its insertion reports a key as present by its value. The edge of a walk is
passed in and handed back, as the source rewrites it in place. `kb` is the number of key
bytes that remain at an edge, and `rem` is that part of the key.

A leaf that outgrows its form is inserted key by key into an empty branch at the same
level, so an insertion calls itself both at its own level and one below: the recursion is
on a fuel that the containers set.
-/

namespace Expanse.Trie32

open Arrays Packed SortedAssoc

def KEY_BYTES : ℕ := 4

def FUEL : ℕ := 2 * KEY_BYTES

/-- `digit_at`. -/
def digitAt (rem kb : ℕ) : ℕ := Radix.digit rem kb

/-- `child_rem`. -/
def childRem (rem kb : ℕ) : ℕ := Radix.low rem (kb - 1)

/-- Entries that an edge can hold without a node. -/
def immedCap (fl : Flavour) (kb : ℕ) : ℕ :=
  match fl with
  | .set => setImmedCap kb
  | .map => if kb ≤ 3 then 1 else 0

/-- Entries of a linear leaf above which it becomes a branch. -/
def leafMax : Flavour → ℕ
  | .set => SET_LEAF_MAX
  | .map => MAP_LEAF_MAX

def bitmapEnter : Flavour → ℕ
  | .set => SET_BITMAP_ENTER
  | .map => MAP_BITMAP_ENTER

def bitmapLeave : Flavour → ℕ
  | .set => SET_BITMAP_LEAVE
  | .map => MAP_BITMAP_LEAVE

/-- `set_immed_edge` and `map_immed_edge`. -/
def immedEdge (fl : Flavour) (kb : ℕ) (l : List (ℕ × ℕ)) : Edge32 :=
  match fl with
  | .set => .setImmed kb (l.map Prod.fst)
  | .map =>
    match l with
    | (r, v) :: _ => .mapImmed kb r v
    | [] => .null

def bitmapEdge (fl : Flavour) (h : ℕ) : Edge32 :=
  match fl with
  | .set => .bitmap h
  | .map => .mapBitmap h

/-- `bitmap_from_keys` and `make_map_bitmap`. -/
def makeBitmap (fl : Flavour) (a : Arena) (l : List (ℕ × ℕ)) : Except Fault (Edge32 × Arena) := do
  match fl with
  | .set =>
    let (h, a) ← a.alloc (.bitmap (bitmapFromKeys l))
    pure (.bitmap h, a)
  | .map =>
    let (h, a) ← a.alloc (.mapBitmap (mapBitmapOf l))
    pure (.mapBitmap h, a)

/-- The kinds of an edge that the walks of one flavour tell apart. -/
inductive Kind where
  | null
  | immed (l : List (ℕ × ℕ))
  | leaf (h pop : ℕ)
  | bitmap (h : ℕ)
  | branch (form : Form) (h : ℕ)
  | foreign

def kind (fl : Flavour) (e : Edge32) : Kind :=
  match fl, e with
  | _, .null => .null
  | .set, .setImmed _ keys => .immed (keys.map fun k => (k, 0))
  | .map, .mapImmed _ r v => .immed [(r, v)]
  | .set, .setLeaf _ h pop => .leaf h pop
  | .map, .mapLeaf _ h pop => .leaf h pop
  | .set, .bitmap h => .bitmap h
  | .map, .mapBitmap h => .bitmap h
  | _, .branch form h => .branch form h
  | _, _ => .foreign

/-- Set a digit of a bitmap leaf: the value it had. -/
def bitmapInsertAt (shared : Bool) (fl : Flavour) (a : Arena) (h digit val : ℕ) :
    Except Fault (Option ℕ × Arena) :=
  match fl with
  | .set => do
    let (inserted, a) ← setBitmapInsertAt shared a h digit
    pure (if inserted then none else some 0, a)
  | .map => mapBitmapInsertAt shared a h digit val

/-- Clear a digit of a bitmap leaf: the value it had, with the population that is left. -/
def bitmapRemoveAt (shared : Bool) (fl : Flavour) (a : Arena) (h digit : ℕ) :
    Except Fault (Option (ℕ × ℕ) × Arena) :=
  match fl with
  | .set => do
    let (removed, a) ← setBitmapRemoveAt shared a h digit
    if removed then
      let b ← a.bitmap h
      pure (some (0, b.pop0), a)
    else pure (none, a)
  | .map => mapBitmapRemoveAt shared a h digit

/-- `bitmap_keys` and `read_map_bitmap`. -/
def readBitmap (fl : Flavour) (a : Arena) (h : ℕ) : Except Fault (List (ℕ × ℕ)) :=
  match fl with
  | .set => do
    let b ← a.bitmap h
    pure (bitmapKeys b)
  | .map => do
    let b ← a.mapBitmap h
    readMapBitmap b

/-- `set_contains` and `map_get`: the value of a key. -/
def find (fl : Flavour) (a : Arena) : ℕ → Edge32 → ℕ → ℕ → Except Fault (Option ℕ)
  | 0, _, _, _ => .error .outOfFuel
  | fuel + 1, e, kb, rem =>
    match kind fl e with
    | .null => .ok none
    | .immed l => .ok (l.lookup rem)
    | .leaf h pop => do
      let vw := valueWidth fl
      let buf ← a.leaf h (keysOff vw pop + pop * kb)
      let pos := leafLowerBound (keysOff vw pop) kb buf pop rem
      if pos < pop ∧ readRem (keysOff vw pop) kb buf pos = rem then pure (some (readRem 0 vw buf pos))
      else pure none
    | .bitmap h =>
      match fl with
      | .set => do
        let b ← a.bitmap h
        pure (if testDigit false b.bits (rem % 256) then some 0 else none)
      | .map => do
        let b ← a.mapBitmap h
        mapBitmapGet b (rem % 256)
    | .branch form h => do
      match ← branchChild a form h (digitAt rem kb) with
      | some c => find fl a fuel c (kb - 1) (childRem rem kb)
      | none => pure none
    | .foreign => .ok none

/-- `Finger32`: the path to the map bitmap leaf that the last insertion reached. -/
structure Finger where
  pre : ℕ
  leaf : ℕ
  ancestors : List Edge32
  valid : Bool
deriving DecidableEq

namespace Finger

def new : Finger := ⟨0, 0, [], false⟩

def setPre (f : Finger) (pre : ℕ) : Finger := { f with pre := pre }

def clear (f : Finger) : Finger := { f with valid := false }

def arm (f : Finger) (leaf : ℕ) : Finger := { f with leaf := leaf, ancestors := [], valid := true }

def record (f : Finger) (e : Edge32) : Finger :=
  if f.valid ∧ f.ancestors.length < 3 then { f with ancestors := f.ancestors ++ [e] } else f

end Finger

/-- What an insertion hands back: the previous value, the edge, the finger and the arena. -/
structure Inserted where
  prev : Option ℕ
  edge : Edge32
  finger : Finger
  arena : Arena

def insertAll (insert : Arena → Edge32 → ℕ → ℕ → Except Fault Inserted) :
    Arena → Edge32 → List (ℕ × ℕ) → Except Fault (Edge32 × Arena)
  | a, e, [] => .ok (e, a)
  | a, e, (k, v) :: l => do
    let r ← insert a e k v
    insertAll insert r.arena r.edge l

/-- `set_insert_mode` and `map_insert_f_mode`. -/
def insertMode (shared : Bool) (fl : Flavour) :
    ℕ → Arena → Edge32 → ℕ → ℕ → ℕ → Finger → Except Fault Inserted
  | 0, _, _, _, _, _, _ => .error .outOfFuel
  | fuel + 1, a, e, kb, rem, val, f =>
    match kind fl e with
    | .null =>
      if 0 < immedCap fl kb then .ok ⟨none, immedEdge fl kb [(rem, val)], f.clear, a⟩
      else do
        let (e, a) ← makeLeaf fl a kb [(rem, val)]
        pure ⟨none, e, f.clear, a⟩
    | .immed l =>
      match locate (l.map Prod.fst) rem with
      | .ok pos =>
        match fl with
        | .set => .ok ⟨some 0, e, f.clear, a⟩
        | .map => .ok ⟨l.lookup rem, immedEdge fl kb (l.set pos (rem, val)), f.clear, a⟩
      | .error pos =>
        if l.length < immedCap fl kb then
          .ok ⟨none, immedEdge fl kb (l.insertIdx pos (rem, val)), f.clear, a⟩
        else do
          let (e, a) ← makeLeaf fl a kb (l.insertIdx pos (rem, val))
          pure ⟨none, e, f.clear, a⟩
    | .leaf h pop => do
      let vw := valueWidth fl
      let buf ← a.leaf h (keysOff vw pop + pop * kb)
      let pos := leafInsertPos (keysOff vw pop) kb buf pop rem
      if pos < pop ∧ readRem (keysOff vw pop) kb buf pos = rem then
        match fl with
        | .set => pure ⟨some 0, e, f.clear, a⟩
        | .map =>
          let a ← leafOverwrite a h pos val
          pure ⟨some (readRem 0 vw buf pos), e, f.clear, a⟩
      else if kb = 1 ∧ bitmapEnter fl < pop + 1 then
        let (e, a) ← makeBitmap fl a ((readLeaf vw kb pop buf).insertIdx pos (rem, val))
        let a ← a.freeNode h
        pure ⟨none, e, f.clear, a⟩
      else if 2 ≤ kb ∧ leafMax fl < pop + 1 then
        let (e, a) ← makeBranch .l2 a kb [] 0
        let (e, a) ← insertAll (fun a e k v => insertMode shared fl fuel a e kb k v Finger.new) a e
          (readLeaf vw kb pop buf ++ [(rem, val)])
        let a ← a.freeNode h
        pure ⟨none, e, f.clear, a⟩
      else
        let (e, a) ← leafInsertAt shared fl a kb h pop pos rem val
        pure ⟨none, e, f.clear, a⟩
    | .bitmap h => do
      -- an insertion cannot move this leaf, so the path to it may be used again
      let (prev, a) ← bitmapInsertAt shared fl a h (rem % 256) val
      pure ⟨prev, e, if shared then f else f.arm h, a⟩
    | .branch form h => do
      let d := digitAt rem kb
      let cr := childRem rem kb
      match ← branchChild a form h d with
      | some child =>
        let r ← insertMode shared fl fuel a child (kb - 1) cr val f
        let changed := decide (r.edge ≠ child)
        let a ← if r.prev.isNone ∨ fl = .map ∧ changed then
            branchCommit r.arena form h d (if changed then some r.edge else none)
              (if r.prev.isNone then 1 else 0)
          else pure r.arena
        pure ⟨r.prev, e, (if changed then r.finger.clear else r.finger).record e, a⟩
      | none =>
        let r ← insertMode shared fl fuel a .null (kb - 1) cr val f
        let (e, a) ← branchInsertNew shared r.arena form h d r.edge 1
        pure ⟨none, e, r.finger.clear, a⟩
    | .foreign =>
      match fl with
      | .set => .error .wrongFlavour
      | .map => .ok ⟨none, e, f, a⟩

/-- What a removal hands back: the value removed, the edge and the arena. -/
structure Removed where
  prev : Option ℕ
  edge : Edge32
  arena : Arena

/-- `set_remove_mode` and `map_remove_mode`. -/
def removeMode (shared : Bool) (fl : Flavour) : ℕ → Arena → Edge32 → ℕ → ℕ → Except Fault Removed
  | 0, _, _, _, _ => .error .outOfFuel
  | fuel + 1, a, e, kb, rem =>
    match kind fl e with
    | .null => .ok ⟨none, e, a⟩
    | .immed l =>
      match locate (l.map Prod.fst) rem with
      | .ok pos =>
        .ok ⟨l.lookup rem, if l.length = 1 then .null else immedEdge fl kb (l.eraseIdx pos), a⟩
      | .error _ => .ok ⟨none, e, a⟩
    | .leaf h pop => do
      let vw := valueWidth fl
      let buf ← a.leaf h (keysOff vw pop + pop * kb)
      let pos := leafLowerBound (keysOff vw pop) kb buf pop rem
      if pos < pop ∧ readRem (keysOff vw pop) kb buf pos = rem then
        let old := readRem 0 vw buf pos
        if pop - 1 = 0 then
          let a ← a.freeNode h
          pure ⟨some old, .null, a⟩
        else if pop - 1 ≤ immedCap fl kb then
          let a ← a.freeNode h
          pure ⟨some old, immedEdge fl kb ((readLeaf vw kb pop buf).eraseIdx pos), a⟩
        else
          let (e, a) ← leafRemoveAt shared fl a kb h pop pos
          pure ⟨some old, e, a⟩
      else pure ⟨none, e, a⟩
    | .bitmap h => do
      let (removed, a) ← bitmapRemoveAt shared fl a h (rem % 256)
      match removed with
      | none => pure ⟨none, e, a⟩
      | some (old, pop) =>
        if pop = 0 then
          let a ← a.freeNode h
          pure ⟨some old, .null, a⟩
        else if pop ≤ bitmapLeave fl then
          let l ← readBitmap fl a h
          if l.length ≤ immedCap fl 1 then
            let a ← a.freeNode h
            pure ⟨some old, immedEdge fl 1 l, a⟩
          else
            let (e, a) ← makeLeaf fl a 1 l
            let a ← a.freeNode h
            pure ⟨some old, e, a⟩
        else pure ⟨some old, e, a⟩
    | .branch form h => do
      let d := digitAt rem kb
      match ← branchChild a form h d with
      | none => pure ⟨none, e, a⟩
      | some child =>
        let r ← removeMode shared fl fuel a child (kb - 1) (childRem rem kb)
        if r.prev.isSome then
          if r.edge = .null then
            let a ← branchCommit r.arena form h d none (-1)
            let (e, a) ← branchRemoveDigit shared a form h d
            pure ⟨r.prev, e, a⟩
          else
            let a ← branchCommit r.arena form h d (some r.edge) (-1)
            pure ⟨r.prev, e, a⟩
        else pure ⟨r.prev, e, r.arena⟩
    | .foreign => .ok ⟨none, e, a⟩

end Expanse.Trie32
