import Expanse.Library.Fanout
import Expanse.Trie32.Ops
import Expanse.Trie32.BranchSpec

/-!
# Trees without handles

A tree of the 32-bit engine with the arena taken away: the forms, the entries of each terminal
and the children of each branch, in digit order. The point operations are functions on such
trees. They take the decisions of the walks, so that a walk only has to be shown to follow
them, whatever its flag, its handles and the spare bytes of its nodes are.
-/

namespace Expanse.Trie32

open SortedAssoc

inductive Tree where
  | null
  | immed (l : List (ℕ × ℕ))
  | leaf (l : List (ℕ × ℕ))
  | bitmap (l : List (ℕ × ℕ))
  | branch (form : Form) (kids : List (ℕ × Tree))

/-- Entries that a linear leaf can hold. -/
def leafTop (fl : Flavour) (kb : ℕ) : ℕ := if kb = 1 then bitmapEnter fl else leafMax fl

/-- Entries of a terminal: ascending, and of the width of the slot. -/
structure Held (fl : Flavour) (kb : ℕ) (l : List (ℕ × ℕ)) : Prop where
  fit : Fit (valueWidth fl) kb l
  sorted : KeySorted l

namespace Tree

def isNull : Tree → Bool
  | null => true
  | _ => false

/-- The entries below a slot of `kb` key bytes, in key order. -/
def entries : ℕ → Tree → List (ℕ × ℕ)
  | _, null => []
  | _, immed l => l
  | _, leaf l => l
  | _, bitmap l => l
  | kb + 1, branch _ kids => fanout (256 ^ kb) (entries kb) kids
  | 0, branch _ _ => []

/-- What every tree keeps: each form at the populations and levels that it admits. -/
def Ok (fl : Flavour) : ℕ → Tree → Prop
  | _, null => True
  | kb, immed l => Held fl kb l ∧ 1 ≤ l.length ∧ l.length ≤ immedCap fl kb
  | kb, leaf l => Held fl kb l ∧ immedCap fl kb < l.length ∧ l.length ≤ leafTop fl kb
  | kb, bitmap l => kb = 1 ∧ Held fl 1 l ∧ bitmapLeave fl < l.length
  | kb + 1, branch form kids =>
    1 ≤ kb ∧ KeySorted kids ∧ form.downAt < kids.length ∧ kids.length ≤ form.cap ∧
      ∀ c ∈ kids, c.1 < 256 ∧ c.2 ≠ null ∧ Ok fl kb c.2
  | 0, branch _ _ => False

def find : ℕ → Tree → ℕ → Option ℕ
  | kb + 1, branch _ kids, rem =>
    (kids.lookup (digitAt rem (kb + 1))).bind fun c => find kb c (childRem rem (kb + 1))
  | kb, t, rem => (entries kb t).lookup rem

/-- An insertion below a branch, given the one below its children. -/
def intoBranch (ins : Tree → ℕ → ℕ → Option ℕ × Tree) (kb : ℕ) (t : Tree) (rem val : ℕ) :
    Option ℕ × Tree :=
  match t with
  | branch form kids =>
    let d := digitAt rem (kb + 1)
    let cr := childRem rem (kb + 1)
    match kids.lookup d with
    | some c => ((ins c cr val).1, branch form (put d (ins c cr val).2 kids))
    | none => (none, branch (form.grown (kids.length + 1)) (put d (ins null cr val).2 kids))
  | t => (none, t)

/-- The insertion of entries into a fresh branch, one after the other. -/
def spread (ins : Tree → ℕ → ℕ → Option ℕ × Tree) (kb : ℕ) (l : List (ℕ × ℕ)) : Tree :=
  l.foldl (fun t e => (intoBranch ins kb t e.1 e.2).2) (branch .l2 [])

/-- The previous value, and the tree after the insertion. -/
def insert (fl : Flavour) : ℕ → Tree → ℕ → ℕ → Option ℕ × Tree
  | 0, t, _, _ => (none, t)
  | kb + 1, t, rem, val =>
    match t with
    | null => (none, if 0 < immedCap fl (kb + 1) then immed [(rem, val)] else leaf [(rem, val)])
    | immed l =>
      (l.lookup rem,
        if (l.lookup rem).isSome ∨ l.length < immedCap fl (kb + 1) then immed (put rem val l)
        else leaf (put rem val l))
    | leaf l =>
      (l.lookup rem,
        if (l.lookup rem).isSome then leaf (put rem val l)
        else if kb = 0 ∧ bitmapEnter fl < l.length + 1 then bitmap (put rem val l)
        else if 1 ≤ kb ∧ leafMax fl < l.length + 1 then spread (insert fl kb) kb (l ++ [(rem, val)])
        else leaf (put rem val l))
    | bitmap l => (l.lookup rem, bitmap (put rem val l))
    | branch form kids => intoBranch (insert fl kb) kb (branch form kids) rem val

/-- The insertion ends at a leaf that it turns into a branch. -/
def Overflows (fl : Flavour) : ℕ → Tree → ℕ → Prop
  | kb + 1, leaf l, rem => 1 ≤ kb ∧ leafMax fl < l.length + 1 ∧ l.lookup rem = none
  | kb + 1, branch _ kids, rem =>
    ∃ c, kids.lookup (digitAt rem (kb + 1)) = some c ∧ Overflows fl kb c (childRem rem (kb + 1))
  | _, _, _ => False

/-- What a terminal becomes that keeps `l`. -/
def shrunkLeaf (fl : Flavour) (kb : ℕ) (l : List (ℕ × ℕ)) : Tree :=
  if l.length = 0 then null else if l.length ≤ immedCap fl kb then immed l else leaf l

/-- The value removed, and the tree after the removal. -/
def remove (fl : Flavour) : ℕ → Tree → ℕ → Option ℕ × Tree
  | 0, t, _ => (none, t)
  | kb + 1, t, rem =>
    match t with
    | null => (none, null)
    | immed l => (l.lookup rem, shrunkLeaf fl (kb + 1) (del rem l))
    | leaf l => (l.lookup rem, if (l.lookup rem).isSome then shrunkLeaf fl (kb + 1) (del rem l) else leaf l)
    | bitmap l =>
      (l.lookup rem,
        if (l.lookup rem).isSome ∧ (del rem l).length ≤ bitmapLeave fl then shrunkLeaf fl 1 (del rem l)
        else bitmap (del rem l))
    | branch form kids =>
      let d := digitAt rem (kb + 1)
      match kids.lookup d with
      | none => (none, branch form kids)
      | some c =>
        let r := remove fl kb c (childRem rem (kb + 1))
        (r.1,
          if r.1.isNone then branch form kids
          else if r.2.isNull then
            if del d kids = [] then null else branch (form.shrunk (del d kids).length) (del d kids)
          else branch form (put d r.2 kids))

end Tree

end Expanse.Trie32
