import Expanse.Engine.Insert

/-!
# The cached insert path in the tree

A route of digits resolves to a terminal edge in a level-1 slot together with
the key bits above that slot. `flush` adds the deferred increments along a
route; `storeAt` writes through the cached terminal edge.
-/

namespace Expanse.Edge

open Radix SortedAssoc

variable {V : Type}

/-- The key bits above a level-1 slot and its edge. -/
def resolve : ℕ → Edge V → List ℕ → Option (ℕ × Edge V)
  | L, e, [] => if L = 1 then some (0, e) else none
  | L, branch aux node, d :: ds =>
    (resolve (node.level L - 1) (node.child d) ds).map fun r =>
      (slice aux (node.level L) L * 256 ^ (node.level L - 1) + d * 256 ^ (node.level L - 2) + r.1,
        r.2)
  | _, _, _ :: _ => none

/-- The population of a cached leaf, when the edge is of the cached kind. -/
def warmPop : WarmLeaf → Edge V → Option ℕ
  | .bitmap, leafB1 aux _ => some (Aux.pop0 aux 1 + 1)
  | .leaf1, leaf 1 aux _ => some (Aux.pop0 aux 1 + 1)
  | _, _ => none

/-- `flush`: add the pending increments to every ancestor below level 8. -/
def flushRoute (n : ℕ) : ℕ → Edge V → List ℕ → Edge V
  | L, branch aux node, d :: ds =>
    let bl := node.level L
    branch (if bl ≤ 7 then Aux.setPop0 aux bl (Aux.pop0 aux bl + n) else aux)
      (node.setChild d (flushRoute n (bl - 1) (node.child d) ds))
  | _, e, _ => e

/-- Store a new edge into the slot a route leads to. -/
def storeAt (t : Edge V) : Edge V → List ℕ → Edge V
  | _, [] => t
  | branch aux node, d :: ds => branch aux (node.setChild d (storeAt t (node.child d) ds))
  | e, _ :: _ => e

theorem resolve_setChild {L d u : ℕ} (aux : ℕ) {ds : List ℕ} {node : Branch (Edge V)} {c t : Edge V}
    (hok : node.Ok) (hd : (node.find d).isSome)
    (hr : resolve (node.level L - 1) c ds = some (u, t)) :
    resolve L (branch aux (node.setChild d c)) (d :: ds) =
      some (slice aux (node.level L) L * 256 ^ (node.level L - 1) +
        d * 256 ^ (node.level L - 2) + u, t) := by
  rw [resolve, Branch.level_setChild, Branch.child_setChild hok hd, if_pos rfl, hr]
  rfl

end Expanse.Edge
