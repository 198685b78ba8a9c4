import Expanse.Engine.Insert

/-!
# Batched lookup

`walkSetImpl` and `walkMapImpl` are the scalar descents of the two engines, form by
form. `stepSet` and `stepMap` are their second copies, which advance one lane by one
branch level and then yield, also where the scalar walks chain uncompressed nodes. The
batch driver keeps a number of lanes in flight: it steps them in turn, refills a lane
whose descent has ended from the keys that are left, and moves the last lane into its
place once there are none.
-/

namespace Expanse

open Radix SortedAssoc

/-- One in-flight descent: the edge reached, the key, and the undecoded low bytes the edge covers. -/
structure Lane (V : Type) where
  edge : Edge V
  key : ℕ
  level : ℕ

namespace Lane

variable {V : Type}

/-- `advance`, without the read hint. -/
def advance (lane : Lane V) (next : Edge V) (level : ℕ) : Lane V :=
  { lane with edge := next, level := level }

end Lane

namespace Edge

variable {V : Type}

/-- The slot of a key in an immediate. A single key is compared by its bits, several are scanned. -/
def immedSlot (kb : ℕ) (keys : List ℕ) (key : ℕ) : Option ℕ :=
  match keys with
  | [k] => if low (key ^^^ k) kb = 0 then some 0 else none
  | _ => indexOf? keys (low key kb)

/-- `leaf::search` over the keys that the edge's population counts. -/
def leafSlot (kb aux : ℕ) (keys : List ℕ) (key : ℕ) : Option ℕ :=
  indexOf? (keys.take (Aux.pop0 aux kb + 1)) (low key kb)

/-- The child that a linear or bitmap branch passes a key to, and the level below it. The search
ends here when the key leaves the skipped digits or its digit has no slot. -/
def passNode (aux : ℕ) (node : Branch (Edge V)) (bl key level : ℕ) : Option (Edge V × ℕ) :=
  if bl < level && !Aux.decodeMatches aux key bl level then none
  else (node.find (digit key bl)).map fun c => (c, bl - 1)

/-- The inner loop of the scalar walks: through uncompressed nodes as long as one follows another. -/
def chainUncompressed (key : ℕ) : ℕ → List (Edge V) → Except Fault (Edge V × ℕ)
  | 0, _ => .error .overflow
  | level + 1, edges =>
    match edges[digit key (level + 1)]? with
    | some (branch _ (.uncompressed edges')) => chainUncompressed key level edges'
    | some next => .ok (next, level)
    | none => .error .indexOutOfBounds

/-- `walk_set_impl`. -/
def walkSetImpl : ℕ → Edge Unit → ℕ → ℕ → Except Fault Bool
  | 0, _, _, _ => .error .fuel
  | fuel + 1, e, key, level =>
    match e with
    | null => .ok false
    | branch _ (.uncompressed edges) =>
      match chainUncompressed key level edges with
      | .ok (next, l) => walkSetImpl fuel next key l
      | .error f => .error f
    | branch aux node =>
      match passNode aux node (node.level level) key level with
      | some (next, l) => walkSetImpl fuel next key l
      | none => .ok false
    | leafB1 aux node =>
      if 1 < level && !Aux.decodeMatches aux key 1 level then .ok false
      else .ok (node.bits.testBit (key % 256))
    | leaf kb aux cols =>
      if kb < level && !Aux.decodeMatches aux key kb level then .ok false
      else .ok (leafSlot kb aux cols.keys key).isSome
    | fullExpanse _ => .ok true
    | immed kb cols => .ok (immedSlot kb cols.keys key).isSome

/-- `walk_map_impl`. -/
def walkMapImpl : ℕ → Edge V → ℕ → ℕ → Except Fault (Option V)
  | 0, _, _, _ => .error .fuel
  | fuel + 1, e, key, level =>
    match e with
    | null => .ok none
    | branch _ (.uncompressed edges) =>
      match chainUncompressed key level edges with
      | .ok (next, l) => walkMapImpl fuel next key l
      | .error f => .error f
    | branch aux node =>
      match passNode aux node (node.level level) key level with
      | some (next, l) => walkMapImpl fuel next key l
      | none => .ok none
    | leafB1 aux node =>
      if 1 < level && !Aux.decodeMatches aux key 1 level then .ok none
      else .ok (node.get (key % 256))
    | leaf kb aux cols =>
      if kb < level && !Aux.decodeMatches aux key kb level then .ok none
      else .ok ((leafSlot kb aux cols.keys key).bind (cols.vals[·]?))
    | fullExpanse _ => .error .unreachable
    | immed kb cols => .ok ((immedSlot kb cols.keys key).bind (cols.vals[·]?))

/-- `step_set`: the answer when the descent ends, nothing when the lane advanced. -/
def stepSet (lane : Lane Unit) : Except Fault (Option Bool × Lane Unit) :=
  match lane.edge with
  | null => .ok (some false, lane)
  | branch _ (.uncompressed edges) =>
    match edges[digit lane.key lane.level]? with
    | some next => .ok (none, lane.advance next (lane.level - 1))
    | none => .error .indexOutOfBounds
  | branch aux node =>
    match passNode aux node (node.level lane.level) lane.key lane.level with
    | some (next, l) => .ok (none, lane.advance next l)
    | none => .ok (some false, lane)
  | leafB1 aux node =>
    if 1 < lane.level && !Aux.decodeMatches aux lane.key 1 lane.level then .ok (some false, lane)
    else .ok (some (node.bits.testBit (lane.key % 256)), lane)
  | leaf kb aux cols =>
    if kb < lane.level && !Aux.decodeMatches aux lane.key kb lane.level then .ok (some false, lane)
    else .ok (some (leafSlot kb aux cols.keys lane.key).isSome, lane)
  | fullExpanse _ => .ok (some true, lane)
  | immed kb cols => .ok (some (immedSlot kb cols.keys lane.key).isSome, lane)

/-- `step_map`: a miss is an answer without a value. -/
def stepMap (lane : Lane V) : Except Fault (Option (Option V) × Lane V) :=
  match lane.edge with
  | null => .ok (some none, lane)
  | branch _ (.uncompressed edges) =>
    match edges[digit lane.key lane.level]? with
    | some next => .ok (none, lane.advance next (lane.level - 1))
    | none => .error .indexOutOfBounds
  | branch aux node =>
    match passNode aux node (node.level lane.level) lane.key lane.level with
    | some (next, l) => .ok (none, lane.advance next l)
    | none => .ok (some none, lane)
  | leafB1 aux node =>
    if 1 < lane.level && !Aux.decodeMatches aux lane.key 1 lane.level then .ok (some none, lane)
    else .ok (some (node.get (lane.key % 256)), lane)
  | leaf kb aux cols =>
    if kb < lane.level && !Aux.decodeMatches aux lane.key kb lane.level then .ok (some none, lane)
    else .ok (some ((leafSlot kb aux cols.keys lane.key).bind (cols.vals[·]?)), lane)
  | fullExpanse _ => .error .unreachable
  | immed kb cols =>
    .ok (some ((immedSlot kb cols.keys lane.key).bind (cols.vals[·]?)), lane)

end Edge

/-- The driver's variables. `slots` names the output position each lane serves; only the first
`live` lanes are in flight. `written` lists the output positions in the order of their stores. -/
structure Batch (V R : Type) where
  lanes : List (Lane V)
  slots : List ℕ
  live : ℕ
  next : ℕ
  out : List R
  written : List ℕ

/-- `BATCH_WIDTH`. -/
def BATCH_WIDTH : ℕ := 8

namespace Batch

variable {V R : Type}

/-- All lanes at the root, none of them in flight. -/
def start (w : ℕ) (root : Edge V) (level : ℕ) (out : List R) : Batch V R :=
  ⟨List.replicate w ⟨root, 0, level⟩, List.replicate w 0, 0, 0, out, []⟩

/-- The loop that occupies lanes from the first keys; the count is that of the free lanes. -/
def fill (keys : List ℕ) : ℕ → Batch V R → Batch V R
  | 0, b => b
  | free + 1, b =>
    match keys[b.next]? with
    | some key =>
      fill keys free
        { b with
          lanes := b.lanes.modify b.live fun lane => { lane with key := key }
          slots := b.slots.set b.live b.next
          live := b.live + 1
          next := b.next + 1 }
    | none => b

/-- Store a result and refill the lane, or put the last live lane in its place. The position of
the next lane to step comes first. -/
def retire (root : Edge V) (level : ℕ) (keys : List ℕ) (i : ℕ) (result : R) (b : Batch V R) :
    Except Fault (ℕ × Batch V R) :=
  match b.slots[i]? with
  | none => .error .indexOutOfBounds
  | some slot =>
    if b.out.length ≤ slot then .error .indexOutOfBounds
    else
      let b := { b with out := b.out.set slot result, written := b.written ++ [slot] }
      match keys[b.next]? with
      | some key =>
        .ok (i + 1, { b with
          lanes := b.lanes.set i ⟨root, key, level⟩
          slots := b.slots.set i b.next
          next := b.next + 1 })
      | none =>
        let live := b.live - 1
        match b.lanes[live]?, b.slots[live]? with
        | some lane, some slot =>
          .ok (i, { b with lanes := b.lanes.set i lane, slots := b.slots.set i slot, live := live })
        | _, _ => .error .indexOutOfBounds

variable (step : Lane V → Except Fault (Option R × Lane V)) (root : Edge V) (level : ℕ) (keys : List ℕ)

/-- One turn of the inner loop, at a live lane. -/
def visit (i : ℕ) (b : Batch V R) : Except Fault (ℕ × Batch V R) :=
  match b.lanes[i]? with
  | none => .error .indexOutOfBounds
  | some lane =>
    match step lane with
    | .ok (none, lane') => .ok (i + 1, { b with lanes := b.lanes.set i lane' })
    | .ok (some result, _) => retire root level keys i result b
    | .error f => .error f

/-- The inner loop: step the live lanes from lane `i` on. -/
def sweep : ℕ → ℕ → Batch V R → Except Fault (Batch V R)
  | 0, _, _ => .error .fuel
  | fuel + 1, i, b =>
    if i < b.live then
      match visit step root level keys i b with
      | .ok (i', b') => sweep fuel i' b'
      | .error f => .error f
    else .ok b

/-- The outer loop: sweep while a lane is live. -/
def drive (inner : ℕ) : ℕ → Batch V R → Except Fault (Batch V R)
  | 0, _ => .error .fuel
  | fuel + 1, b =>
    if 0 < b.live then
      match sweep step root level keys inner 0 b with
      | .ok b' => drive inner fuel b'
      | .error f => .error f
    else .ok b

end Batch

/-- `batch_driver` at width `w`: the outputs, and the positions in the order they were written. -/
def batchDriver {V R : Type} (step : Lane V → Except Fault (Option R × Lane V)) (fuel w : ℕ)
    (root : Edge V) (keys : List ℕ) (out : List R) (level : ℕ) : Except Fault (List R × List ℕ) :=
  if keys.isEmpty then .ok (out, [])
  else
    match Batch.drive step root level keys fuel fuel (Batch.fill keys w (Batch.start w root level out)) with
    | .ok b => .ok (b.out, b.written)
    | .error f => .error f

namespace Edge

/-- `walk_set_batch`. -/
def walkSetBatch (fuel w : ℕ) (root : Edge Unit) (keys : List ℕ) (out : List Bool) (level : ℕ) :
    Except Fault (List Bool × List ℕ) := batchDriver stepSet fuel w root keys out level

/-- `walk_map_batch`. -/
def walkMapBatch {V : Type} (fuel w : ℕ) (root : Edge V) (keys : List ℕ) (out : List (Option V))
    (level : ℕ) : Except Fault (List (Option V) × List ℕ) :=
  batchDriver stepMap fuel w root keys out level

end Edge

end Expanse
