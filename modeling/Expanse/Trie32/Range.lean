import Expanse.Library.Ends
import Expanse.Trie32.IterSpec
import Expanse.Trie32.Map
import Expanse.Trie32.Set

/-!
# Ordered reads and range iterators of the 32-bit containers

A range iterator keeps the two bounds of what it has left. Its front end streams from a forward
walk, which it begins on the first call; its back end looks its entry up from the root. The two
ends may be called in any order.
-/

namespace Expanse.Trie32

open SortedAssoc Trie32.Tree Runs

def KEY_MAX : ℕ := 2 ^ 32 - 1

/-- `first_ge`. -/
def firstGe (fl : Flavour) (a : Arena) (e : Edge32) (bound : ℕ) : Except Fault (Option (ℕ × ℕ)) :=
  if bound = 0 then firstEntry fl a e else nextEntry fl a e (bound - 1)

/-- `last_le`. -/
def lastLe (fl : Flavour) (a : Arena) (e : Edge32) (bound : ℕ) : Except Fault (Option (ℕ × ℕ)) :=
  if bound = KEY_MAX then lastEntry fl a e else prevEntry fl a e (bound + 1)

/-- `count_range` of a container. -/
def countRange (fl : Flavour) (a : Arena) (e : Edge32) (start stop : ℕ) : Except Fault ℕ :=
  if stop < start then .ok 0 else countRangeIn fl a FUEL e KEY_BYTES start stop

/-- The bounds of what an iterator has left. -/
structure Bounds where
  lo : ℕ
  hi : ℕ
  done : Bool

namespace Bounds

/-- Hand out an entry at the front, unless it lies above the range. -/
def front (b : Bounds) (x : ℕ × ℕ) : Option (ℕ × ℕ) × Bounds :=
  if b.hi < x.1 then (none, { b with done := true })
  else if x.1 = b.hi then (some x, { b with done := true })
  else (some x, { b with lo := x.1 + 1 })

/-- Hand out an entry at the back, unless it lies below the range. -/
def back (b : Bounds) (x : ℕ × ℕ) : Option (ℕ × ℕ) × Bounds :=
  if x.1 < b.lo then (none, { b with done := true })
  else if x.1 = b.lo then (some x, { b with done := true })
  else (some x, { b with hi := x.1 - 1 })

/-- `next` of `MapRangeRev32` and `SetRangeRev32`, and the back end of every iterator. -/
def takeBack (fl : Flavour) (a : Arena) (e : Edge32) (b : Bounds) : Except Fault (Option (ℕ × ℕ) × Bounds) :=
  if b.done then .ok (none, b)
  else do
    match ← lastLe fl a e b.hi with
    | none => pure (none, b)
    | some x => pure (b.back x)

/-- `next_back` of `MapRangeRev32` and `SetRangeRev32`. -/
def takeFront (fl : Flavour) (a : Arena) (e : Edge32) (b : Bounds) : Except Fault (Option (ℕ × ℕ) × Bounds) :=
  if b.done then .ok (none, b)
  else do
    match ← firstGe fl a e b.lo with
    | none => pure (none, b)
    | some x => pure (b.front x)

end Bounds

/-- `MapIter32` and `SetIter32`: the bounds, and the forward walk once it has begun. -/
structure RangeIter32 where
  bounds : Bounds
  fwd : Option RawIter32

namespace RangeIter32

/-- The forward walk, begun at the lower bound if it has not been yet. -/
def begun (fl : Flavour) (a : Arena) (e : Edge32) (it : RangeIter32) : Except Fault RawIter32 :=
  match it.fwd with
  | some raw => .ok raw
  | none => RawIter32.new fl a e KEY_BYTES it.bounds.lo

def next (fl : Flavour) (a : Arena) (e : Edge32) (it : RangeIter32) :
    Except Fault (Option (ℕ × ℕ) × RangeIter32) :=
  if it.bounds.done then .ok (none, it)
  else do
    let raw ← it.begun fl a e
    let (r, raw) ← raw.next fl a FUEL
    match r with
    | none => pure (none, ⟨{ it.bounds with done := true }, some raw⟩)
    | some x => pure ((it.bounds.front x).1, ⟨(it.bounds.front x).2, some raw⟩)

def nextBack (fl : Flavour) (a : Arena) (e : Edge32) (it : RangeIter32) :
    Except Fault (Option (ℕ × ℕ) × RangeIter32) :=
  (it.bounds.takeBack fl a e).map fun r => (r.1, ⟨r.2, it.fwd⟩)

def call (fl : Flavour) (a : Arena) (e : Edge32) (it : RangeIter32) :
    End → Except Fault (Option (ℕ × ℕ) × RangeIter32)
  | .front => it.next fl a e
  | .back => it.nextBack fl a e

end RangeIter32

/-- A call to either end of `MapRangeRev32` or `SetRangeRev32`, which come down from the top. -/
def Bounds.call (fl : Flavour) (a : Arena) (e : Edge32) (b : Bounds) :
    End → Except Fault (Option (ℕ × ℕ) × Bounds)
  | .front => b.takeBack fl a e
  | .back => b.takeFront fl a e

namespace ExpanseMap32

def first (m : ExpanseMap32) : Except Fault (Option (ℕ × ℕ)) := firstEntry .map m.alloc m.root

def last (m : ExpanseMap32) : Except Fault (Option (ℕ × ℕ)) := lastEntry .map m.alloc m.root

def next (m : ExpanseMap32) (key : ℕ) : Except Fault (Option (ℕ × ℕ)) := nextEntry .map m.alloc m.root key

def prev (m : ExpanseMap32) (key : ℕ) : Except Fault (Option (ℕ × ℕ)) := prevEntry .map m.alloc m.root key

def nextAtOrAfter (m : ExpanseMap32) (bound : ℕ) : Except Fault (Option (ℕ × ℕ)) :=
  firstGe .map m.alloc m.root bound

def prevAtOrBefore (m : ExpanseMap32) (bound : ℕ) : Except Fault (Option (ℕ × ℕ)) :=
  lastLe .map m.alloc m.root bound

def countRange (m : ExpanseMap32) (start stop : ℕ) : Except Fault ℕ :=
  Trie32.countRange .map m.alloc m.root start stop

/-- `range`, and `iter` over all keys. -/
def range (m : ExpanseMap32) (lo hi : ℕ) : RangeIter32 := ⟨⟨lo, hi, hi < lo || m.isEmpty⟩, none⟩

def iter (m : ExpanseMap32) : RangeIter32 := ⟨⟨0, KEY_MAX, m.isEmpty⟩, none⟩

/-- `range_rev`, and `iter_rev` over all keys. -/
def rangeRev (m : ExpanseMap32) (lo hi : ℕ) : Bounds := ⟨lo, hi, hi < lo || m.isEmpty⟩

def iterRev (m : ExpanseMap32) : Bounds := ⟨0, KEY_MAX, m.isEmpty⟩

end ExpanseMap32

namespace ExpanseSet32

def keyOf (r : Option (ℕ × ℕ)) : Option ℕ := r.map Prod.fst

def first (s : ExpanseSet32) : Except Fault (Option ℕ) := (firstEntry .set s.alloc s.root).map keyOf

def last (s : ExpanseSet32) : Except Fault (Option ℕ) := (lastEntry .set s.alloc s.root).map keyOf

def next (s : ExpanseSet32) (key : ℕ) : Except Fault (Option ℕ) := (nextEntry .set s.alloc s.root key).map keyOf

def prev (s : ExpanseSet32) (key : ℕ) : Except Fault (Option ℕ) := (prevEntry .set s.alloc s.root key).map keyOf

def nextAtOrAfter (s : ExpanseSet32) (bound : ℕ) : Except Fault (Option ℕ) :=
  (firstGe .set s.alloc s.root bound).map keyOf

def prevAtOrBefore (s : ExpanseSet32) (bound : ℕ) : Except Fault (Option ℕ) :=
  (lastLe .set s.alloc s.root bound).map keyOf

def countRange (s : ExpanseSet32) (start stop : ℕ) : Except Fault ℕ :=
  Trie32.countRange .set s.alloc s.root start stop

def range (s : ExpanseSet32) (lo hi : ℕ) : RangeIter32 := ⟨⟨lo, hi, hi < lo || s.isEmpty⟩, none⟩

def iter (s : ExpanseSet32) : RangeIter32 := ⟨⟨0, KEY_MAX, s.isEmpty⟩, none⟩

def rangeRev (s : ExpanseSet32) (lo hi : ℕ) : Bounds := ⟨lo, hi, hi < lo || s.isEmpty⟩

def iterRev (s : ExpanseSet32) : Bounds := ⟨0, KEY_MAX, s.isEmpty⟩

end ExpanseSet32

variable {fl : Flavour} {t : Tree} {e : Edge32} {a : Arena} {k lo hi : ℕ} {b : Bounds}

theorem firstEntry_eq (h : Stored a fl KEY_BYTES e t) : firstEntry fl a e = .ok (entries KEY_BYTES t).head? :=
  endEntry_eq .forward h (by decide)

theorem lastEntry_eq (h : Stored a fl KEY_BYTES e t) :
    lastEntry fl a e = .ok (entries KEY_BYTES t).getLast? := by
  rw [List.getLast?_eq_head?_reverse]
  exact endEntry_eq .backward h (by decide)

theorem nextEntry_eq (h : Stored a fl KEY_BYTES e t) (hk : k < 2 ^ 32) :
    nextEntry fl a e k = .ok ((entries KEY_BYTES t).filter fun x => k + 1 ≤ x.1).head? := by
  rw [nextEntry, beyondEntry_eq .forward h (by decide) (by decide) (lt_of_lt_of_eq hk (by decide)) (by decide),
    Direction.beyond_forward]
  rfl

theorem prevEntry_eq (h : Stored a fl KEY_BYTES e t) (hk : k < 2 ^ 32) :
    prevEntry fl a e k = .ok ((entries KEY_BYTES t).filter fun x => x.1 < k).getLast? := by
  rw [prevEntry, beyondEntry_eq .backward h (by decide) (by decide) (lt_of_lt_of_eq hk (by decide)) (by decide),
    Direction.beyond_backward, List.getLast?_eq_head?_reverse]
  rfl

theorem firstGe_eq (h : Stored a fl KEY_BYTES e t) (hk : k < 2 ^ 32) :
    firstGe fl a e k = .ok ((entries KEY_BYTES t).filter fun x => k ≤ x.1).head? := by
  rw [firstGe]
  split_ifs with h0
  · rw [firstEntry_eq h, List.filter_eq_self.mpr fun x _ => by simp [h0]]
  · rw [nextEntry_eq h (by omega), Nat.sub_add_cancel (Nat.one_le_iff_ne_zero.mpr h0)]

theorem key_le (h : Stored a fl KEY_BYTES e t) : ∀ x ∈ entries KEY_BYTES t, x.1 ≤ KEY_MAX := fun x hx => by
  have hlt := (h.ok.held.1.fit x hx).1
  unfold KEY_BYTES at hlt
  unfold KEY_MAX
  omega

theorem lastLe_eq (h : Stored a fl KEY_BYTES e t) (hk : k < 2 ^ 32) :
    lastLe fl a e k = .ok ((entries KEY_BYTES t).filter fun x => x.1 ≤ k).getLast? := by
  rw [lastLe]
  split_ifs with hmax
  · rw [lastEntry_eq h, List.filter_eq_self.mpr fun x hx => decide_eq_true (hmax ▸ key_le h x hx)]
  · rw [prevEntry_eq h (by unfold KEY_MAX at hmax; omega)]
    simp only [Nat.lt_succ_iff]

theorem countRange_eq (h : Stored a fl KEY_BYTES e t) (hlo : lo < 2 ^ 32) (hhi : hi < 2 ^ 32) :
    countRange fl a e lo hi = .ok (between lo hi (entries KEY_BYTES t)).length := by
  rw [countRange]
  split_ifs with hempty
  · rw [between_empty hempty]
    rfl
  · rw [countRangeIn_eq h (by decide) (by decide) (lt_of_lt_of_eq hlo (by decide))
      (lt_of_lt_of_eq hhi (by decide))
      (by decide), List.countP_eq_length_filter]
    rfl

def Bounds.left (b : Bounds) (l : List (ℕ × ℕ)) : List (ℕ × ℕ) := if b.done then [] else between b.lo b.hi l

def Bounds.Fit (b : Bounds) : Prop := b.done = false → b.lo ≤ b.hi ∧ b.hi ≤ KEY_MAX

section Bounds

variable {l ys : List (ℕ × ℕ)} {x : ℕ × ℕ}

theorem front_left (hs : KeySorted l) (hfit : b.Fit) (hd : b.done = false)
    (hx : (l.filter fun e => b.lo ≤ e.1) = x :: ys) :
    (b.front x).1 = (b.left l).head? ∧ (b.front x).2.left l = (b.left l).tail ∧ (b.front x).2.Fit ∧
      ((b.front x).2.done = false → ys = l.filter fun e => (b.front x).2.lo ≤ e.1) := by
  obtain ⟨-, -, hys⟩ := hs.filter_cons hx
  obtain ⟨hle, hmax⟩ := hfit hd
  rw [Bounds.left, hd, if_neg Bool.false_ne_true, between_front hs hx, Bounds.front]
  split_ifs with h1 h2
  · exact ⟨rfl, by rw [Bounds.left, if_pos rfl]; rfl, fun h => absurd h (by simp), fun h => absurd h (by simp)⟩
  · refine ⟨rfl, ?_, fun h => absurd h (by simp), fun h => absurd h (by simp)⟩
    rw [Bounds.left, if_pos rfl, h2, between_empty (Nat.lt_succ_self _)]
    rfl
  · refine ⟨rfl, ?_, fun _ => ⟨by dsimp only; omega, hmax⟩, fun _ => hys⟩
    rw [Bounds.left, if_neg (by simp [hd])]
    rfl

theorem back_left (hs : KeySorted l) (hfit : b.Fit) (hd : b.done = false)
    (hx : (l.filter fun e => e.1 ≤ b.hi) = ys ++ [x]) :
    (b.back x).1 = (b.left l).getLast? ∧ (b.back x).2.left l = (b.left l).dropLast ∧ (b.back x).2.Fit ∧
      (b.back x).2.lo = b.lo ∧ ((b.back x).2.done = false → b.done = false) := by
  obtain ⟨hle, hmax⟩ := hfit hd
  have hmem : x ∈ l.filter fun e => e.1 ≤ b.hi := by
    rw [hx]
    exact List.mem_append_right _ List.mem_cons_self
  have hxhi := of_decide_eq_true (List.mem_filter.mp hmem).2
  rw [Bounds.left, hd, if_neg Bool.false_ne_true, between_back hs hx, Bounds.back]
  split_ifs with h1 h2
  · exact ⟨rfl, by rw [Bounds.left, if_pos rfl]; rfl, fun h => absurd h (by simp), rfl, fun _ => rfl⟩
  · exact ⟨by simp, by rw [Bounds.left, if_pos rfl]; simp, fun h => absurd h (by simp), rfl, fun _ => rfl⟩
  · refine ⟨by simp, ?_, fun _ => ⟨by dsimp only; omega, by dsimp only; omega⟩, rfl, fun _ => rfl⟩
    rw [Bounds.left, if_neg (by simp [hd])]
    simp

end Bounds

theorem takeBack_eq (h : Stored a fl KEY_BYTES e t) (hfit : b.Fit) :
    ∃ b', b.takeBack fl a e = .ok ((b.left (entries KEY_BYTES t)).getLast?, b') ∧
      b'.left (entries KEY_BYTES t) = (b.left (entries KEY_BYTES t)).dropLast ∧ b'.Fit ∧
      b'.lo = b.lo ∧ (b'.done = false → b.done = false) := by
  rw [Bounds.takeBack]
  cases hd : b.done with
  | true =>
    rw [if_pos rfl, Bounds.left, hd, if_pos rfl]
    exact ⟨b, rfl, by rw [Bounds.left, hd]; rfl, hfit, rfl, fun h => absurd (hd.symm.trans h) (by simp)⟩
  | false =>
    obtain ⟨hle, hmax⟩ := hfit hd
    rw [if_neg Bool.false_ne_true, lastLe_eq h (by unfold KEY_MAX at hmax; omega), ok_bind]
    rcases List.eq_nil_or_concat ((entries KEY_BYTES t).filter fun x => x.1 ≤ b.hi) with hnil | ⟨ys, x, hx⟩
    · rw [hnil, Bounds.left, hd, if_neg Bool.false_ne_true, between_below_nil hnil]
      exact ⟨b, rfl, by rw [Bounds.left, hd, if_neg Bool.false_ne_true, between_below_nil hnil]; rfl, hfit, rfl,
        fun _ => rfl⟩
    · rw [List.concat_eq_append] at hx
      obtain ⟨hout, hleft, hfit', hlo, -⟩ := back_left h.ok.held.1.sorted hfit hd hx
      rw [hx, List.getLast?_append, List.getLast?_singleton]
      exact ⟨(b.back x).2, by rw [← hout]; rfl, hleft, hfit', hlo, fun _ => rfl⟩

theorem takeFront_eq (h : Stored a fl KEY_BYTES e t) (hfit : b.Fit) :
    ∃ b', b.takeFront fl a e = .ok ((b.left (entries KEY_BYTES t)).head?, b') ∧
      b'.left (entries KEY_BYTES t) = (b.left (entries KEY_BYTES t)).tail ∧ b'.Fit := by
  rw [Bounds.takeFront]
  cases hd : b.done with
  | true =>
    rw [if_pos rfl, Bounds.left, hd, if_pos rfl]
    exact ⟨b, rfl, by rw [Bounds.left, hd]; rfl, hfit⟩
  | false =>
    obtain ⟨hle, hmax⟩ := hfit hd
    rw [if_neg Bool.false_ne_true, firstGe_eq h (by unfold KEY_MAX at hmax; omega), ok_bind]
    cases hx : (entries KEY_BYTES t).filter fun x => b.lo ≤ x.1 with
    | nil =>
      rw [Bounds.left, hd, if_neg Bool.false_ne_true, between_above_nil hx]
      exact ⟨b, rfl, by rw [Bounds.left, hd, if_neg Bool.false_ne_true, between_above_nil hx]; rfl, hfit⟩
    | cons x ys =>
      obtain ⟨hout, hleft, hfit', -⟩ := front_left h.ok.held.1.sorted hfit hd hx
      exact ⟨(b.front x).2, by rw [← hout]; rfl, hleft, hfit'⟩

/-- The list that an iterator has left: its forward walk stands at the lower bound. -/
structure Open (a : Arena) (fl : Flavour) (l : List (ℕ × ℕ)) (it : RangeIter32) (L : List (ℕ × ℕ)) : Prop where
  left : L = it.bounds.left l
  fit : it.bounds.Fit
  walk : it.bounds.done = false → ∀ raw ∈ it.fwd, IterLeft a fl raw (l.filter fun x => it.bounds.lo ≤ x.1)

theorem next_open {it : RangeIter32} {L : List (ℕ × ℕ)} (h : Stored a fl KEY_BYTES e t)
    (ho : Open a fl (entries KEY_BYTES t) it L) :
    ∃ it', it.next fl a e = .ok (L.head?, it') ∧ Open a fl (entries KEY_BYTES t) it' L.tail := by
  obtain ⟨rfl, hfit, hwalk⟩ := ho
  rw [RangeIter32.next]
  cases hd : it.bounds.done with
  | true =>
    have hnil : it.bounds.left (entries KEY_BYTES t) = [] := by rw [Bounds.left, hd]; rfl
    rw [if_pos rfl, hnil]
    exact ⟨it, rfl, hnil.symm, hfit, fun h => absurd (hd.symm.trans h) (by simp)⟩
  | false =>
    obtain ⟨hle, hmax⟩ := hfit hd
    obtain ⟨raw, hraw, hleft⟩ : ∃ raw, it.begun fl a e = .ok raw ∧
        IterLeft a fl raw ((entries KEY_BYTES t).filter fun x => it.bounds.lo ≤ x.1) := by
      rw [RangeIter32.begun]
      cases hf : it.fwd with
      | some raw => exact ⟨raw, rfl, hwalk hd raw hf⟩
      | none => exact iter_new h (lt_of_le_of_lt (hle.trans hmax) (by decide))
    obtain ⟨raw', hnext, hleft'⟩ := iter_next hleft
    rw [if_neg Bool.false_ne_true, hraw, ok_bind, hnext, ok_bind]
    cases hx : (entries KEY_BYTES t).filter fun x => it.bounds.lo ≤ x.1 with
    | nil =>
      have hnil : it.bounds.left (entries KEY_BYTES t) = [] := by
        rw [Bounds.left, hd, if_neg Bool.false_ne_true, between_above_nil hx]
      rw [hnil]
      exact ⟨⟨{ it.bounds with done := true }, some raw'⟩, rfl, rfl, fun h => absurd h (by simp),
        fun h => absurd h (by simp)⟩
    | cons x ys =>
      obtain ⟨hout, htail, hfit', hwalk'⟩ := front_left h.ok.held.1.sorted hfit hd hx
      refine ⟨⟨(it.bounds.front x).2, some raw'⟩, by rw [← hout]; rfl, htail.symm, hfit', fun hd' r hr => ?_⟩
      cases hr
      dsimp only
      rw [← hwalk' hd']
      rw [hx] at hleft'
      exact hleft'

theorem nextBack_open {it : RangeIter32} {L : List (ℕ × ℕ)} (h : Stored a fl KEY_BYTES e t)
    (ho : Open a fl (entries KEY_BYTES t) it L) :
    ∃ it', it.nextBack fl a e = .ok (L.getLast?, it') ∧ Open a fl (entries KEY_BYTES t) it' L.dropLast := by
  obtain ⟨rfl, hfit, hwalk⟩ := ho
  obtain ⟨b', htake, hleft, hfit', hlo, hdone⟩ := takeBack_eq h hfit
  rw [RangeIter32.nextBack, htake]
  refine ⟨⟨b', it.fwd⟩, rfl, hleft.symm, hfit', fun hd raw hraw => ?_⟩
  dsimp only
  rw [hlo]
  exact hwalk (hdone hd) raw hraw

/-- A range iterator, called at its two ends in any order, hands out its list. -/
theorem open_run {it : RangeIter32} {L : List (ℕ × ℕ)} (h : Stored a fl KEY_BYTES e t)
    (ho : Open a fl (entries KEY_BYTES t) it L) (sides : List End) :
    ∃ it', run (RangeIter32.call fl a e) it sides = .ok ((refRun takeEnd L sides).1, it') ∧
      Open a fl (entries KEY_BYTES t) it' (refRun takeEnd L sides).2 := by
  refine run_refines (P := fun _ _ => True) (R := Open a fl (entries KEY_BYTES t)) (fun it L side ho _ => ?_) ho
    (along_trivial _ _ _)
  cases side with
  | front => exact next_open h ho
  | back => exact nextBack_open h ho

theorem bounds_run (h : Stored a fl KEY_BYTES e t) (hfit : b.Fit) (sides : List End) :
    ∃ b', run (Bounds.call fl a e) b sides =
      .ok ((refRun takeEnd (b.left (entries KEY_BYTES t)) (sides.map End.flip)).1, b') := by
  have hstep : ∀ b L side, (Bounds.Fit b ∧ L = b.left (entries KEY_BYTES t)) → True →
      ∃ b', b.call fl a e side = .ok ((takeEnd L side.flip).1, b') ∧ b'.Fit ∧
        (takeEnd L side.flip).2 = b'.left (entries KEY_BYTES t) := by
    rintro b L side ⟨hfit, rfl⟩ -
    cases side with
    | front =>
      obtain ⟨b', htake, hleft, hfit', -⟩ := takeBack_eq h hfit
      exact ⟨b', htake, hfit', hleft.symm⟩
    | back =>
      obtain ⟨b', htake, hleft, hfit'⟩ := takeFront_eq h hfit
      exact ⟨b', htake, hfit', hleft.symm⟩
  obtain ⟨b', hrun, -⟩ := @run_refines _ _ _ _ _ _ (fun L side => takeEnd L side.flip)
    (fun _ _ => True) _ hstep _ _ sides
    ⟨hfit, rfl⟩ (along_trivial _ _ sides)
  refine ⟨b', hrun.trans ?_⟩
  have hflip : ∀ (L : List (ℕ × ℕ)) sides, (refRun (fun L side => takeEnd L (End.flip side)) L sides).1 =
      (refRun takeEnd L (sides.map End.flip)).1 := by
    intro L sides
    induction sides generalizing L with
    | nil => rfl
    | cons s sides ih =>
      rw [List.map_cons, refRun, refRun, ih]
  rw [hflip]

end Expanse.Trie32
