import Expanse.Engine.CursorSpec
import Expanse.Store.Iterators

/-!
# Cursors of sets and maps

The reference is a cursor over the sorted list of the stored items: `next` hands
out the current item and moves on, `advance_to` goes to the first item at or beyond
the target, never back. Every script of calls on a cursor answers as the reference
does, up to the overflow of the forward walk.
-/

namespace Expanse

open Radix SortedAssoc Edge Runs

/-- A call on a cursor. -/
inductive CursorOp where
  | current
  | next
  | advanceTo (target : UInt64)
deriving DecidableEq

/-- The reference cursor over a sorted list. -/
structure RefCursor (V : Type) where
  sorted : List (ℕ × V)
  idx : ℕ

namespace RefCursor

variable {V : Type}

def fromStart (sorted : List (ℕ × V)) : RefCursor V := ⟨sorted, 0⟩

def fromKey (sorted : List (ℕ × V)) (start : ℕ) : RefCursor V :=
  ⟨sorted, lowerBound (sorted.map Prod.fst) start⟩

def current (r : RefCursor V) : Option (ℕ × V) := r.sorted[r.idx]?

def next (r : RefCursor V) : Option (ℕ × V) × RefCursor V :=
  (r.current, if r.current.isSome then { r with idx := r.idx + 1 } else r)

def advanceTo (r : RefCursor V) (target : ℕ) : Option (ℕ × V) × RefCursor V :=
  match r.current with
  | some x =>
    if target ≤ x.1 then (some x, r)
    else
      let r' : RefCursor V := { r with idx := lowerBound (r.sorted.map Prod.fst) target }
      (r'.current, r')
  | none => (none, r)

def step (r : RefCursor V) : CursorOp → Option (ℕ × V) × RefCursor V
  | .current => (r.current, r)
  | .next => r.next
  | .advanceTo target => r.advanceTo target.toNat

def rest (r : RefCursor V) : List (ℕ × V) := r.sorted.drop r.idx

variable {r : RefCursor V}

theorem current_eq : r.current = r.rest.head? := by
  rw [current, rest, List.head?_drop]

theorem next_eq : r.next.1 = r.rest.head? ∧ r.next.2.rest = r.rest.tail ∧
    r.next.2.sorted = r.sorted := by
  refine ⟨current_eq, ?_, ?_⟩
  · have htail : r.rest.tail = r.sorted.drop (r.idx + 1) := List.tail_drop
    rw [next, htail]
    dsimp only
    split_ifs with h
    · rfl
    · rw [current, Option.isSome_iff_ne_none, ne_eq, not_not, List.getElem?_eq_none_iff] at h
      rw [rest, List.drop_eq_nil_of_le h, List.drop_eq_nil_of_le (by omega)]
  · rw [next]
    dsimp only
    split_ifs <;> rfl

theorem advanceTo_eq (hs : KeySorted r.sorted) (target : ℕ) :
    (r.advanceTo target).1 = (r.rest.filter (target ≤ ·.1)).head? ∧
      (r.advanceTo target).2.rest = r.rest.filter (target ≤ ·.1) ∧
      (r.advanceTo target).2.sorted = r.sorted := by
  have hcur := current_eq (r := r)
  have hfilter := filter_drop hs r.idx target
  rw [advanceTo, hcur]
  cases hl : r.rest with
  | nil => exact ⟨rfl, hl, rfl⟩
  | cons x xs =>
    have hsl : KeySorted (x :: xs) := hl ▸ hs.sublist (List.drop_sublist _ _)
    dsimp only [List.head?_cons]
    split_ifs with hx
    · have hall : (x :: xs).filter (target ≤ ·.1) = x :: xs := by
        refine LeafCursor.filter_all fun y hy => ?_
        rcases List.mem_cons.mp hy with rfl | hy
        · exact hx
        · have := (List.pairwise_cons.mp hsl).1 y hy
          omega
      rw [hall]
      exact ⟨rfl, hl, rfl⟩
    · have hlt : r.idx < lowerBound (r.sorted.map Prod.fst) target := by
        by_contra hc
        change r.rest.filter _ = _ at hfilter
        rw [Nat.max_eq_left (not_lt.mp hc)] at hfilter
        change _ = r.rest at hfilter
        rw [hl] at hfilter
        have hmem : x ∈ (x :: xs).filter (target ≤ ·.1) := by
          rw [hfilter]
          exact List.mem_cons_self
        exact hx (of_decide_eq_true (List.mem_filter.mp hmem).2)
      rw [Nat.max_eq_right hlt.le] at hfilter
      rw [← hl]
      refine ⟨?_, hfilter.symm, rfl⟩
      rw [current, ← List.head?_drop]
      exact congrArg List.head? hfilter.symm

end RefCursor

namespace RawCursor

variable {V : Type} [Inhabited V] {fl : Flavour} {all : List (ℕ × V)} {c : RawCursor V}
  {r : RefCursor V}

def step (fl : Flavour) (c : RawCursor V) : CursorOp → Except Fault (Option (ℕ × V) × RawCursor V)
  | .current => .ok (c.current, c)
  | .next => c.next fl
  | .advanceTo target => c.advanceTo fl target.toNat

theorem step_refines (hV : fl = .set → ∀ v : V, v = default) (hs : KeySorted all)
    (h : At fl all r.rest c) (hr : r.sorted = all) (op : CursorOp) :
    ∃ c', c.step fl op = .ok ((r.step op).1, c') ∧ At fl all (r.step op).2.rest c' ∧
      (r.step op).2.sorted = all := by
  cases op with
  | current =>
    refine ⟨c, ?_, h, hr⟩
    change Except.ok (c.front, c) = .ok (r.current, c)
    rw [h.front, RefCursor.current_eq]
  | next =>
    obtain ⟨h1, h2, h3⟩ := RefCursor.next_eq (r := r)
    obtain ⟨c', hc, hat⟩ := next_spec hV h
    change ∃ c', c.next fl = .ok (r.next.1, c') ∧ _
    rw [h1]
    exact ⟨c', hc, h2 ▸ hat, h3.trans hr⟩
  | advanceTo target =>
    obtain ⟨h1, h2, h3⟩ := RefCursor.advanceTo_eq (r := r) (hr ▸ hs) target.toNat
    obtain ⟨c', hc, hat⟩ := advanceTo_spec hV h hs (Store.toNat_lt target)
    change ∃ c', c.advanceTo fl target.toNat = .ok ((r.advanceTo target.toNat).1, c') ∧ _
    rw [h1]
    exact ⟨c', hc, h2 ▸ hat, h3.trans hr⟩

theorem run_refines_ref (hV : fl = .set → ∀ v : V, v = default) (hs : KeySorted all)
    (h : At fl all r.rest c) (hr : r.sorted = all) (ops : List CursorOp) :
    ∃ c', run (step fl) c ops = .ok ((refRun RefCursor.step r ops).1, c') := by
  obtain ⟨c', hrun, -⟩ := run_refines (P := fun _ _ => True)
    (R := fun (c : RawCursor V) (r : RefCursor V) => At fl all r.rest c ∧ r.sorted = all)
    (fun c r op hR _ => step_refines hV hs hR.1 hR.2 op) ⟨h, hr⟩ (along_trivial _ c ops)
  exact ⟨c', hrun⟩

end RawCursor

namespace Store

variable {V : Type} [Inhabited V] {fl : Flavour} {lo : ℕ → ℕ → ℕ} {s : Store V}

def cursorTop (s : Store V) : Edge V :=
  match s.root with
  | .tree top => top
  | _ => null

/-- `cursor`, or `cursor_from` a key. -/
def cursorAt (fl : Flavour) (s : Store V) (start : Option UInt64) : Except Fault (RawCursor V) :=
  (match start with
    | none => s.iterFwdRaw fl
    | some k => s.rangeFwdRaw fl k.toNat).bind fun raw => RawCursor.new fl raw s.cursorTop

def refAt (s : Store V) : Option UInt64 → RefCursor V
  | none => .fromStart s.items
  | some k => .fromKey s.items k.toNat

theorem lastWordFull_map (h : Inv .map lo s) : s.lastWordFull = false := by
  by_contra hf
  rw [Bool.not_eq_false] at hf
  cases (mem_of_lastWordFull h hf).1

theorem lastWordFull_flushPath (h : Inv fl lo s) : s.flushPath.lastWordFull = s.lastWordFull := by
  obtain ⟨root, n, path⟩ := s
  cases root with
  | empty => rfl
  | leaf cols => rfl
  | tree top =>
    rw [TreeInv.flushPath_eq h]
    cases path with
    | none => rfl
    | some w =>
      obtain ⟨u, t, hr, hpop⟩ := h.leads w rfl
      exact isFull_flush h.readable hr (ne_null_of_warmPop hpop) _

theorem rest_refAt (h : Inv fl lo s) (start : Option UInt64) :
    (s.refAt start).rest = s.items.filter (((start.map UInt64.toNat).getD 0) ≤ ·.1) := by
  cases start with
  | none =>
    rw [refAt, RefCursor.rest, RefCursor.fromStart]
    exact (LeafCursor.filter_all fun _ _ => Nat.zero_le _).symm
  | some k => exact Direction.forward.rest_lowerBound h.sorted k.toNat

theorem sorted_refAt (start : Option UInt64) : (s.refAt start).sorted = s.items := by
  cases start <;> rfl

theorem rootOf_of_inTree {raw : Iter V} (h : Inv fl lo s)
    (hraw : s.iterFwdRaw fl = .ok raw ∨ ∃ k, s.rangeFwdRaw fl k = .ok raw)
    (ht : raw.leaf.inTree = true) : Iter.RootOf fl s.lastWordFull s.items s.cursorTop := by
  obtain ⟨root, n, path⟩ := s
  cases root with
  | tree top => exact ⟨TreeInv.rooted h, rfl⟩
  | empty =>
    rcases hraw with hraw | ⟨k, hraw⟩
    · cases hraw
      cases ht
    · cases hraw
      cases ht
  | leaf cols =>
    rcases hraw with hraw | ⟨k, hraw⟩
    · cases hraw
      cases ht
    · cases hraw
      cases ht

theorem cursorAt_seeded (hV : fl = .set → ∀ v : V, v = default) (h : Inv fl lo s)
    (start : Option UInt64) : ∃ raw, s.cursorAt fl start = RawCursor.new fl raw s.cursorTop ∧
      Iter.Walking .forward fl s.lastWordFull s.items raw ∧
      raw.left .forward = (s.refAt start).rest ∧
      (raw.leaf.inTree = true → Iter.RootOf fl s.lastWordFull s.items s.cursorTop) := by
  cases start with
  | none =>
    obtain ⟨raw, hit, hw, hl⟩ := iterFwdRaw_spec hV h
    exact ⟨raw, by rw [cursorAt, hit]; rfl, hw, hl, rootOf_of_inTree h (.inl hit)⟩
  | some k =>
    obtain ⟨raw, hit, hw, hl⟩ := rangeFwdRaw_spec hV h k.toNat
    refine ⟨raw, by rw [cursorAt, hit]; rfl, hw, ?_, rootOf_of_inTree h (.inr ⟨_, hit⟩)⟩
    rw [hl, rest_refAt h]
    rfl

/-- Scripts on a cursor answer as the reference where the walk cannot overflow. -/
theorem cursorAt_run (hV : fl = .set → ∀ v : V, v = default) (h : Inv fl lo s)
    (hf : s.lastWordFull = false) (start : Option UInt64) (ops : List CursorOp) :
    ∃ c c', s.cursorAt fl start = .ok c ∧
      run (RawCursor.step fl) c ops = .ok ((refRun RefCursor.step (s.refAt start) ops).1, c') := by
  obtain ⟨raw, hnew, hw, hl, hroot⟩ := cursorAt_seeded hV h start
  rw [hf] at hw hroot
  obtain ⟨c, hc, hat⟩ := RawCursor.new_spec hV hw hroot
  rw [hl] at hat
  obtain ⟨c', hrun⟩ := RawCursor.run_refines_ref hV h.sorted hat (sorted_refAt start) ops
  exact ⟨c, c', hnew.trans hc, hrun⟩

/-- A cursor from the last word cannot be made where that word is stored in a full expanse. -/
theorem cursorAt_overflow (hV : fl = .set → ∀ v : V, v = default) (h : Inv fl lo s)
    (hf : s.lastWordFull = true) :
    s.cursorAt fl (some 0xFFFFFFFFFFFFFFFF) = .error .overflow := by
  obtain ⟨raw, hnew, hw, hl, -⟩ := cursorAt_seeded hV h (some 0xFFFFFFFFFFFFFFFF)
  rw [rest_refAt h] at hl
  have hmem : (256 ^ 8 - 1, default) ∈ raw.left .forward := by
    rw [hl, List.mem_filter]
    have hle : (0xFFFFFFFFFFFFFFFF : UInt64).toNat ≤ 256 ^ 8 - 1 := by decide
    exact ⟨(mem_of_lastWordFull h hf).2, decide_eq_true hle⟩
  obtain ⟨x, xs, hx⟩ := List.exists_cons_of_ne_nil (List.ne_nil_of_mem hmem)
  have hx1 : x.1 = 256 ^ 8 - 1 := by
    have hxm : x ∈ raw.left .forward := hx ▸ List.mem_cons_self
    rw [hl, List.mem_filter, decide_eq_true_eq] at hxm
    have h1 := h.bound (k := x.1) (v := x.2) hxm.1
    have h2 : 256 ^ 8 - 1 ≤ x.1 := hxm.2
    omega
  rw [hnew, RawCursor.new]
  have hover := Iter.nextBy_overflow hV (hf ▸ hw) hx hx1 7
  change (Iter.nextBy .forward fl 9 raw).map _ = _
  rw [hover]
  rfl

end Store

/-- One end of a key range. -/
inductive Bound where
  | included (k : UInt64)
  | excluded (k : UInt64)
  | unbounded
deriving DecidableEq

namespace Bound

/-- The keys at or after a lower end. -/
def Above : Bound → ℕ → Prop
  | included a, k => a.toNat ≤ k
  | excluded a, k => a.toNat < k
  | unbounded, _ => True

/-- The keys up to an upper end. -/
def Below : Bound → ℕ → Prop
  | included b, k => k ≤ b.toNat
  | excluded b, k => k < b.toNat
  | unbounded, _ => True

instance (k : ℕ) : ∀ a : Bound, Decidable (a.Above k)
  | included a => inferInstanceAs (Decidable (a.toNat ≤ k))
  | excluded a => inferInstanceAs (Decidable (a.toNat < k))
  | unbounded => .isTrue trivial

instance (k : ℕ) : ∀ b : Bound, Decidable (b.Below k)
  | included b => inferInstanceAs (Decidable (k ≤ b.toNat))
  | excluded b => inferInstanceAs (Decidable (k < b.toNat))
  | unbounded => .isTrue trivial

/-- The first key of a range, none past the last word. -/
def first? : Bound → Option UInt64
  | included a => some a
  | excluded a => if a.toNat + 1 < 256 ^ 8 then some (a + 1) else none
  | unbounded => some 0

/-- The last key of a range, none below zero. -/
def last? : Bound → Option ℕ
  | included b => some b.toNat
  | excluded b => if b.toNat = 0 then none else some (b.toNat - 1)
  | unbounded => some (256 ^ 8 - 1)

theorem above_iff {b : Bound} {k : ℕ} (hk : k < 256 ^ 8) :
    b.Above k ↔ ∃ a, b.first? = some a ∧ a.toNat ≤ k := by
  cases b with
  | included a => simp [Above, first?]
  | unbounded => simp [Above, first?]
  | excluded a =>
    rw [Above, first?]
    split_ifs with ha
    · have hadd : (a + 1).toNat = a.toNat + 1 := by
        rw [UInt64.toNat_add]
        exact Nat.mod_eq_of_lt ha
      simp only [Option.some.injEq, exists_eq_left', hadd]
      omega
    · simp only [false_and, exists_false, iff_false]
      omega

theorem below_iff {b : Bound} {k : ℕ} (hk : k < 256 ^ 8) :
    b.Below k ↔ ∃ a, b.last? = some a ∧ k ≤ a := by
  cases b with
  | included a => simp [Below, last?]
  | unbounded =>
    simp only [Below, last?, Option.some.injEq, exists_eq_left', true_iff]
    omega
  | excluded a =>
    rw [Below, last?]
    split_ifs with ha
    · simp only [false_and, exists_false, iff_false]
      omega
    · simp only [Option.some.injEq, exists_eq_left']
      omega

end Bound

/-- A cursor with an inclusive upper end; no cursor once it is past it. -/
structure MapRangeCursor where
  cur : Option (RawCursor UInt64)
  stop : ℕ

namespace MapRangeCursor

def empty (stop : ℕ) : MapRangeCursor := ⟨none, stop⟩

def current (c : MapRangeCursor) : Option (ℕ × UInt64) :=
  (c.cur.bind RawCursor.current).filter (·.1 ≤ c.stop)

def advanceTo (c : MapRangeCursor) (target : ℕ) :
    Except Fault (Option (ℕ × UInt64) × MapRangeCursor) :=
  if c.stop < target then .ok (none, { c with cur := none })
  else
    match c.cur with
    | none => .ok (none, c)
    | some cur => (cur.advanceTo .map target).map fun r =>
        (r.1.filter (·.1 ≤ c.stop), { c with cur := some r.2 })

def next (c : MapRangeCursor) : Except Fault (Option (ℕ × UInt64) × MapRangeCursor) :=
  match c.cur with
  | none => .ok (none, c)
  | some cur =>
    match cur.current.filter (·.1 ≤ c.stop) with
    | some _ => (cur.next .map).map fun r => (r.1, { c with cur := some r.2 })
    | none => .ok (none, c)

def step (c : MapRangeCursor) : CursorOp → Except Fault (Option (ℕ × UInt64) × MapRangeCursor)
  | .current => .ok (c.current, c)
  | .next => c.next
  | .advanceTo target => c.advanceTo target.toNat

/-- The cursor has `l` left, up to its end. -/
def Left (all l : List (ℕ × UInt64)) (c : MapRangeCursor) : Prop :=
  match c.cur with
  | none => l = []
  | some cur => ∃ l', RawCursor.At .map all l' cur ∧ l = l'.filter (·.1 ≤ c.stop)

variable {all l : List (ℕ × UInt64)} {c : MapRangeCursor} {r : RefCursor UInt64}

theorem head?_filter_le {l : List (ℕ × UInt64)} (stop : ℕ) (hs : KeySorted l) :
    (l.filter (·.1 ≤ stop)).head? = l.head?.filter (·.1 ≤ stop) := by
  cases l with
  | nil => rfl
  | cons x xs =>
    by_cases hx : x.1 ≤ stop
    · rw [List.filter_cons_of_pos (by simpa using hx)]
      simp [Option.filter, hx]
    · have hnil : xs.filter (·.1 ≤ stop) = [] := by
        rw [List.filter_eq_nil_iff]
        intro y hy
        have := (List.pairwise_cons.mp hs).1 y hy
        simp only [decide_eq_true_eq]
        omega
      rw [List.filter_cons_of_neg (by simpa using hx), hnil]
      simp [Option.filter, hx]

theorem noSet : Flavour.map = .set → ∀ v : UInt64, v = default := fun hc => (by cases hc)

theorem step_refines (hs : KeySorted all) (hrs : KeySorted r.sorted) (h : c.Left all r.rest)
    (op : CursorOp) : ∃ c', c.step op = .ok ((r.step op).1, c') ∧ c'.Left all (r.step op).2.rest ∧
      KeySorted (r.step op).2.sorted := by
  obtain ⟨cur, stop⟩ := c
  cases cur with
  | none =>
    have hnil : r.rest = [] := h
    cases op with
    | current =>
      refine ⟨⟨none, stop⟩, ?_, h, hrs⟩
      change Except.ok (none, _) = .ok (r.current, _)
      rw [RefCursor.current_eq, hnil]
      rfl
    | next =>
      obtain ⟨h1, h2, h3⟩ := RefCursor.next_eq (r := r)
      rw [hnil] at h1 h2
      refine ⟨⟨none, stop⟩, ?_, h2, h3 ▸ hrs⟩
      change Except.ok (none, _) = .ok (r.next.1, _)
      rw [h1]
      rfl
    | advanceTo target =>
      obtain ⟨h1, h2, h3⟩ := RefCursor.advanceTo_eq (r := r) hrs target.toNat
      rw [hnil] at h1 h2
      refine ⟨⟨none, stop⟩, ?_, h2, h3 ▸ hrs⟩
      change advanceTo ⟨none, stop⟩ target.toNat = .ok ((r.advanceTo target.toNat).1, _)
      rw [h1, advanceTo]
      split_ifs <;> rfl
  | some cur =>
    obtain ⟨l', hat, hl⟩ := h
    have hl : r.rest = l'.filter (·.1 ≤ stop) := hl
    have hsl : KeySorted l' := hs.sublist hat.suffix.sublist
    have hhead := head?_filter_le stop hsl
    rw [← hl] at hhead
    cases op with
    | current =>
      refine ⟨⟨some cur, stop⟩, ?_, ⟨l', hat, hl⟩, hrs⟩
      change Except.ok (cur.front.filter _, _) = .ok (r.current, _)
      rw [RefCursor.current_eq, hhead, hat.front]
    | next =>
      obtain ⟨h1, h2, h3⟩ := RefCursor.next_eq (r := r)
      change ∃ c', next ⟨some cur, stop⟩ = .ok (r.next.1, c') ∧ Left all r.next.2.rest c' ∧
        KeySorted r.next.2.sorted
      have hcur : cur.current.filter (·.1 ≤ stop) = r.rest.head? := by
        rw [hhead, ← hat.front]
        rfl
      rw [h1, h2, h3, next]
      dsimp only
      rw [hcur]
      cases hrest : r.rest with
      | nil => exact ⟨_, rfl, ⟨l', hat, by rw [← hl, hrest]; rfl⟩, hrs⟩
      | cons x xs =>
        rw [hrest] at hl
        obtain ⟨cur', hn, hat'⟩ := RawCursor.next_spec noSet hat
        cases l' with
        | nil => cases hl
        | cons y ys =>
          have hy : y.1 ≤ stop := by
            by_contra hy
            have := hhead
            rw [hrest] at this
            simp [Option.filter, hy] at this
          rw [List.filter_cons_of_pos (by simpa using hy)] at hl
          cases hl
          refine ⟨⟨some cur', stop⟩, ?_, ⟨ys, hat', rfl⟩, hrs⟩
          dsimp only [List.head?_cons]
          rw [hn]
          rfl
    | advanceTo target =>
      obtain ⟨h1, h2, h3⟩ := RefCursor.advanceTo_eq (r := r) hrs target.toNat
      change ∃ c', advanceTo ⟨some cur, stop⟩ target.toNat = .ok ((r.advanceTo target.toNat).1, c') ∧
        Left all (r.advanceTo target.toNat).2.rest c' ∧ KeySorted (r.advanceTo target.toNat).2.sorted
      rw [h1, h2, h3, advanceTo]
      by_cases hstop : stop < target.toNat
      · have hnil : r.rest.filter (target.toNat ≤ ·.1) = [] := by
          rw [hl, List.filter_eq_nil_iff]
          intro y hy
          have : y.1 ≤ stop := of_decide_eq_true (List.mem_filter.mp hy).2
          simp only [decide_eq_true_eq]
          omega
        rw [if_pos hstop, hnil]
        exact ⟨_, rfl, rfl, hrs⟩
      · obtain ⟨cur', hn, hat'⟩ := RawCursor.advanceTo_spec noSet hat hs (Store.toNat_lt target)
        have hrest : r.rest.filter (target.toNat ≤ ·.1) =
            (l'.filter (target.toNat ≤ ·.1)).filter (·.1 ≤ stop) := by
          rw [hl, List.filter_filter, List.filter_filter]
          simp only [Bool.and_comm]
        rw [if_neg hstop, hrest, head?_filter_le stop (hs.sublist hat'.suffix.sublist)]
        refine ⟨⟨some cur', stop⟩, ?_, ⟨_, hat', rfl⟩, hrs⟩
        dsimp only
        rw [hn]
        rfl

end MapRangeCursor

namespace ExpanseMap

open Store

/-- `range_cursor`: the ends become inclusive, an empty range gets no cursor. -/
def rangeCursor (s : ExpanseMap) (start stop : Bound) : Except Fault MapRangeCursor :=
  match stop.last?, start.first? with
  | none, _ => .ok (.empty 0)
  | some stop, none => .ok (.empty stop)
  | some stop, some start =>
    if stop < start.toNat then .ok (.empty stop)
    else (s.cursorAt .map (some start)).map fun cur => ⟨some cur, stop⟩

def refRange (s : ExpanseMap) (start stop : Bound) : RefCursor UInt64 :=
  .fromStart (s.items.filter fun x => start.Above x.1 ∧ stop.Below x.1)

variable {s : ExpanseMap} {lo : ℕ → ℕ → ℕ}

theorem rangeCursor_left (h : Inv .map lo s) (start stop : Bound) :
    ∃ c, s.rangeCursor start stop = .ok c ∧ c.Left s.items (s.refRange start stop).rest := by
  have hrest : (s.refRange start stop).rest =
      s.items.filter fun x => decide (start.Above x.1 ∧ stop.Below x.1) := List.drop_zero
  have hnil : (∀ x ∈ s.items, ¬ (start.Above x.1 ∧ stop.Below x.1)) →
      (s.refRange start stop).rest = [] := by
    intro hno
    rw [hrest, List.filter_eq_nil_iff]
    exact fun x hx => by simpa using hno x hx
  rw [rangeCursor]
  cases hb : stop.last? with
  | none =>
    refine ⟨_, rfl, hnil fun x hx => ?_⟩
    rintro ⟨-, hc⟩
    obtain ⟨b, hb', -⟩ := (Bound.below_iff (h.bound (v := x.2) hx)).mp hc
    rw [hb] at hb'
    cases hb'
  | some b =>
    cases ha : start.first? with
    | none =>
      refine ⟨_, rfl, hnil fun x hx => ?_⟩
      rintro ⟨hc, -⟩
      obtain ⟨a, ha', -⟩ := (Bound.above_iff (h.bound (v := x.2) hx)).mp hc
      rw [ha] at ha'
      cases ha'
    | some a =>
      have hin : ∀ x ∈ s.items, (start.Above x.1 ∧ stop.Below x.1 ↔ a.toNat ≤ x.1 ∧ x.1 ≤ b) := by
        intro x hx
        rw [Bound.above_iff (h.bound (v := x.2) hx), Bound.below_iff (h.bound (v := x.2) hx), ha, hb]
        simp
      dsimp only
      split_ifs with hab
      · refine ⟨_, rfl, hnil fun x hx => ?_⟩
        rw [hin x hx]
        omega
      · obtain ⟨raw, hnew, hw, hl, hroot⟩ := cursorAt_seeded MapRangeCursor.noSet h (some a)
        rw [lastWordFull_map h] at hw hroot
        obtain ⟨cur, hc, hat⟩ := RawCursor.new_spec MapRangeCursor.noSet hw hroot
        rw [hl, rest_refAt h] at hat
        refine ⟨⟨some cur, b⟩, by rw [hnew, hc]; rfl, _, hat, ?_⟩
        rw [hrest, List.filter_filter]
        apply List.filter_congr
        intro x hx
        have := hin x hx
        rw [Bool.eq_iff_iff]
        simp only [decide_eq_true_eq, Bool.and_eq_true, Option.map_some, Option.getD_some]
        rw [this, and_comm]

theorem rangeCursor_run (h : Inv .map lo s) (start stop : Bound) (ops : List CursorOp) :
    ∃ c c', s.rangeCursor start stop = .ok c ∧ run MapRangeCursor.step c ops =
      .ok ((refRun RefCursor.step (s.refRange start stop) ops).1, c') := by
  obtain ⟨c, hc, hleft⟩ := rangeCursor_left h start stop
  obtain ⟨c', hrun, -⟩ := run_refines (P := fun _ _ => True)
    (R := fun (c : MapRangeCursor) (r : RefCursor UInt64) => c.Left s.items r.rest ∧ KeySorted r.sorted)
    (fun c r op hR _ => MapRangeCursor.step_refines h.sorted hR.2 hR.1 op)
    ⟨hleft, h.sorted.sublist List.filter_sublist⟩ (along_trivial _ c ops)
  exact ⟨c, c', hc, hrun⟩

end ExpanseMap

open Store

/-- The answers of a script on a cursor that may have failed to start. -/
def drive {State Op Out : Type} (step : State → Op → Except Fault (Out × State))
    (c : Except Fault State) (ops : List Op) : Except Fault (List Out) :=
  c.bind fun c => (run step c ops).map Prod.fst

namespace ExpanseSet

/-- `cursor` and `cursor_from`; taking the root edge flushes the path. -/
def cursor (s : ExpanseSet) (start : Option UInt64) : Except Fault (RawCursor Unit) :=
  s.flushPath.cursorAt .set start

end ExpanseSet

namespace ExpanseMap

def cursor (s : ExpanseMap) (start : Option UInt64) : Except Fault (RawCursor UInt64) :=
  s.cursorAt .map start

end ExpanseMap

theorem ExpanseSet.cursor_overflow {lo : ℕ → ℕ → ℕ} {s : ExpanseSet} (h : Inv .set lo s)
    (hf : s.lastWordFull = true) : s.cursor (some 0xFFFFFFFFFFFFFFFF) = .error .overflow := by
  rw [← lastWordFull_flushPath h] at hf
  exact cursorAt_overflow (fun _ _ => rfl) (inv_flushPath h).1 hf

/-- Cursors of reachable sets and maps refine the reference cursor over the sorted items: of a set
exactly where the last word is not stored in a full expanse, of a map always, also within bounds. -/
theorem reachable_cursors (s : ExpanseSet) (h : ExpanseSet.Reachable s) (m : ExpanseMap)
    (hm : ExpanseMap.Reachable m) :
    ((∀ start ops, drive (RawCursor.step .set) (s.cursor start) ops =
      .ok (refRun RefCursor.step (s.refAt start) ops).1) ↔ s.lastWordFull = false) ∧
    (∀ start ops, drive (RawCursor.step .map) (m.cursor start) ops =
      .ok (refRun RefCursor.step (m.refAt start) ops).1) ∧
    ∀ lo hi ops, drive MapRangeCursor.step (m.rangeCursor lo hi) ops =
      .ok (refRun RefCursor.step (m.refRange lo hi) ops).1 := by
  refine ⟨?_, fun start ops => ?_, fun lo hi ops => ?_⟩
  · obtain ⟨hinv, hitems⟩ := inv_flushPath h.inv
    have hfull := lastWordFull_flushPath h.inv
    constructor
    · intro hall
      by_contra hf
      rw [Bool.not_eq_false] at hf
      have := hall (some 0xFFFFFFFFFFFFFFFF) []
      rw [drive, ExpanseSet.cursor_overflow h.inv hf] at this
      cases this
    · intro hf start ops
      obtain ⟨c, c', hc, hrun⟩ := cursorAt_run (fun _ _ => rfl) hinv (hfull.trans hf) start ops
      have href : s.flushPath.refAt start = s.refAt start := by
        cases start <;> simp only [refAt, hitems]
      rw [drive, ExpanseSet.cursor, hc, ← href]
      change (run (RawCursor.step .set) c ops).map Prod.fst = _
      rw [hrun]
      rfl
  · obtain ⟨c, c', hc, hrun⟩ := cursorAt_run MapRangeCursor.noSet hm.inv (lastWordFull_map hm.inv)
      start ops
    rw [drive, ExpanseMap.cursor, hc]
    change (run (RawCursor.step .map) c ops).map Prod.fst = _
    rw [hrun]
    rfl
  · obtain ⟨c, c', hc, hrun⟩ := ExpanseMap.rangeCursor_run hm.inv lo hi ops
    rw [drive, hc]
    change (run MapRangeCursor.step c ops).map Prod.fst = _
    rw [hrun]
    rfl

/-- Scripts on the set and the map after their `warmOps`. -/
theorem reachable_cursors_warm :
    ∃ (s : ExpanseSet) (m : ExpanseMap), ExpanseSet.Reachable s ∧ ExpanseMap.Reachable m ∧
      s.keys.length = 39 ∧ m.items.length = 39 ∧
      (∀ start ops, drive (RawCursor.step .set) (s.cursor start) ops =
        .ok (refRun RefCursor.step (s.refAt start) ops).1) ∧
      ∀ ops, drive MapRangeCursor.step (m.rangeCursor (.included 2) (.excluded 8)) ops =
        .ok (refRun RefCursor.step (m.refRange (.included 2) (.excluded 8)) ops).1 := by
  obtain ⟨s, hs, hlen, hf⟩ := ExpanseSet.warmOps_reach
  obtain ⟨m, hm, hlen'⟩ := ExpanseMap.warmOps_reach
  have hboth := reachable_cursors s hs m hm
  exact ⟨s, m, hs, hm, by rw [ExpanseSet.keys, List.length_map, hlen], hlen', hboth.1.mpr hf, hboth.2.2 _ _⟩

/-- Making a cursor at the last word of a full expanse overflows. -/
theorem cursor_overflows_at_last_word :
    ¬ ∀ s : ExpanseSet, ExpanseSet.Reachable s → ∀ start ops,
      drive (RawCursor.step .set) (s.cursor start) ops =
        .ok (refRun RefCursor.step (s.refAt start) ops).1 := by
  intro h
  obtain ⟨s, hs, -, hf⟩ := ExpanseSet.lastGroup_reach
  have hall := h s hs (some 0xFFFFFFFFFFFFFFFF) []
  rw [drive, ExpanseSet.cursor_overflow hs.inv hf] at hall
  cases hall

end Expanse
