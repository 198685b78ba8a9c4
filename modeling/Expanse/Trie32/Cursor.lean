import Expanse.Trie32.SetRuns

/-!
# Cursors of the 32-bit containers

A cursor stands on an entry. `next` hands it out and steps along a forward walk, which it begins on
its first step; `advance_to` drops the walk and looks the entry up from the root, unless the cursor
stands at the target or beyond it. A range cursor shows what its cursor has up to the end of the
range.
-/

namespace Expanse.Trie32

open SortedAssoc Trie32.Tree Runs

/-- A call on a cursor. -/
inductive CursorCall where
  | current
  | next
  | advanceTo (target : UInt32)

def CursorCall.onList {α : Type} (key : α → ℕ) (L : List α) : CursorCall → Option α × List α
  | current => (L.head?, L)
  | next => (L.head?, L.tail)
  | advanceTo target => ((L.filter fun x => target.toNat ≤ key x).head?, L.filter fun x => target.toNat ≤ key x)

/-- `MapCursor32` and `SetCursor32`: the entry it stands on, and the walk behind it once it has begun. -/
structure Cursor32 where
  front : Option (ℕ × ℕ)
  walk : Option RawIter32

namespace Cursor32

/-- `seek`: the lookup of `first_ge`. -/
def seek (fl : Flavour) (a : Arena) (e : Edge32) (bound : ℕ) : Except Fault (Option (ℕ × ℕ)) :=
  firstGe fl a e bound

/-- `cursor`. -/
def first (fl : Flavour) (a : Arena) (e : Edge32) : Except Fault Cursor32 :=
  (firstEntry fl a e).map fun x => ⟨x, none⟩

/-- `cursor_from`. -/
def fromKey (fl : Flavour) (a : Arena) (e : Edge32) (start : ℕ) : Except Fault Cursor32 :=
  (seek fl a e start).map fun x => ⟨x, none⟩

def advanceTo (fl : Flavour) (a : Arena) (e : Edge32) (target : ℕ) (c : Cursor32) :
    Except Fault (Option (ℕ × ℕ) × Cursor32) :=
  match c.front with
  | none => .ok (none, c)
  | some x =>
    if target ≤ x.1 then .ok (some x, c)
    else (seek fl a e target).map fun y => (y, ⟨y, none⟩)

/-- The walk behind the front, begun at `start` if it has not been yet. -/
def begun (fl : Flavour) (a : Arena) (e : Edge32) (start : ℕ) (c : Cursor32) : Except Fault RawIter32 :=
  match c.walk with
  | some raw => .ok raw
  | none => RawIter32.new fl a e KEY_BYTES start

def next (fl : Flavour) (a : Arena) (e : Edge32) (c : Cursor32) : Except Fault (Option (ℕ × ℕ) × Cursor32) :=
  match c.front with
  | none => .ok (none, c)
  | some x =>
    if x.1 = KEY_MAX then .ok (some x, ⟨none, none⟩)
    else do
      let raw ← c.begun fl a e (x.1 + 1)
      let (y, raw) ← raw.next fl a FUEL
      pure (some x, ⟨y, some raw⟩)

def call (fl : Flavour) (a : Arena) (e : Edge32) (c : Cursor32) :
    CursorCall → Except Fault (Option (ℕ × ℕ) × Cursor32)
  | .current => .ok (c.front, c)
  | .next => c.next fl a e
  | .advanceTo target => c.advanceTo fl a e target.toNat

end Cursor32

/-- One end of a key range. -/
inductive KeyBound where
  | included (k : UInt32)
  | excluded (k : UInt32)
  | unbounded

namespace KeyBound

/-- The keys at or after a lower end. -/
def above : KeyBound → ℕ → Bool
  | included lo, k => lo.toNat ≤ k
  | excluded lo, k => lo.toNat < k
  | unbounded, _ => true

def below : KeyBound → ℕ → Bool
  | included hi, k => k ≤ hi.toNat
  | excluded hi, k => k < hi.toNat
  | unbounded, _ => true

/-- The first key of a range, none past the largest. -/
def first? : KeyBound → Option ℕ
  | included lo => some lo.toNat
  | excluded lo => if lo.toNat = KEY_MAX then none else some (lo.toNat + 1)
  | unbounded => some 0

/-- The last key of a range, none below zero. -/
def last? : KeyBound → Option ℕ
  | included hi => some hi.toNat
  | excluded hi => if hi.toNat = 0 then none else some (hi.toNat - 1)
  | unbounded => some KEY_MAX

end KeyBound

/-- `MapRangeCursor32`. -/
structure RangeCursor32 where
  cur : Option Cursor32
  stop : ℕ

namespace RangeCursor32

/-- `range_cursor`: the ends become inclusive, an empty range gets no cursor. -/
def new (fl : Flavour) (a : Arena) (e : Edge32) (start stop : KeyBound) : Except Fault RangeCursor32 :=
  match stop.last?, start.first? with
  | none, _ => .ok ⟨none, 0⟩
  | some hi, none => .ok ⟨none, hi⟩
  | some hi, some lo =>
    if hi < lo then .ok ⟨none, hi⟩ else (Cursor32.fromKey fl a e lo).map fun cur => ⟨some cur, hi⟩

def shown (c : RangeCursor32) (x : Option (ℕ × ℕ)) : Option (ℕ × ℕ) := x.filter fun x => x.1 ≤ c.stop

def current (c : RangeCursor32) : Option (ℕ × ℕ) := c.shown (c.cur.bind Cursor32.front)

def advanceTo (fl : Flavour) (a : Arena) (e : Edge32) (target : ℕ) (c : RangeCursor32) :
    Except Fault (Option (ℕ × ℕ) × RangeCursor32) :=
  if c.stop < target then .ok (none, { c with cur := none })
  else match c.cur with
    | none => .ok (none, c)
    | some cur => (cur.advanceTo fl a e target).map fun r => (c.shown r.1, { c with cur := some r.2 })

def next (fl : Flavour) (a : Arena) (e : Edge32) (c : RangeCursor32) :
    Except Fault (Option (ℕ × ℕ) × RangeCursor32) :=
  match c.cur with
  | none => .ok (none, c)
  | some cur =>
    match c.shown cur.front with
    | none => .ok (none, c)
    | some _ => (cur.next fl a e).map fun r => (r.1, { c with cur := some r.2 })

def call (fl : Flavour) (a : Arena) (e : Edge32) (c : RangeCursor32) :
    CursorCall → Except Fault (Option (ℕ × ℕ) × RangeCursor32)
  | .current => .ok (c.current, c)
  | .next => c.next fl a e
  | .advanceTo target => c.advanceTo fl a e target.toNat

end RangeCursor32

def ExpanseMap32.cursor (m : ExpanseMap32) : Except Fault Cursor32 := Cursor32.first .map m.alloc m.root

def ExpanseMap32.cursorFrom (m : ExpanseMap32) (start : ℕ) : Except Fault Cursor32 :=
  Cursor32.fromKey .map m.alloc m.root start

def ExpanseMap32.rangeCursor (m : ExpanseMap32) (start stop : KeyBound) : Except Fault RangeCursor32 :=
  RangeCursor32.new .map m.alloc m.root start stop

def ExpanseSet32.cursor (s : ExpanseSet32) : Except Fault Cursor32 := Cursor32.first .set s.alloc s.root

def ExpanseSet32.cursorFrom (s : ExpanseSet32) (start : ℕ) : Except Fault Cursor32 :=
  Cursor32.fromKey .set s.alloc s.root start

variable {fl : Flavour} {t : Tree} {e : Edge32} {a : Arena} {k : ℕ} {c : Cursor32} {l L R : List (ℕ × ℕ)}
    {x : ℕ × ℕ}

/-- The cursor stands at the head of `L`, which is what the list has from some key on. -/
structure Stands (a : Arena) (fl : Flavour) (l : List (ℕ × ℕ)) (c : Cursor32) (L : List (ℕ × ℕ)) : Prop where
  front : c.front = L.head?
  suffix : ∃ lo, L = l.filter fun x => lo ≤ x.1
  walk : ∀ raw ∈ c.walk, IterLeft a fl raw L.tail

theorem Stands.nil (h : Stands a fl l c L) (hx : c.front = none) : L = [] :=
  List.head?_eq_none_iff.mp (h.front.symm.trans hx)

/-- Behind the entry it stands on lie the entries with larger keys. -/
theorem Stands.cons (hs : KeySorted l) (h : Stands a fl l c L) (hx : c.front = some x) :
    ∃ ys, L = x :: ys ∧ x ∈ l ∧ ys = l.filter fun y => x.1 + 1 ≤ y.1 := by
  obtain ⟨lo, hL⟩ := h.suffix
  obtain ⟨ys, rfl⟩ := List.head?_eq_some_iff.mp (h.front.symm.trans hx)
  obtain ⟨-, hmem, hys⟩ := hs.filter_cons hL.symm
  exact ⟨ys, rfl, hmem, hys⟩

theorem Stands.sorted (hs : KeySorted l) (h : Stands a fl l c L) : KeySorted L := by
  obtain ⟨lo, rfl⟩ := h.suffix
  exact hs.sublist List.filter_sublist

theorem Stands.filter (h : Stands a fl l c L) (hx : c.front = some x) (hlt : x.1 < k) :
    (L.filter fun y => k ≤ y.1) = l.filter fun y => k ≤ y.1 := by
  have hhead : L.head? = some x := h.front.symm.trans hx
  obtain ⟨lo, rfl⟩ := h.suffix
  have hlo := of_decide_eq_true (List.mem_filter.mp (List.mem_of_mem_head? hhead)).2
  rw [List.filter_filter]
  refine List.filter_congr fun y _ => ?_
  rw [Bool.eq_iff_iff, Bool.and_eq_true]
  simp only [decide_eq_true_eq]
  omega

theorem stands_first (h : Stored a fl KEY_BYTES e t) :
    ∃ c, Cursor32.first fl a e = .ok c ∧ Stands a fl (entries KEY_BYTES t) c (entries KEY_BYTES t) := by
  have hall : (entries KEY_BYTES t).filter (fun x => 0 ≤ x.1) = entries KEY_BYTES t :=
    List.filter_eq_self.mpr fun x _ => decide_eq_true (Nat.zero_le _)
  rw [Cursor32.first, firstEntry_eq h]
  exact ⟨⟨_, none⟩, rfl, rfl, ⟨0, hall.symm⟩, fun raw hraw => absurd hraw (Option.not_mem_none raw)⟩

theorem stands_from (h : Stored a fl KEY_BYTES e t) (hk : k < 2 ^ 32) :
    ∃ c, Cursor32.fromKey fl a e k = .ok c ∧
      Stands a fl (entries KEY_BYTES t) c ((entries KEY_BYTES t).filter fun x => k ≤ x.1) := by
  rw [Cursor32.fromKey, Cursor32.seek, firstGe_eq h hk]
  exact ⟨⟨_, none⟩, rfl, rfl, ⟨k, rfl⟩, fun raw hraw => absurd hraw (Option.not_mem_none raw)⟩

theorem advanceTo_stands (h : Stored a fl KEY_BYTES e t) (hc : Stands a fl (entries KEY_BYTES t) c L)
    (hk : k < 2 ^ 32) :
    ∃ c', c.advanceTo fl a e k = .ok ((L.filter fun y => k ≤ y.1).head?, c') ∧
      Stands a fl (entries KEY_BYTES t) c' (L.filter fun y => k ≤ y.1) := by
  rw [Cursor32.advanceTo]
  cases hx : c.front with
  | none =>
    obtain rfl := hc.nil hx
    exact ⟨c, rfl, hc⟩
  | some x =>
    dsimp only
    split_ifs with hle
    · obtain ⟨ys, rfl, -, hys⟩ := hc.cons h.ok.held.1.sorted hx
      have hall : (x :: ys).filter (fun y => k ≤ y.1) = x :: ys := by
        refine List.filter_eq_self.mpr fun y hy => decide_eq_true ?_
        rcases List.mem_cons.mp hy with rfl | hy
        · exact hle
        · rw [hys] at hy
          have := of_decide_eq_true (List.mem_filter.mp hy).2
          omega
      rw [hall]
      exact ⟨c, rfl, hc⟩
    · rw [hc.filter hx (not_le.mp hle), Cursor32.seek, firstGe_eq h hk]
      exact ⟨⟨_, none⟩, rfl, rfl, ⟨k, rfl⟩, fun raw hraw => absurd hraw (Option.not_mem_none raw)⟩

theorem next_stands (h : Stored a fl KEY_BYTES e t) (hc : Stands a fl (entries KEY_BYTES t) c L) :
    ∃ c', c.next fl a e = .ok (L.head?, c') ∧ Stands a fl (entries KEY_BYTES t) c' L.tail := by
  rw [Cursor32.next]
  cases hx : c.front with
  | none =>
    obtain rfl := hc.nil hx
    exact ⟨c, rfl, hc⟩
  | some x =>
    obtain ⟨ys, rfl, hmem, hys⟩ := hc.cons h.ok.held.1.sorted hx
    have hmax := key_le h x hmem
    dsimp only
    split_ifs with htop
    · have hnil : ys = [] := by
        rw [hys]
        refine List.filter_eq_nil_iff.mpr fun y hy => ?_
        have := key_le h y hy
        simp only [decide_eq_true_eq]
        omega
      exact ⟨⟨none, none⟩, rfl, by rw [hnil]; rfl, ⟨x.1 + 1, hys⟩,
        fun raw hraw => absurd hraw (Option.not_mem_none raw)⟩
    · obtain ⟨raw, hraw, hleft⟩ : ∃ raw, c.begun fl a e (x.1 + 1) = .ok raw ∧ IterLeft a fl raw ys := by
        rw [Cursor32.begun]
        cases hw : c.walk with
        | some raw => exact ⟨raw, rfl, hc.walk raw hw⟩
        | none =>
          rw [hys]
          refine iter_new h ?_
          unfold KEY_MAX at hmax htop
          unfold KEY_BYTES
          omega
      obtain ⟨raw', hnext, hleft'⟩ := iter_next hleft
      rw [hraw, ok_bind, hnext, ok_bind]
      refine ⟨⟨ys.head?, some raw'⟩, rfl, rfl, ⟨x.1 + 1, hys⟩, fun r hr => ?_⟩
      cases hr
      exact hleft'

theorem call_stands (h : Stored a fl KEY_BYTES e t) (hc : Stands a fl (entries KEY_BYTES t) c L)
    (op : CursorCall) :
    ∃ c', c.call fl a e op = .ok ((op.onList Prod.fst L).1, c') ∧
      Stands a fl (entries KEY_BYTES t) c' (op.onList Prod.fst L).2 := by
  cases op with
  | current => exact ⟨c, by rw [Cursor32.call, hc.front]; rfl, hc⟩
  | next => exact next_stands h hc
  | advanceTo target => exact advanceTo_stands h hc target.toNat_lt

theorem head?_until (hs : KeySorted L) (hi : ℕ) :
    (L.filter fun y => y.1 ≤ hi).head? = L.head?.filter fun y => y.1 ≤ hi := by
  cases L with
  | nil => rfl
  | cons y ys =>
    rw [List.head?_cons, Option.filter, List.filter_cons]
    split_ifs with hy
    · rfl
    · rw [List.head?_eq_none_iff]
      refine List.filter_eq_nil_iff.mpr fun z hz => ?_
      have := (List.pairwise_cons.mp hs).1 z hz
      simp only [decide_eq_true_eq] at hy ⊢
      omega

/-- What the cursor has left, up to the end of the range. -/
def Shows (a : Arena) (fl : Flavour) (l : List (ℕ × ℕ)) (c : RangeCursor32) (R : List (ℕ × ℕ)) : Prop :=
  match c.cur with
  | none => R = []
  | some cur => ∃ L, Stands a fl l cur L ∧ R = L.filter fun y => y.1 ≤ c.stop

theorem call_shows {c : RangeCursor32} (h : Stored a fl KEY_BYTES e t)
    (hc : Shows a fl (entries KEY_BYTES t) c R)
    (op : CursorCall) :
    ∃ c', c.call fl a e op = .ok ((op.onList Prod.fst R).1, c') ∧
      Shows a fl (entries KEY_BYTES t) c' (op.onList Prod.fst R).2 := by
  have hs := h.ok.held.1.sorted
  obtain ⟨cur, stop⟩ := c
  cases cur with
  | none =>
    obtain rfl := show R = [] from hc
    cases op with
    | current => exact ⟨⟨none, stop⟩, rfl, rfl⟩
    | next => exact ⟨⟨none, stop⟩, rfl, rfl⟩
    | advanceTo target =>
      refine ⟨⟨none, stop⟩, ?_, rfl⟩
      rw [RangeCursor32.call, RangeCursor32.advanceTo]
      split_ifs <;> rfl
  | some cur =>
    obtain ⟨L, hL, rfl⟩ := show ∃ L, Stands a fl (entries KEY_BYTES t) cur L ∧
      R = L.filter fun y => y.1 ≤ stop from hc
    have hshown : (L.filter fun y => y.1 ≤ stop).head? = (RangeCursor32.mk (some cur) stop).shown cur.front := by
      rw [head?_until (hL.sorted hs), RangeCursor32.shown, hL.front]
    cases op with
    | current => exact ⟨⟨some cur, stop⟩, by rw [CursorCall.onList, hshown]; rfl, hc⟩
    | next =>
      rw [CursorCall.onList, hshown, RangeCursor32.call, RangeCursor32.next]
      dsimp only
      cases hy : (RangeCursor32.mk (some cur) stop).shown cur.front with
      | none =>
        have hnil : (L.filter fun y => y.1 ≤ stop) = [] := List.head?_eq_none_iff.mp (hshown.trans hy)
        rw [hnil]
        exact ⟨⟨some cur, stop⟩, rfl, L, hL, hnil.symm⟩
      | some y =>
        obtain ⟨hfront, hle⟩ := Option.filter_eq_some_iff.mp hy
        obtain ⟨ys, rfl, -, -⟩ := hL.cons hs hfront
        obtain ⟨cur', hnext, hcur'⟩ := next_stands h hL
        have hcons : ((y :: ys).filter fun z => z.1 ≤ stop) = y :: ys.filter fun z => z.1 ≤ stop :=
          List.filter_cons_of_pos hle
        rw [hnext, hcons]
        exact ⟨⟨some cur', stop⟩, rfl, ys, hcur', rfl⟩
    | advanceTo target =>
      rw [CursorCall.onList, RangeCursor32.call, RangeCursor32.advanceTo]
      dsimp only
      split_ifs with hbeyond
      · have hnil : ((L.filter fun y => y.1 ≤ stop).filter fun y => target.toNat ≤ y.1) = [] := by
          refine List.filter_eq_nil_iff.mpr fun y hy => ?_
          have := of_decide_eq_true (List.mem_filter.mp hy).2
          simp only [decide_eq_true_eq]
          omega
        rw [hnil]
        exact ⟨⟨none, stop⟩, rfl, rfl⟩
      · obtain ⟨cur', hadv, hcur'⟩ := advanceTo_stands h hL target.toNat_lt
        rw [hadv, List.filter_comm, head?_until (hcur'.sorted hs)]
        exact ⟨⟨some cur', stop⟩, rfl, _, hcur', rfl⟩

/-- The cursor opens, and every script of calls on it answers as the list does. -/
def Tracks {State : Type} (call : State → CursorCall → Except Fault (Option (ℕ × ℕ) × State))
    (c : Except Fault State) (L : List (ℕ × ℕ)) : Prop :=
  ∃ s, c = .ok s ∧ ∀ calls, ∃ s', run call s calls =
    .ok ((refRun (fun L op => op.onList Prod.fst L) L calls).1, s')

theorem tracks_of_stands (h : Stored a fl KEY_BYTES e t) (hc : Stands a fl (entries KEY_BYTES t) c L) :
    Tracks (Cursor32.call fl a e) (.ok c) L := by
  refine ⟨c, rfl, fun calls => ?_⟩
  obtain ⟨c', hrun, -⟩ := run_refines (P := fun _ _ => True) (R := Stands a fl (entries KEY_BYTES t))
    (fun c L op hc _ => call_stands h hc op) hc (along_trivial _ c calls)
  exact ⟨c', hrun⟩

theorem tracks_first (h : Stored a fl KEY_BYTES e t) :
    Tracks (Cursor32.call fl a e) (Cursor32.first fl a e) (entries KEY_BYTES t) := by
  obtain ⟨c, hc, hst⟩ := stands_first h
  rw [hc]
  exact tracks_of_stands h hst

theorem tracks_from (h : Stored a fl KEY_BYTES e t) (hk : k < 2 ^ 32) :
    Tracks (Cursor32.call fl a e) (Cursor32.fromKey fl a e k)
      ((entries KEY_BYTES t).filter fun x => k ≤ x.1) := by
  obtain ⟨c, hc, hst⟩ := stands_from h hk
  rw [hc]
  exact tracks_of_stands h hst

theorem tracks_of_shows {c : RangeCursor32} (h : Stored a fl KEY_BYTES e t)
    (hc : Shows a fl (entries KEY_BYTES t) c R) :
    Tracks (RangeCursor32.call fl a e) (.ok c) R := by
  refine ⟨c, rfl, fun calls => ?_⟩
  obtain ⟨c', hrun, -⟩ := run_refines (P := fun _ _ => True) (R := Shows a fl (entries KEY_BYTES t))
    (fun c R op hc _ => call_shows h hc op) hc (along_trivial _ c calls)
  exact ⟨c', hrun⟩

theorem above_eq (b : KeyBound) (hk : k ≤ KEY_MAX) :
    b.above k = (b.first?.elim false fun lo => decide (lo ≤ k)) := by
  cases b with
  | included lo => rfl
  | excluded lo =>
    rw [KeyBound.above, KeyBound.first?]
    split_ifs with hmax
    · simp only [Option.elim_none, decide_eq_false_iff_not]
      omega
    · rfl
  | unbounded => simp [KeyBound.above, KeyBound.first?]

theorem below_eq (b : KeyBound) (hk : k ≤ KEY_MAX) :
    b.below k = (b.last?.elim false fun hi => decide (k ≤ hi)) := by
  cases b with
  | included hi => rfl
  | excluded hi =>
    rw [KeyBound.below, KeyBound.last?]
    split_ifs with hzero
    · simp only [Option.elim_none, decide_eq_false_iff_not]
      omega
    · simp only [Option.elim_some, decide_eq_decide]
      omega
  | unbounded => simpa [KeyBound.below, KeyBound.last?] using hk

theorem first?_lt {b : KeyBound} (hb : b.first? = some k) : k < 2 ^ 32 := by
  cases b with
  | included lo =>
    cases hb
    exact lo.toNat_lt
  | excluded lo =>
    rw [KeyBound.first?] at hb
    split_ifs at hb with hmax
    cases hb
    have := lo.toNat_lt
    unfold KEY_MAX at hmax
    omega
  | unbounded =>
    cases hb
    decide

/-- A range cursor goes through the entries between its two ends. -/
theorem tracks_range (h : Stored a fl KEY_BYTES e t) (start stop : KeyBound) :
    Tracks (RangeCursor32.call fl a e) (RangeCursor32.new fl a e start stop)
      ((entries KEY_BYTES t).filter fun x => start.above x.1 && stop.below x.1) := by
  have hin : ((entries KEY_BYTES t).filter fun x => start.above x.1 && stop.below x.1) =
      (entries KEY_BYTES t).filter fun x => (start.first?.elim false fun lo => decide (lo ≤ x.1)) &&
        (stop.last?.elim false fun hi => decide (x.1 ≤ hi)) :=
    List.filter_congr fun x hx => by rw [above_eq start (key_le h x hx), below_eq stop (key_le h x hx)]
  rw [hin, RangeCursor32.new]
  have hempty : ∀ hi, Tracks (RangeCursor32.call fl a e) (.ok ⟨none, hi⟩) [] := fun hi => tracks_of_shows h rfl
  cases hhi : stop.last? with
  | none =>
    simp only [Option.elim_none, Bool.and_false, List.filter_false]
    exact hempty 0
  | some hi =>
    cases hlo : start.first? with
    | none =>
      simp only [Option.elim_none, Bool.false_and, List.filter_false]
      exact hempty hi
    | some lo =>
      simp only [Option.elim_some]
      split_ifs with hlt
      · have hnil : ((entries KEY_BYTES t).filter fun x => decide (lo ≤ x.1) && decide (x.1 ≤ hi)) = [] := by
          refine List.filter_eq_nil_iff.mpr fun x _ => ?_
          rw [Bool.and_eq_true]
          simp only [decide_eq_true_eq]
          omega
        rw [hnil]
        exact hempty hi
      · obtain ⟨c, hc, hst⟩ := stands_from h (first?_lt hlo)
        rw [hc]
        refine tracks_of_shows h ⟨_, hst, ?_⟩
        rw [List.filter_filter]
        exact List.filter_congr fun x _ => Bool.and_comm _ _

theorem onList_keys (L : List (ℕ × ℕ)) (op : CursorCall) :
    ExpanseSet32.keyOf (op.onList Prod.fst L).1 = (op.onList id (L.map Prod.fst)).1 ∧
      (op.onList Prod.fst L).2.map Prod.fst = (op.onList id (L.map Prod.fst)).2 := by
  cases op with
  | current => exact ⟨List.head?_map.symm, rfl⟩
  | next => exact ⟨List.head?_map.symm, List.map_tail⟩
  | advanceTo target =>
    have hmap : (L.map Prod.fst).filter (fun k => target.toNat ≤ id k) =
        (L.filter fun x => target.toNat ≤ x.1).map Prod.fst := by
      rw [List.filter_map]
      rfl
    rw [CursorCall.onList, CursorCall.onList, hmap]
    exact ⟨List.head?_map.symm, rfl⟩

theorem onList_run_keys (L : List (ℕ × ℕ)) (calls : List CursorCall) :
    (refRun (fun L op => op.onList Prod.fst L) L calls).1.map ExpanseSet32.keyOf =
      (refRun (fun K op => op.onList id K) (L.map Prod.fst) calls).1 := by
  induction calls generalizing L with
  | nil => rfl
  | cons op calls ih =>
    obtain ⟨hout, hrest⟩ := onList_keys L op
    rw [refRun, refRun, List.map_cons, hout, ih, hrest]

def TracksKeys {State : Type} (call : State → CursorCall → Except Fault (Option (ℕ × ℕ) × State))
    (c : Except Fault State) (K : List ℕ) : Prop :=
  ∃ s, c = .ok s ∧ ∀ calls, ∃ outs s', run call s calls = .ok (outs, s') ∧
    outs.map ExpanseSet32.keyOf = (refRun (fun K op => op.onList id K) K calls).1

theorem Tracks.keys {State : Type} {call : State → CursorCall → Except Fault (Option (ℕ × ℕ) × State)}
    {c : Except Fault State} (h : Tracks call c L) : TracksKeys call c (L.map Prod.fst) := by
  obtain ⟨s, hc, hrun⟩ := h
  refine ⟨s, hc, fun calls => ?_⟩
  obtain ⟨s', hr⟩ := hrun calls
  exact ⟨_, s', hr, onList_run_keys L calls⟩

/-- In every state of a run, the cursors of a map answer every script of calls as its sorted list does. -/
theorem ExpanseMap32.map_cursors_exact (ops : List ExpanseMap32.Op) :
    ∃ outs m, run ExpanseMap32.step ExpanseMap32.new ops = .ok (outs, m) ∧
      Tracks (Cursor32.call .map m.alloc m.root) m.cursor (refRun ExpanseMap32.refStep [] ops).2 ∧
      (∀ start : UInt32, Tracks (Cursor32.call .map m.alloc m.root) (m.cursorFrom start.toNat)
        ((refRun ExpanseMap32.refStep [] ops).2.filter fun x => start.toNat ≤ x.1)) ∧
      ∀ start stop : KeyBound, Tracks (RangeCursor32.call .map m.alloc m.root) (m.rangeCursor start stop)
        ((refRun ExpanseMap32.refStep [] ops).2.filter fun x => start.above x.1 && stop.below x.1) := by
  obtain ⟨m, hr, t, C, hs, -, hl⟩ := ExpanseMap32.map_runs_refine ops
  rw [← hl]
  exact ⟨_, m, hr, tracks_first hs.stored, fun start => tracks_from hs.stored start.toNat_lt,
    tracks_range hs.stored⟩

/-- So do the cursors of a set, for its keys. -/
theorem ExpanseSet32.set_cursors_exact (ops : List ExpanseSet32.Op) :
    ∃ outs s, run ExpanseSet32.step ExpanseSet32.new ops = .ok (outs, s) ∧
      TracksKeys (Cursor32.call .set s.alloc s.root) s.cursor (asc (refRun ExpanseSet32.refStep ∅ ops).2) ∧
      ∀ start : UInt32, TracksKeys (Cursor32.call .set s.alloc s.root) (s.cursorFrom start.toNat)
        (asc ((refRun ExpanseSet32.refStep ∅ ops).2.filter (start.toNat ≤ ·))) := by
  obtain ⟨s, hr, t, C, hs, -, hF⟩ := ExpanseSet32.set_runs_refine ops
  refine ⟨_, s, hr, ?_, fun start => ?_⟩
  · rw [← hF]
    exact (tracks_first hs.stored).keys
  · rw [← ExpanseSet32.filter_keys hF]
    exact (tracks_from hs.stored start.toNat_lt).keys

end Expanse.Trie32
