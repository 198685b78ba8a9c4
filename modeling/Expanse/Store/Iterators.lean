import Expanse.Engine.IterTree
import Expanse.Store.Map
import Expanse.Store.Set

/-!
# Iterators of sets and maps

`iter`, `range` and their reverses start a walker at the root, in whatever form the
root is, and draw entries from it. A reverse walker draws descending entries down
to its lower bound. Forward walks of a set stop short where the last word lies in a
full expanse: stepping past it overflows.
-/

namespace Expanse

open Radix SortedAssoc Edge Runs

namespace Store

variable {V : Type} [Inhabited V]

def iterFwdRaw (fl : Flavour) (s : Store V) : Except Fault (Iter V) :=
  match s.root with
  | .empty => .ok .new
  | .leaf cols => .ok (.fromRootLeaf cols)
  | .tree top => Iter.fromTree fl top

def rangeFwdRaw (fl : Flavour) (s : Store V) (start : ℕ) : Except Fault (Iter V) :=
  match s.root with
  | .empty => .ok .new
  | .leaf cols => .ok (.fromRootLeafRange cols start)
  | .tree top => Iter.fromTreeRange fl top start

def iterRevRaw (fl : Flavour) (s : Store V) : Except Fault (Iter V) :=
  match s.root with
  | .empty => .ok .new
  | .leaf cols => .ok (.fromRootLeafRev cols)
  | .tree top => Iter.fromTreeRev fl top

def rangeRevRaw (fl : Flavour) (s : Store V) (bound : ℕ) : Except Fault (Iter V) :=
  match s.root with
  | .empty => .ok .new
  | .leaf cols => .ok (.fromRootLeafRangeRev cols bound)
  | .tree top => Iter.fromTreeRangeRev fl top bound

def lastWordFull (s : Store V) : Bool :=
  match s.root with
  | .tree top => (terminal 8 top (256 ^ 8 - 1)).2.isFull
  | _ => false

end Store

/-- A descending iterator; `hi` is the upper end of its window. -/
structure IterRev (V : Type) where
  raw : Iter V
  lo : ℕ
  hi : ℕ
  done : Bool

namespace IterRev

variable {V : Type} [Inhabited V]

/-- The next entry down to `lo`; reaching `lo` closes the window. -/
def next (fl : Flavour) (w : IterRev V) : Except Fault (Option (ℕ × V) × IterRev V) :=
  if w.done then .ok (none, w)
  else
    match w.raw.nextBack fl with
    | .error f => .error f
    | .ok (none, raw) => .ok (none, { w with raw := raw })
    | .ok (some (k, v), raw) =>
      if k < w.lo then .ok (none, { w with raw := raw, done := true })
      else if k = w.lo then .ok (some (k, v), { w with raw := raw, done := true })
      else .ok (some (k, v), { w with raw := raw, hi := k - 1 })

end IterRev

namespace Store

variable {V : Type} [Inhabited V]

def iterRev (fl : Flavour) (s : Store V) : Except Fault (IterRev V) :=
  (s.iterRevRaw fl).map fun raw => ⟨raw, 0, 256 ^ 8 - 1, s.len == 0⟩

def rangeRev (fl : Flavour) (s : Store V) (start stop : ℕ) : Except Fault (IterRev V) :=
  if stop < start then .ok ⟨.new, start, stop, true⟩
  else (s.rangeRevRaw fl stop).map fun raw => ⟨raw, start, stop, false⟩

variable {fl : Flavour} {lo : ℕ → ℕ → ℕ} {s : Store V} {top : Edge V} {n : ℕ}
  {path : Option InsertPath} {dir : Direction} {cols : Columns V}

theorem TreeInv.rooted (h : TreeInv fl lo top n path) :
    Iter.Rooted fl (terminal 8 top (256 ^ 8 - 1)).2.isFull top := by
  have hne : entries 8 top ≠ [] := by
    intro hnil
    have := h.large
    rw [hnil] at this
    cases this
  have hwf := WF.populated h.wf (.inr (by rwa [h.entries_settled]))
  refine ⟨?_, ?_, rfl⟩
  · cases path with
    | none => exact hwf
    | some w =>
      obtain ⟨u, t, hr, hpop⟩ := h.leads w rfl
      exact populated_of_flush h.readable hr (ne_null_of_warmPop hpop) hwf
  · rintro rfl
    exact hne (by simp [entries])

/-- A walker over the stored items with `l` left. -/
def Seeded (dir : Direction) (fl : Flavour) (s : Store V) (it : Except Fault (Iter V))
    (l : List (ℕ × V)) : Prop :=
  ∃ it', it = .ok it' ∧ Iter.Walking dir fl s.lastWordFull s.items it' ∧ it'.left dir = l

theorem walking_rootLeaf {i : ℕ} (hp : cols.Packed 8) (hi : i ≤ cols.size) :
    Iter.Walking dir fl false cols.entries ⟨.rootLeaf cols i, []⟩ where
  standing :=
    { leaf := ⟨hp, hi⟩
      top := fun _ => ⟨fun _ hm => (by cases hm), fun hm => (by cases hm), fun hf => (by cases hf)⟩
      stack := trivial
      nested := dir.rest_suffix i cols.entries
      root := fun _ _ => rfl }
  drained := fun hc => (by cases hc)

theorem seeded_rootLeaf (dir : Direction) (fl : Flavour) (treePop : ℕ) (path : Option InsertPath)
    {i : ℕ} (hp : cols.Packed 8) (hi : i ≤ cols.size) :
    Seeded dir fl (⟨.leaf cols, treePop, path⟩ : Store V) (.ok ⟨.rootLeaf cols i, []⟩)
      (dir.rest i cols.entries) :=
  ⟨_, rfl, walking_rootLeaf hp hi, List.append_nil _⟩

theorem seeded_new : Seeded dir fl s (.ok Iter.new) [] :=
  ⟨_, rfl, Iter.walking_end, rfl⟩

variable (hV : fl = .set → ∀ v : V, v = default)

include hV

theorem iterFwdRaw_spec (h : Inv fl lo s) : Seeded .forward fl s (s.iterFwdRaw fl) s.items := by
  obtain ⟨root, n, path⟩ := s
  cases root with
  | empty => exact seeded_new
  | leaf cols => exact seeded_rootLeaf .forward fl n path h.packed (Nat.zero_le _)
  | tree top => exact Iter.descend_root .forward hV (TreeInv.rooted h)

theorem rangeFwdRaw_spec (h : Inv fl lo s) (start : ℕ) :
    Seeded .forward fl s (s.rangeFwdRaw fl start) (s.items.filter (start ≤ ·.1)) := by
  obtain ⟨root, n, path⟩ := s
  cases root with
  | empty => exact seeded_new
  | leaf cols =>
    have hi : lowerBound cols.keys start ≤ cols.size := lowerBound_le _ _
    have hr := Direction.forward.rest_lowerBound h.packed.keySorted start
    rw [Columns.map_fst_entries] at hr
    have := seeded_rootLeaf .forward fl n path h.packed hi
    rw [hr] at this
    exact this
  | tree top => exact Iter.fromTreeRange_spec hV (TreeInv.rooted h) start

theorem iterRevRaw_spec (h : Inv fl lo s) :
    Seeded .backward fl s (s.iterRevRaw fl) s.items.reverse := by
  obtain ⟨root, n, path⟩ := s
  cases root with
  | empty => exact seeded_new
  | leaf cols =>
    have hpos := h.one_le
    have := seeded_rootLeaf .backward fl n path h.packed
      (le_refl cols.size)
    rw [Direction.rest, List.take_of_length_le (by rw [Columns.length_entries])] at this
    change Seeded .backward fl _ (.ok (Iter.fromRootLeafRev cols)) _
    rw [Iter.fromRootLeafRev, if_neg (by omega)]
    exact this
  | tree top => exact Iter.descend_root .backward hV (TreeInv.rooted h)

theorem rangeRevRaw_spec (h : Inv fl lo s) (bound : ℕ) :
    Seeded .backward fl s (s.rangeRevRaw fl bound) (s.items.filter (·.1 ≤ bound)).reverse := by
  obtain ⟨root, n, path⟩ := s
  cases root with
  | empty => exact seeded_new
  | leaf cols =>
    have hi : lowerBound cols.keys (bound + 1) ≤ cols.size := lowerBound_le _ _
    have hr := Direction.backward.rest_lowerBound h.packed.keySorted (bound + 1)
    rw [Columns.map_fst_entries, Direction.restKeys] at hr
    simp only [Nat.lt_succ_iff] at hr
    change Seeded .backward fl _ (.ok (Iter.fromRootLeafRangeRev cols bound)) _
    rw [Iter.fromRootLeafRangeRev, length_filter_le _ h.packed.sorted]
    split_ifs with h0
    · rw [h0, Direction.rest, List.take_zero, List.reverse_nil] at hr
      rw [items, ← hr]
      exact seeded_new
    · have := seeded_rootLeaf .backward fl n path h.packed hi
      rw [hr] at this
      exact this
  | tree top => exact Iter.fromTreeRangeRev_spec hV (TreeInv.rooted h) bound

/-- Entries drawn from a seeded forward walker, as long as stepping past the last word is safe. -/
theorem calls_next {it : Iter V} {l : List (ℕ × V)} {full : Bool} {all : List (ℕ × V)}
    (h : Iter.Walking .forward fl full all it) (hl : it.left .forward = l) (hf : full = false) (n : ℕ) :
    calls (Iter.next fl) it n = .ok (drawn l n) := by
  subst hf hl
  exact calls_eq (Iter.left .forward) (fun it h => Iter.nextBy_spec hV h
    (fun _ hc => (by cases hc)) 7) h n

/-- The call that would hand out the last word of a full expanse overflows. -/
theorem calls_next_overflow {it : Iter V} {all : List (ℕ × V)} {v : V}
    (h : Iter.Walking .forward fl true all it) (hm : (256 ^ 8 - 1, v) ∈ it.left .forward) :
    calls (Iter.next fl) it (it.left .forward).length = .error .overflow := by
  refine calls_fault_at (Iter.left .forward) (fun x => x.1 = 256 ^ 8 - 1) ?_ ?_ h hm
    rfl le_rfl
  · intro it h hb
    refine Iter.nextBy_spec hV h (fun _ _ x xs hl => ?_) 7
    exact hb x (by rw [hl]; rfl)
  · intro it x h hx hb
    obtain ⟨xs, hl⟩ := List.head?_eq_some_iff.mp hx
    exact Iter.nextBy_overflow hV h hl hb 7

end Store

namespace IterRev

variable {V : Type} [Inhabited V] {fl : Flavour} {full : Bool} {all : List (ℕ × V)} {w : IterRev V}

/-- The entries left of a descending iterator. -/
def left (w : IterRev V) : List (ℕ × V) :=
  if w.done then [] else (w.raw.left .backward).filter (w.lo ≤ ·.1)

theorem left_of_done (h : w.done = true) : w.left = [] := by
  rw [left, if_pos h]

theorem next_spec (hV : fl = .set → ∀ v : V, v = default) (hs : KeySorted all)
    (h : Iter.Walking .backward fl full all w.raw) :
    ∃ w', w.next fl = .ok (w.left.head?, w') ∧ Iter.Walking .backward fl full all w'.raw ∧
      w'.left = w.left.tail := by
  cases hd : w.done with
  | true =>
    rw [left_of_done hd]
    exact ⟨w, by rw [next, if_pos hd]; rfl, h, left_of_done hd⟩
  | false =>
    obtain ⟨raw, hn, hw, hl⟩ := Iter.nextBy_spec hV h (fun hc => (by cases hc)) 7
    have hnext : w.raw.nextBack fl = .ok ((w.raw.left .backward).head?, raw) := hn
    have hdesc := h.sorted hs
    rw [next, if_neg (by simp [hd]), hnext, left, if_neg (by simp [hd])]
    cases hleft : w.raw.left .backward with
    | nil =>
      rw [hleft] at hl
      refine ⟨_, rfl, hw, ?_⟩
      rw [left, hl]
      simp
    | cons x xs =>
      obtain ⟨k, v⟩ := x
      rw [hleft] at hl hdesc
      have hlt : ∀ y ∈ xs, y.1 < k := (List.pairwise_cons.mp hdesc).1
      have hnone : k ≤ w.lo → xs.filter (w.lo ≤ ·.1) = [] := by
        intro hk
        rw [List.filter_eq_nil_iff]
        intro y hy
        have := hlt y hy
        simp only [decide_eq_true_eq]
        omega
      dsimp only [List.head?_cons]
      rcases Nat.lt_trichotomy k w.lo with hk | hk | hk
      · rw [if_pos hk, List.filter_cons_of_neg (by simpa using hk), hnone (by omega)]
        exact ⟨_, rfl, hw, left_of_done rfl⟩
      · rw [if_neg (by omega), if_pos hk, List.filter_cons_of_pos (by simp [hk]), hnone (by omega)]
        exact ⟨_, rfl, hw, left_of_done rfl⟩
      · rw [if_neg (by omega), if_neg (by omega), List.filter_cons_of_pos (by simpa using hk.le)]
        refine ⟨_, rfl, hw, ?_⟩
        rw [left, hl]
        simp [hd]

theorem calls_next_eq (hV : fl = .set → ∀ v : V, v = default) (hs : KeySorted all)
    (h : Iter.Walking .backward fl full all w.raw) (n : ℕ) :
    calls (next fl) w n = .ok (drawn w.left n) :=
  calls_eq left (I := fun w => Iter.Walking .backward fl full all w.raw)
    (fun _ h => next_spec hV hs h) h n

end IterRev

namespace Store

variable {V : Type} [Inhabited V] {fl : Flavour} {lo : ℕ → ℕ → ℕ} {s : Store V}
  {it : Except Fault (Iter V)} {l : List (ℕ × V)}

/-- The answers of `n` calls on an iterator that may have failed to start. -/
def draw {State α : Type} (next : State → Except Fault (Option α × State)) (it : Except Fault State)
    (n : ℕ) : Except Fault (List (Option α)) :=
  it.bind fun it => calls next it n

theorem draw_map {State α β : Type} (next : State → Except Fault (Option α × State)) (g : α → β)
    (it : Except Fault State) (n : ℕ) :
    draw (fun s => (next s).map fun r => (r.1.map g, r.2)) it n =
      (draw next it n).map (List.map (Option.map g)) := by
  cases it with
  | error f => rfl
  | ok it => exact calls_map g it n

theorem draw_map_ok {State α β : Type} {next : State → Except Fault (Option α × State)} (g : α → β)
    {it : Except Fault State} {n : ℕ} {l : List α} (h : draw next it n = .ok (drawn l n)) :
    draw (fun s => (next s).map fun r => (r.1.map g, r.2)) it n = .ok (drawn (l.map g) n) := by
  rw [draw_map, h, ← drawn_map]
  rfl

theorem mem_of_lastWordFull (h : Inv fl lo s) (hf : s.lastWordFull = true) :
    fl = .set ∧ (256 ^ 8 - 1, default) ∈ s.items := by
  obtain ⟨root, n, path⟩ := s
  cases root with
  | empty => cases hf
  | leaf cols => cases hf
  | tree top => exact mem_of_terminal_full h.readable hf

variable (hV : fl = .set → ∀ v : V, v = default)

include hV

theorem Seeded.draw_ok (hs : Seeded .forward fl s it l) (hf : s.lastWordFull = false) (n : ℕ) :
    draw (Iter.next fl) it n = .ok (drawn l n) := by
  obtain ⟨it', rfl, hw, hl⟩ := hs
  exact calls_next hV hw hl hf n

theorem Seeded.draw_overflow (h : Inv fl lo s) (hs : Seeded .forward fl s it l)
    (hm : ∀ v, (256 ^ 8 - 1, v) ∈ s.items → (256 ^ 8 - 1, v) ∈ l) (hf : s.lastWordFull = true) :
    draw (Iter.next fl) it l.length = .error .overflow := by
  obtain ⟨it', rfl, hw, rfl⟩ := hs
  exact calls_next_overflow hV (hf ▸ hw) (hm _ (mem_of_lastWordFull h hf).2)

theorem iterRev_draw (h : Inv fl lo s) (n : ℕ) :
    draw (IterRev.next fl) (s.iterRev fl) n = .ok (drawn s.items.reverse n) := by
  obtain ⟨it, hit, hw, hl⟩ := iterRevRaw_spec hV h
  rw [iterRev, hit, draw]
  change calls (IterRev.next fl) _ n = _
  rw [IterRev.calls_next_eq hV h.sorted hw]
  congr 2
  rw [IterRev.left, hl]
  by_cases h0 : s.len = 0
  · have hnil : s.items = [] := List.length_eq_zero_iff.mp ((len_eq h).symm.trans h0)
    simp [h0, hnil]
  · simp [h0]

theorem rangeRev_draw (h : Inv fl lo s) {start stop : ℕ} (hle : start ≤ stop) (n : ℕ) :
    draw (IterRev.next fl) (s.rangeRev fl start stop) n =
      .ok (drawn (s.items.filter fun x => start ≤ x.1 ∧ x.1 ≤ stop).reverse n) := by
  obtain ⟨it, hit, hw, hl⟩ := rangeRevRaw_spec hV h stop
  rw [rangeRev, if_neg (by omega), hit, draw]
  change calls (IterRev.next fl) _ n = _
  rw [IterRev.calls_next_eq hV h.sorted hw]
  congr 2
  rw [IterRev.left, hl, if_neg (by simp), List.filter_reverse, List.filter_filter]
  simp only [Bool.decide_and]

end Store

namespace ExpanseSet

open Store

variable {s : ExpanseSet}

/-- The stored words, ascending. -/
def keys (s : ExpanseSet) : List ℕ := s.items.map Prod.fst

def SetIter.next (it : Iter Unit) : Except Fault (Option ℕ × Iter Unit) :=
  (it.next .set).map fun r => (r.1.map Prod.fst, r.2)

def SetIterRev.next (it : IterRev Unit) : Except Fault (Option ℕ × IterRev Unit) :=
  (it.next .set).map fun r => (r.1.map Prod.fst, r.2)

def SetRangeRev.next (it : IterRev Unit) : Except Fault (Option ℕ × IterRev Unit) :=
  (it.next .set).map fun r => (r.1.map Prod.fst, r.2)

def iter (s : ExpanseSet) : Except Fault (Iter Unit) := s.iterFwdRaw .set

/-- The forward iterator over the keys from `start` on. -/
def iterFrom (s : ExpanseSet) (start : UInt64) : Except Fault (Iter Unit) :=
  s.rangeFwdRaw .set start.toNat

def iterRev (s : ExpanseSet) : Except Fault (IterRev Unit) := Store.iterRev .set s

def rangeRev (s : ExpanseSet) (start stop : UInt64) : Except Fault (IterRev Unit) :=
  Store.rangeRev .set s start.toNat stop.toNat

theorem keys_sorted {lo : ℕ → ℕ → ℕ} (h : Inv .set lo s) : s.keys.Pairwise (· < ·) :=
  keySorted_iff.mp h.sorted

theorem keys_filter (s : ExpanseSet) (p : ℕ → Bool) :
    (s.items.filter fun x => p x.1).map Prod.fst = s.keys.filter p := by
  rw [keys, List.filter_map]
  rfl

/-- A forward iterator that still has the last word to come, if it is stored. -/
theorem draw_next_iff {lo : ℕ → ℕ → ℕ} {it : Except Fault (Iter Unit)} {l : List (ℕ × Unit)}
    (h : Inv .set lo s) (hs : Seeded .forward .set s it l)
    (hm : ∀ v, (256 ^ 8 - 1, v) ∈ s.items → (256 ^ 8 - 1, v) ∈ l) :
    (∀ n, draw SetIter.next it n = .ok (drawn (l.map Prod.fst) n)) ↔ s.lastWordFull = false := by
  constructor
  · intro hall
    by_contra hf
    rw [Bool.not_eq_false] at hf
    have hn := hall l.length
    change draw (fun it : Iter Unit => (it.next .set).map fun r => (r.1.map Prod.fst, r.2)) it _ = _
      at hn
    rw [draw_map, Seeded.draw_overflow (fun _ _ => rfl) h hs hm hf] at hn
    cases hn
  · exact fun hf n => draw_map_ok Prod.fst (hs.draw_ok (fun _ _ => rfl) hf n)

theorem iterFrom_iff {lo : ℕ → ℕ → ℕ} (h : Inv .set lo s) (start : UInt64) :
    (∀ n, draw SetIter.next (s.iterFrom start) n =
      .ok (drawn (s.keys.filter (start.toNat ≤ ·)) n)) ↔ s.lastWordFull = false := by
  have hf := draw_next_iff h (rangeFwdRaw_spec (fun _ _ => rfl) h start.toNat) (by
    intro v hm
    refine List.mem_filter.mpr ⟨hm, decide_eq_true ?_⟩
    have := toNat_lt start
    change start.toNat ≤ 256 ^ 8 - 1
    omega)
  rw [keys_filter s fun k => decide (start.toNat ≤ k)] at hf
  exact hf

/-- The forward iterators of a reachable set hand out the stored keys, or those from `start` on,
ascending and each once, exactly where the last word is not stored in a full expanse. -/
theorem forward_iff (s : ExpanseSet) (h : Reachable s) (start : UInt64) :
    s.keys.Pairwise (· < ·) ∧
      ((∀ n, draw SetIter.next s.iter n = .ok (drawn s.keys n)) ↔ s.lastWordFull = false) ∧
      ((∀ n, draw SetIter.next (s.iterFrom start) n =
        .ok (drawn (s.keys.filter (start.toNat ≤ ·)) n)) ↔ s.lastWordFull = false) :=
  ⟨keys_sorted h.inv, draw_next_iff h.inv (iterFwdRaw_spec (fun _ _ => rfl) h.inv) (fun _ hm => hm),
    iterFrom_iff h.inv start⟩

/-- The set after `warmOps`. -/
theorem warmOps_reach : ∃ s : ExpanseSet, Reachable s ∧ s.items.length = 39 ∧ s.lastWordFull = false := by
  obtain ⟨outs, s, hr, hitems⟩ := warmOps_run
  have hreach : Reachable s := ⟨_, outs, hr⟩
  refine ⟨s, hreach, by rw [← List.length_map Prod.fst, hitems]; rfl, ?_⟩
  by_contra hf
  rw [Bool.not_eq_false] at hf
  have hlast : 256 ^ 8 - 1 ∈ s.items.map Prod.fst := List.mem_map_of_mem (mem_of_lastWordFull hreach.inv hf).2
  have hlt := List.mem_range.mp (List.mem_of_mem_erase (hitems ▸ hlast))
  omega

theorem forward_iff_warm : ∃ s : ExpanseSet, Reachable s ∧ s.keys.length = 39 ∧
    ∀ n, draw SetIter.next (s.iterFrom 3) n = .ok (drawn (s.keys.filter (3 ≤ ·)) n) := by
  obtain ⟨s, hs, hlen, hf⟩ := warmOps_reach
  exact ⟨s, hs, by rw [keys, List.length_map, hlen], (forward_iff s hs 3).2.2.mpr hf⟩

/-- One key, then the last 256 words: the last word ends up in a full expanse. -/
def lastGroup : List UInt64 :=
  0xFFFFFFFFFFFFFE00 :: (List.range 256).map fun i => 0xFFFFFFFFFFFFFF00 + UInt64.ofNat i

/-- The set of `lastGroup`. -/
theorem lastGroup_reach : ∃ s : ExpanseSet, Reachable s ∧ s.items.length = 257 ∧ s.lastWordFull = true := by
  have hrun : ((run step Store.new (lastGroup.map .insert)).toOption.map fun r =>
      (r.2.items.length, r.2.lastWordFull)) = some (257, true) := by
    decide +kernel
  cases hr : run step Store.new (lastGroup.map .insert) with
  | error f => simp [hr, Except.toOption] at hrun
  | ok r =>
    simp only [hr, Except.toOption, Option.map_some, Option.some.injEq, Prod.mk.injEq] at hrun
    exact ⟨r.2, ⟨_, r.1, hr⟩, hrun⟩

/-- Stepping past the last word of a full expanse overflows. -/
theorem forward_overflows_past_last_word :
    ¬ ∀ s : ExpanseSet, Reachable s → ∀ (start : UInt64) (n : ℕ),
      draw SetIter.next (s.iterFrom start) n = .ok (drawn (s.keys.filter (start.toNat ≤ ·)) n) := by
  intro h
  obtain ⟨s, hs, -, hf⟩ := lastGroup_reach
  have hnot := (iterFrom_iff hs.inv 0xFFFFFFFFFFFFFFFF).mp (h s hs 0xFFFFFFFFFFFFFFFF)
  rw [hf] at hnot
  cases hnot

end ExpanseSet

namespace ExpanseMap

def MapIterRev.next : IterRev UInt64 → Except Fault (Option (ℕ × UInt64) × IterRev UInt64) :=
  IterRev.next .map

def MapRangeRev.next : IterRev UInt64 → Except Fault (Option (ℕ × UInt64) × IterRev UInt64) :=
  IterRev.next .map

def iterRev (s : ExpanseMap) : Except Fault (IterRev UInt64) := Store.iterRev .map s

def rangeRev (s : ExpanseMap) (start stop : UInt64) : Except Fault (IterRev UInt64) :=
  Store.rangeRev .map s start.toNat stop.toNat

end ExpanseMap

open Store

/-- The reverse iterators of reachable sets and maps hand out the reverse of the ascending list,
whole or between two bounds. -/
theorem reachable_descends :
    (∀ s : ExpanseSet, ExpanseSet.Reachable s → s.keys.Pairwise (· < ·) ∧
      (∀ n, draw ExpanseSet.SetIterRev.next s.iterRev n = .ok (drawn s.keys.reverse n)) ∧
      ∀ lo hi : UInt64, lo ≤ hi → ∀ n, draw ExpanseSet.SetRangeRev.next (s.rangeRev lo hi) n =
        .ok (drawn (s.keys.filter fun k => lo.toNat ≤ k ∧ k ≤ hi.toNat).reverse n)) ∧
    ∀ s : ExpanseMap, ExpanseMap.Reachable s → (s.items.map Prod.fst).Pairwise (· < ·) ∧
      (∀ n, draw ExpanseMap.MapIterRev.next s.iterRev n = .ok (drawn s.items.reverse n)) ∧
      ∀ lo hi : UInt64, lo ≤ hi → ∀ n, draw ExpanseMap.MapRangeRev.next (s.rangeRev lo hi) n =
        .ok (drawn (s.items.filter fun x => lo.toNat ≤ x.1 ∧ x.1 ≤ hi.toNat).reverse n) := by
  constructor
  · intro s h
    refine ⟨ExpanseSet.keys_sorted h.inv, fun n => ?_, fun lo hi hle n => ?_⟩
    · have := draw_map_ok Prod.fst (iterRev_draw (fun _ _ => rfl) h.inv n)
      rw [List.map_reverse] at this
      exact this
    · have := draw_map_ok Prod.fst (rangeRev_draw (fun _ _ => rfl) h.inv
        (UInt64.le_iff_toNat_le.mp hle) n)
      rw [List.map_reverse,
        ExpanseSet.keys_filter s fun k => decide (lo.toNat ≤ k ∧ k ≤ hi.toNat)] at this
      exact this
  · intro s h
    have hV : Flavour.map = .set → ∀ v : UInt64, v = default := fun hc => (by cases hc)
    refine ⟨keySorted_iff.mp h.inv.sorted, fun n => iterRev_draw hV h.inv n, fun lo hi hle n => ?_⟩
    exact rangeRev_draw hV h.inv (UInt64.le_iff_toNat_le.mp hle) n

/-- The map after `warmOps`. -/
theorem ExpanseMap.warmOps_reach : ∃ s : ExpanseMap, Reachable s ∧ s.items.length = 39 := by
  obtain ⟨outs, s, hr, hitems⟩ := warmOps_run
  exact ⟨s, ⟨_, outs, hr⟩, by rw [← List.length_map Prod.fst, hitems]; rfl⟩

theorem reachable_descends_warm :
    (∃ s : ExpanseSet, ExpanseSet.Reachable s ∧ s.keys.length = 39 ∧
      ∀ n, draw ExpanseSet.SetRangeRev.next (s.rangeRev 2 8) n =
        .ok (drawn (s.keys.filter fun k => 2 ≤ k ∧ k ≤ 8).reverse n)) ∧
    ∃ s : ExpanseMap, ExpanseMap.Reachable s ∧ s.items.length = 39 ∧
      ∀ n, draw ExpanseMap.MapRangeRev.next (s.rangeRev 2 8) n =
        .ok (drawn (s.items.filter fun x => 2 ≤ x.1 ∧ x.1 ≤ 8).reverse n) := by
  constructor
  · obtain ⟨s, hs, hlen, -⟩ := ExpanseSet.warmOps_reach
    exact ⟨s, hs, by rw [ExpanseSet.keys, List.length_map, hlen],
      (reachable_descends.1 s hs).2.2 2 8 (by decide)⟩
  · obtain ⟨s, hs, hlen⟩ := ExpanseMap.warmOps_reach
    exact ⟨s, hs, hlen, (reachable_descends.2 s hs).2.2 2 8 (by decide)⟩

end Expanse
