import Mathlib.Data.List.Sort
import Expanse.Library.SortedAssoc

/-!
# Runs of equal keys in sorted lists

`runsBy` cuts a list where a key function changes, as a loop does that extends a run
while the key stays the same. `dedup` collapses adjacent entries of one key into one
that carries the last value. On a list that is sorted by its keys the runs have
ascending keys, and `sortDedup` keeps the last value of every key.
-/

namespace Expanse.Grouping

open SortedAssoc

section RunsBy

variable {α : Type*} (f : α → ℕ)

/-- The maximal runs of equal keys, each with its key. -/
def runsBy : List α → List (ℕ × List α)
  | [] => []
  | x :: l =>
    match runsBy l with
    | [] => [(f x, [x])]
    | (d, run) :: more => if f x = d then (d, x :: run) :: more else (f x, [x]) :: (d, run) :: more

theorem runsBy_cons (x : α) (l : List α) :
    (runsBy f l = [] ∧ runsBy f (x :: l) = [(f x, [x])]) ∨
      (∃ run more, runsBy f l = (f x, run) :: more ∧ runsBy f (x :: l) = (f x, x :: run) :: more) ∨
      ∃ d run more, f x ≠ d ∧ runsBy f l = (d, run) :: more ∧
        runsBy f (x :: l) = (f x, [x]) :: (d, run) :: more := by
  rw [runsBy]
  cases h : runsBy f l with
  | nil => exact .inl ⟨rfl, rfl⟩
  | cons r more =>
    obtain ⟨d, run⟩ := r
    by_cases hd : f x = d
    · subst hd
      exact .inr (.inl ⟨run, more, rfl, if_pos rfl⟩)
    · exact .inr (.inr ⟨d, run, more, hd, rfl, if_neg hd⟩)

theorem flatMap_runsBy (l : List α) : (runsBy f l).flatMap Prod.snd = l := by
  induction l with
  | nil => rfl
  | cons x l ih =>
    rcases runsBy_cons f x l with ⟨h, h'⟩ | ⟨run, more, h, h'⟩ | ⟨d, run, more, -, h, h'⟩
    all_goals
      rw [h] at ih
      rw [h', ← ih]
      rfl

theorem mem_runsBy {l : List α} {d : ℕ} {run : List α} (h : (d, run) ∈ runsBy f l) :
    run ≠ [] ∧ ∀ x ∈ run, f x = d := by
  induction l generalizing d run with
  | nil => cases h
  | cons x l ih =>
    rcases runsBy_cons f x l with ⟨-, h'⟩ | ⟨run', more, hr, h'⟩ | ⟨d', run', more, -, hr, h'⟩
    · rw [h', List.mem_singleton] at h
      cases h
      simp
    · rw [h'] at h
      rcases List.mem_cons.mp h with h | h
      · cases h
        have := (ih (hr ▸ List.mem_cons_self)).2
        simpa using this
      · exact ih (hr ▸ List.mem_cons_of_mem _ h)
    · rw [h'] at h
      rcases List.mem_cons.mp h with h | h
      · cases h
        simp
      · exact ih (hr ▸ h)

theorem mem_of_mem_runsBy {l : List α} {d : ℕ} {run : List α} (h : (d, run) ∈ runsBy f l) {x : α}
    (hx : x ∈ run) : x ∈ l := by
  rw [← flatMap_runsBy f l]
  exact List.mem_flatMap.mpr ⟨(d, run), h, hx⟩

theorem runsBy_sorted {R : α → α → Prop} {l : List α} (hs : l.Pairwise R)
    (hf : ∀ x ∈ l, ∀ y ∈ l, R x y → f x ≤ f y) :
    (∀ d run, (d, run) ∈ runsBy f l → run.Pairwise R) ∧ KeySorted (runsBy f l) := by
  induction l with
  | nil => simp [runsBy, KeySorted]
  | cons x l ih =>
    obtain ⟨hx, hl⟩ := List.pairwise_cons.mp hs
    obtain ⟨ihr, ihs⟩ := ih hl fun a ha b hb =>
      hf a (List.mem_cons_of_mem _ ha) b (List.mem_cons_of_mem _ hb)
    -- a run of the rest starts at an element that `x` precedes
    have hle : ∀ d run, (d, run) ∈ runsBy f l → f x ≤ d := by
      intro d run hm
      obtain ⟨hne, hd⟩ := mem_runsBy f hm
      obtain ⟨y, hy⟩ := List.exists_mem_of_ne_nil run hne
      have hyl := mem_of_mem_runsBy f hm hy
      rw [← hd y hy]
      exact hf x List.mem_cons_self y (List.mem_cons_of_mem _ hyl) (hx y hyl)
    rcases runsBy_cons f x l with ⟨-, h'⟩ | ⟨run, more, h, h'⟩ | ⟨d, run, more, hne, h, h'⟩
    · rw [h']
      refine ⟨?_, List.pairwise_singleton _ _⟩
      intro d run hm
      rw [List.mem_singleton] at hm
      cases hm
      exact List.pairwise_singleton _ _
    · rw [h']
      rw [h] at ihr ihs
      obtain ⟨hhead, htail⟩ := List.pairwise_cons.mp ihs
      refine ⟨?_, List.pairwise_cons.mpr ⟨hhead, htail⟩⟩
      intro d run' hm
      rcases List.mem_cons.mp hm with hm | hm
      · cases hm
        refine List.pairwise_cons.mpr ⟨?_, ihr _ _ List.mem_cons_self⟩
        intro y hy
        exact hx y (mem_of_mem_runsBy f (h ▸ List.mem_cons_self) hy)
      · exact ihr d run' (List.mem_cons_of_mem _ hm)
    · rw [h']
      refine ⟨?_, List.pairwise_cons.mpr ⟨?_, h ▸ ihs⟩⟩
      · intro d' run' hm
        rcases List.mem_cons.mp hm with hm | hm
        · cases hm
          exact List.pairwise_singleton _ _
        · exact ihr d' run' (h ▸ hm)
      · rw [← h]
        intro r hr
        have hd : f x < d := lt_of_le_of_ne (hle d run (h ▸ List.mem_cons_self)) hne
        rw [h] at hr ihs
        rcases List.mem_cons.mp hr with hr | hr
        · cases hr
          exact hd
        · exact lt_trans hd ((List.pairwise_cons.mp ihs).1 r hr)

end RunsBy

section Dedup

variable {V : Type*}

/-- The entry `kept` takes over the values of the entries of its key that follow it. -/
def dedupFrom (kept : ℕ × V) : List (ℕ × V) → List (ℕ × V)
  | [] => [kept]
  | later :: rest =>
    if later.1 = kept.1 then dedupFrom (kept.1, later.2) rest else kept :: dedupFrom later rest

/-- Collapse adjacent entries of one key; the last value stays. -/
def dedup : List (ℕ × V) → List (ℕ × V)
  | [] => []
  | e :: rest => dedupFrom e rest

/-- A stable sort by key, then one entry for each key. -/
def sortDedup (l : List (ℕ × V)) : List (ℕ × V) :=
  dedup (l.insertionSort fun a b => a.1 ≤ b.1)

def lastValue (l : List (ℕ × V)) (k : ℕ) : Option V :=
  ((l.filter fun e => e.1 = k).getLast?).map Prod.snd

theorem lastValue_cons (e : ℕ × V) (l : List (ℕ × V)) (k : ℕ) :
    lastValue (e :: l) k = (lastValue l k).or (if e.1 = k then some e.2 else none) := by
  unfold lastValue
  rw [List.filter_cons]
  by_cases he : e.1 = k
  · simp only [he, decide_true, if_true]
    cases h : l.filter fun e => decide (e.1 = k) with
    | nil => rfl
    | cons x xs =>
      rw [List.getLast?_cons_cons, List.getLast?_cons]
      rfl
  · simp [he]

theorem lastValue_eq_none {l : List (ℕ × V)} {k : ℕ} (h : ∀ e ∈ l, e.1 ≠ k) :
    lastValue l k = none := by
  rw [lastValue, List.filter_eq_nil_iff.mpr (by simpa using h)]
  rfl

theorem dedupFrom_spec {kept : ℕ × V} {l : List (ℕ × V)}
    (hs : (kept :: l).Pairwise fun a b => a.1 ≤ b.1) :
    KeySorted (dedupFrom kept l) ∧ (∀ e ∈ dedupFrom kept l, kept.1 ≤ e.1) ∧
      ∀ k v, (k, v) ∈ dedupFrom kept l ↔ lastValue (kept :: l) k = some v := by
  induction l generalizing kept with
  | nil =>
    refine ⟨List.pairwise_singleton _ _, by simp [dedupFrom], ?_⟩
    intro k v
    rw [dedupFrom, List.mem_singleton, lastValue_cons, lastValue_eq_none (by simp), Option.none_or]
    obtain ⟨x, w⟩ := kept
    by_cases hk : x = k
    · simp [hk, eq_comm]
    · simp [hk, Ne.symm hk]
  | cons later rest ih =>
    obtain ⟨hkept, hrest⟩ := List.pairwise_cons.mp hs
    obtain ⟨hlater, htail⟩ := List.pairwise_cons.mp hrest
    rw [dedupFrom]
    by_cases he : later.1 = kept.1
    · rw [if_pos he]
      have hcarried : ((kept.1, later.2) :: rest).Pairwise fun a b => a.1 ≤ b.1 :=
        List.pairwise_cons.mpr ⟨fun e hm => hkept e (List.mem_cons_of_mem _ hm), htail⟩
      obtain ⟨h1, h2, h3⟩ := ih hcarried
      refine ⟨h1, h2, fun k v => ?_⟩
      rw [h3, lastValue_cons, lastValue_cons kept, lastValue_cons later, he]
      by_cases hk : kept.1 = k
      · cases lastValue rest k <;> simp [hk]
      · simp [hk]
    · rw [if_neg he]
      have hlt : kept.1 < later.1 := lt_of_le_of_ne (hkept later List.mem_cons_self) (Ne.symm he)
      obtain ⟨h1, h2, h3⟩ := ih hrest
      refine ⟨List.pairwise_cons.mpr ⟨fun e hm => lt_of_lt_of_le hlt (h2 e hm), h1⟩, ?_, ?_⟩
      · intro e hm
        rcases List.mem_cons.mp hm with rfl | hm
        · exact le_rfl
        · exact le_trans hlt.le (h2 e hm)
      · intro k v
        rw [List.mem_cons, h3, lastValue_cons kept]
        by_cases hk : kept.1 = k
        · have hnone : lastValue (later :: rest) k = none := by
            apply lastValue_eq_none
            intro e hm
            rcases List.mem_cons.mp hm with rfl | hm
            · omega
            · have := hlater e hm
              omega
          obtain ⟨x, w⟩ := kept
          rw [hnone]
          simp [← hk, eq_comm]
        · obtain ⟨x, w⟩ := kept
          simp [hk, Ne.symm hk]

theorem pairwise_insertionSort_keys (l : List (ℕ × V)) :
    (l.insertionSort fun a b => a.1 ≤ b.1).Pairwise fun a b => a.1 ≤ b.1 := by
  have : Std.Total fun a b : ℕ × V => a.1 ≤ b.1 := ⟨fun a b => le_total a.1 b.1⟩
  have : IsTrans (ℕ × V) fun a b => a.1 ≤ b.1 := ⟨fun a b c => le_trans⟩
  exact List.pairwise_insertionSort _ l

/-- The sort keeps entries of one key in order. -/
theorem lastValue_insertionSort (l : List (ℕ × V)) (k : ℕ) :
    lastValue (l.insertionSort fun a b => a.1 ≤ b.1) k = lastValue l k := by
  have : Std.Total fun a b : ℕ × V => a.1 ≤ b.1 := ⟨fun a b => le_total a.1 b.1⟩
  have : IsTrans (ℕ × V) fun a b => a.1 ≤ b.1 := ⟨fun a b c => le_trans⟩
  have hsame : (l.filter fun e => e.1 = k).Pairwise fun a b => a.1 ≤ b.1 := by
    rw [List.pairwise_iff_forall_sublist]
    intro a b hab
    have ha := hab.subset (show a ∈ [a, b] by simp)
    have hb := hab.subset (show b ∈ [a, b] by simp)
    simp only [List.mem_filter, decide_eq_true_eq] at ha hb
    omega
  have hsub := (List.sublist_insertionSort hsame List.filter_sublist).filter fun e => e.1 = k
  rw [List.filter_filter] at hsub
  simp only [Bool.and_self] at hsub
  have hperm := (List.perm_insertionSort (fun a b : ℕ × V => a.1 ≤ b.1) l).filter fun e => e.1 = k
  rw [lastValue, lastValue, ← hsub.eq_of_length hperm.length_eq.symm]

theorem sortDedup_spec (l : List (ℕ × V)) :
    KeySorted (sortDedup l) ∧ ∀ k v, (k, v) ∈ sortDedup l ↔ lastValue l k = some v := by
  have hsort := pairwise_insertionSort_keys l
  have hlast := lastValue_insertionSort l
  unfold sortDedup
  cases h : l.insertionSort fun a b => a.1 ≤ b.1 with
  | nil =>
    refine ⟨List.Pairwise.nil, fun k v => ?_⟩
    rw [← hlast, h]
    simp [dedup, lastValue]
  | cons e rest =>
    rw [h] at hsort
    obtain ⟨h1, -, h3⟩ := dedupFrom_spec hsort
    refine ⟨h1, fun k v => ?_⟩
    rw [← hlast, h]
    exact h3 k v

theorem lastValue_of_sorted {l : List (ℕ × V)} (hs : KeySorted l) (k : ℕ) (v : V) :
    lastValue l k = some v ↔ (k, v) ∈ l := by
  induction l with
  | nil => simp [lastValue]
  | cons e l ih =>
    obtain ⟨he, hl⟩ := List.pairwise_cons.mp hs
    rw [lastValue_cons, List.mem_cons, ← ih hl]
    by_cases hk : e.1 = k
    · have hnone : lastValue l k = none := lastValue_eq_none fun x hx => by
        have := he x hx
        omega
      obtain ⟨x, w⟩ := e
      rw [hnone]
      simp [← hk, eq_comm]
    · obtain ⟨x, w⟩ := e
      simp [hk, Ne.symm hk]

end Dedup

end Expanse.Grouping
