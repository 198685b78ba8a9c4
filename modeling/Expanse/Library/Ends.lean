import Expanse.Library.Neighbours
import Expanse.Library.Runs

/-!
# Lists open at both ends

Elements are taken from either end, in any order. What the two ends have handed out and what is
left make up the list. The entries of a sorted list between two keys are such a list: taking from
the front raises the lower key, taking from the back lowers the upper one. A visitor goes through a
list from the front until it has seen enough.
-/

namespace Expanse

namespace Runs

variable {α : Type}

inductive End where
  | front
  | back
deriving DecidableEq

def takeEnd : List α → End → Option α × List α
  | l, .front => (l.head?, l.tail)
  | l, .back => (l.getLast?, l.dropLast)

def End.flip : End → End
  | .front => .back
  | .back => .front

/-- What one end has handed out, in the order of the calls. -/
def handed (side : End) (sides : List End) (outs : List (Option α)) : List α :=
  (sides.zip outs).filterMap fun x => if x.1 = side then x.2 else none

theorem handed_cons (side s : End) (sides : List End) (o : Option α) (outs : List (Option α)) :
    handed side (s :: sides) (o :: outs) = (if s = side then o.toList else []) ++ handed side sides outs := by
  rw [handed, List.zip_cons_cons, List.filterMap_cons]
  dsimp only
  by_cases hs : s = side
  · rw [if_pos hs, if_pos hs]
    cases o <;> rfl
  · rw [if_neg hs, if_neg hs]
    rfl

/-- Whichever ends the calls go to, they take the list apart: nothing is lost, nothing is handed
out twice. -/
theorem handed_join (l : List α) (sides : List End) :
    handed .front sides (refRun takeEnd l sides).1 ++ (refRun takeEnd l sides).2 ++
      (handed .back sides (refRun takeEnd l sides).1).reverse = l := by
  induction sides generalizing l with
  | nil => simp [handed, refRun]
  | cons s sides ih =>
    rw [refRun]
    dsimp only
    rw [handed_cons, handed_cons, List.reverse_append]
    cases s with
    | front =>
      rw [if_pos rfl, if_neg (by decide), List.reverse_nil, List.append_nil, List.append_assoc,
        List.append_assoc, ← List.append_assoc (handed _ _ _), takeEnd, ih]
      cases l <;> rfl
    | back =>
      rw [if_neg (by decide), if_pos rfl, List.nil_append, ← List.append_assoc, takeEnd, ih]
      rcases List.eq_nil_or_concat l with rfl | ⟨ys, y, rfl⟩
      · rfl
      · simp

theorem refRun_reverse (l : List α) (sides : List End) :
    (refRun takeEnd l.reverse sides).1 = (refRun takeEnd l (sides.map End.flip)).1 := by
  induction sides generalizing l with
  | nil => rfl
  | cons s sides ih =>
    rw [List.map_cons, refRun, refRun]
    cases s with
    | front =>
      rw [End.flip, takeEnd, takeEnd]
      dsimp only
      rw [List.tail_reverse, ih, List.head?_reverse]
    | back =>
      rw [End.flip, takeEnd, takeEnd]
      dsimp only
      rw [List.dropLast_reverse, ih, List.getLast?_reverse]

section Visit

variable {σ β : Type}

/-- Go through a list until the visitor says to stop. The answer is whether it went to the end. -/
def visitAll (visit : σ → α → Bool × σ) : σ → List α → Bool × σ
  | s, [] => (true, s)
  | s, x :: xs =>
    match visit s x with
    | (true, s) => visitAll visit s xs
    | (false, s) => (false, s)

theorem visitAll_cons (visit : σ → α → Bool × σ) (s : σ) (x : α) (xs : List α) : visitAll visit s (x :: xs) =
    if (visit s x).1 then visitAll visit (visit s x).2 xs else (false, (visit s x).2) := by
  rw [visitAll]
  rcases visit s x with ⟨_ | _, s'⟩ <;> rfl

theorem visitAll_append (visit : σ → α → Bool × σ) (s : σ) (l₁ l₂ : List α) : visitAll visit s (l₁ ++ l₂) =
    if (visitAll visit s l₁).1 then visitAll visit (visitAll visit s l₁).2 l₂ else visitAll visit s l₁ := by
  induction l₁ generalizing s with
  | nil => rfl
  | cons x xs ih =>
    rw [List.cons_append, visitAll_cons, visitAll_cons]
    by_cases hgo : (visit s x).1 = true
    · rw [if_pos hgo, if_pos hgo, ih]
    · rw [if_neg hgo, if_neg hgo, if_neg Bool.false_ne_true]

theorem visitAll_map (visit : σ → β → Bool × σ) (g : α → β) (s : σ) (l : List α) :
    visitAll visit s (l.map g) = visitAll (fun s x => visit s (g x)) s l := by
  induction l generalizing s with
  | nil => rfl
  | cons x xs ih =>
    rw [List.map_cons, visitAll_cons, visitAll_cons, ih]

end Visit

end Runs

namespace SortedAssoc

variable {α : Type} {l ys : List (ℕ × α)} {x : ℕ × α} {lo hi : ℕ}

/-- The entries whose keys lie in a range. -/
def between (lo hi : ℕ) (l : List (ℕ × α)) : List (ℕ × α) := l.filter fun e => lo ≤ e.1 ∧ e.1 ≤ hi

theorem between_eq_above (lo hi : ℕ) (l : List (ℕ × α)) :
    between lo hi l = (l.filter fun e => lo ≤ e.1).filter fun e => e.1 ≤ hi := by
  rw [between, List.filter_filter]
  exact List.filter_congr fun e _ => by rw [Bool.decide_and, Bool.and_comm]

theorem between_eq_below (lo hi : ℕ) (l : List (ℕ × α)) :
    between lo hi l = (l.filter fun e => e.1 ≤ hi).filter fun e => lo ≤ e.1 := by
  rw [between, List.filter_filter]
  exact List.filter_congr fun e _ => Bool.decide_and ..

theorem between_empty (h : hi < lo) : between lo hi l = [] :=
  List.filter_eq_nil_iff.mpr fun e _ => by
    simp only [decide_eq_true_eq]
    omega

/-- The front of a range is the first entry from its lower key on, unless that lies above. -/
theorem between_front (hs : KeySorted l) (h : (l.filter fun e => lo ≤ e.1) = x :: ys) :
    between lo hi l = if hi < x.1 then [] else x :: between (x.1 + 1) hi l := by
  obtain ⟨-, -, rfl⟩ := hs.filter_cons h
  rw [between_eq_above, h, List.filter_cons]
  split_ifs with h1 h2 h2
  · exact absurd (of_decide_eq_true h1) (not_le.mpr h2)
  · rw [between_eq_above]
  · refine List.filter_eq_nil_iff.mpr fun e he => ?_
    have := of_decide_eq_true (List.mem_filter.mp he).2
    simp only [decide_eq_true_eq]
    omega
  · exact absurd (not_lt.mp h2) (of_decide_eq_false (by simpa using h1))

/-- The back of a range is the last entry up to its upper key, unless that lies below. -/
theorem between_back (hs : KeySorted l) (h : (l.filter fun e => e.1 ≤ hi) = ys ++ [x]) :
    between lo hi l = if x.1 < lo then [] else (if x.1 = lo then [] else between lo (x.1 - 1) l) ++ [x] := by
  have hsorted : KeySorted (ys ++ [x]) := h ▸ hs.filter _
  have hbelow : ∀ e ∈ ys, e.1 < x.1 := fun e he =>
    (List.pairwise_append.mp hsorted).2.2 e he x List.mem_cons_self
  have hxhi : x.1 ≤ hi := by
    have hx : x ∈ l.filter fun e => e.1 ≤ hi := by
      rw [h]
      exact List.mem_append_right _ List.mem_cons_self
    exact of_decide_eq_true (List.mem_filter.mp hx).2
  have hys : ys = l.filter fun e => e.1 < x.1 := by
    have hsub : ((l.filter fun e => e.1 ≤ hi).filter fun e => e.1 < x.1) = l.filter fun e => e.1 < x.1 := by
      rw [List.filter_filter]
      refine List.filter_congr fun e _ => ?_
      rw [← Bool.decide_and, decide_eq_decide]
      omega
    rw [← hsub, h, List.filter_append, List.filter_eq_self.mpr fun e he => decide_eq_true (hbelow e he),
      List.filter_eq_nil_iff.mpr (by simp), List.append_nil]
  rw [between_eq_below, h, List.filter_append]
  split_ifs with h1 h2
  · refine List.append_eq_nil_iff.mpr ⟨List.filter_eq_nil_iff.mpr fun e he => ?_, ?_⟩
    · have := hbelow e he
      simp only [decide_eq_true_eq]
      omega
    · rw [List.filter_cons_of_neg (by simpa using h1)]
      rfl
  · rw [List.filter_cons_of_pos (by simpa using not_lt.mp h1),
      List.filter_eq_nil_iff.mpr fun e he => by
        have := hbelow e he
        simp only [decide_eq_true_eq]
        omega]
    rfl
  · rw [List.filter_cons_of_pos (by simpa using not_lt.mp h1), hys, List.filter_filter, between]
    refine congrArg (· ++ [x]) (List.filter_congr fun e _ => ?_)
    rw [← Bool.decide_and, decide_eq_decide]
    omega

theorem between_split (hs : KeySorted l) (lo hi : ℕ) :
    ∃ l₁ l₃, l = l₁ ++ between lo hi l ++ l₃ ∧ (∀ e ∈ l₁, e.1 < lo) ∧ ∀ e ∈ l₃, hi < e.1 := by
  refine ⟨l.filter fun e => e.1 < lo, (l.filter fun e => lo ≤ e.1).filter fun e => hi < e.1, ?_,
    fun e he => of_decide_eq_true (List.mem_filter.mp he).2,
      fun e he => of_decide_eq_true (List.mem_filter.mp he).2⟩
  have hcut : ∀ {l : List (ℕ × α)} (_ : KeySorted l) (k : ℕ),
      (l.filter fun e => e.1 < k) ++ (l.filter fun e => k ≤ e.1) = l := by
    intro l hs k
    rw [← hs.takeWhile_eq_filter, ← hs.dropWhile_eq_filter, List.takeWhile_append_dropWhile]
  have hmid := hcut (hs.filter fun e => lo ≤ e.1) (hi + 1)
  rw [List.append_assoc, between_eq_above]
  conv_lhs => rw [← hcut hs lo, ← hmid]
  simp only [Nat.lt_succ_iff, Nat.succ_le_iff]

theorem between_below_nil (h : (l.filter fun e => e.1 ≤ hi) = []) : between lo hi l = [] := by
  rw [between_eq_below, h, List.filter_nil]

theorem between_above_nil (h : (l.filter fun e => lo ≤ e.1) = []) : between lo hi l = [] := by
  rw [between_eq_above, h, List.filter_nil]

end SortedAssoc

end Expanse
