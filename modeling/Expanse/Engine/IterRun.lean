import Expanse.Engine.IterDescend
import Expanse.Library.Runs

/-!
# Whole walks

One step of a walker hands out the head of what it has left; the only step that
fails is the one that takes the last word out of a full expanse. From that, the
answers of any number of calls are the entries in order, then nothing.
-/

namespace Expanse

open Radix SortedAssoc Edge

namespace Iter

variable {V : Type} [Inhabited V] {dir : Direction} {fl : Flavour} {full : Bool}
  {all : List (ℕ × V)} {it : Iter V} {leaf : LeafCursor V} {stack : List (Frame V)}

/-- A walker between two calls: where it has no leaf it has no frames. -/
structure Walking (dir : Direction) (fl : Flavour) (full : Bool) (all : List (ℕ × V))
    (it : Iter V) : Prop where
  standing : Standing dir fl full all it
  drained : it.leaf.isEmpty = true → it.stack = []

variable (leaf) in
theorem stepLeaf_spec (hV : fl = .set → ∀ v : V, v = default) (hs : StackOk dir fl full stack)
    (hn : Nested dir all [] stack) :
    (stackLeft dir stack = [] ∧ stepLeaf dir fl leaf stack = .ok none) ∨
      ∃ it', stepLeaf dir fl leaf stack = .ok (some it') ∧
        Arrives dir fl full all it' (stackLeft dir stack) ∧ it'.leaf.isEmpty = false ∧
        it'.leaf.left dir ≠ [] := by
  induction stack with
  | nil => exact .inl ⟨rfl, rfl⟩
  | cons f rest ih =>
    obtain ⟨hf, hb, hs⟩ := hs
    obtain ⟨_, hn⟩ := hn
    cases hl : f.node.slotsLeft dir f.pos with
    | nil =>
      have hleft : f.left dir = [] := by
        rw [Frame.left, hl]
        rfl
      rw [stackLeft_cons, hleft, List.nil_append, stepLeaf, Branch.slotAt_nil hf.readable.ok hf.pos hl]
      exact ih hs (hn.suffix List.nil_suffix)
    | cons s slots =>
      obtain ⟨d, c⟩ := s
      obtain ⟨pos, hslot, hleft, hsplit, hc, hentry⟩ := Entry.of_slot hf hb hs hn hl
      obtain ⟨it', hit, harr, he, hne⟩ := enter_spec hV leaf hentry
      refine .inr ⟨it', ?_, ⟨harr.standing, ?_⟩, he, hne⟩
      · rw [stepLeaf, hslot]
        simp only [hit]
        rfl
      · rw [harr.left_eq, stackLeft_cons, stackLeft_cons, hsplit, hleft, List.append_assoc]
        rfl

theorem walking_end : Walking dir fl full all (⟨.empty, []⟩ : Iter V) :=
  ⟨⟨trivial, fun _ => LeafCursor.topOk_empty, trivial, List.nil_suffix, fun he => (by cases he)⟩,
    fun _ => rfl⟩

theorem isEmpty_of_left {x : ℕ × V} {xs : List (ℕ × V)} (hl : leaf.left dir = x :: xs) :
    leaf.isEmpty = false := by
  cases leaf with
  | empty => cases hl
  | _ => rfl

theorem fullExpanse_head {n m : ℕ} {x : ℕ × V} {xs : List (ℕ × V)}
    (hl : (LeafCursor.fullExpanse n m : LeafCursor V).left .forward = x :: xs) :
    x.1 = n ∧ n ≤ m := by
  rw [LeafCursor.left, Direction.order] at hl
  cases hk : m + 1 - n with
  | zero =>
    rw [hk] at hl
    cases hl
  | succ k =>
    rw [hk, List.range'_succ, List.map_cons] at hl
    cases hl
    exact ⟨rfl, by omega⟩

/-- The walker has just taken `x` out of its leaf. -/
def Took (dir : Direction) (all : List (ℕ × V)) (x : ℕ × V) (it : Iter V) : Prop :=
  ∃ c : LeafCursor V, c.Ok dir ∧ c.left dir = x :: it.leaf.left dir ∧
    c.step dir = .ok (some (x, it.leaf)) ∧ Nested dir all (x :: it.leaf.left dir) it.stack

theorem step_leaf (h : Walking dir fl full all it) {x : ℕ × V} {xs : List (ℕ × V)}
    (hl : it.leaf.left dir = x :: xs) (hsafe : dir = .forward → full = true → x.1 ≠ 256 ^ 8 - 1)
    (fuel : ℕ) :
    ∃ it', nextBy dir fl (fuel + 1) it = .ok (some x, it') ∧ Walking dir fl full all it' ∧
      it'.left dir = xs ++ stackLeft dir it.stack ∧ Took dir all x it' ∧
      it'.leaf.inTree = it.leaf.inTree := by
  have hne := isEmpty_of_left hl
  have hstep := LeafCursor.step_spec h.standing.leaf (by
    rintro rfl n m hfull hnm
    have htop := h.standing.top rfl
    have hb := htop.bound m (by rw [hfull]; rfl)
    by_contra hc
    have hm : m = 256 ^ 8 - 1 := by omega
    have hf := htop.full_of (by rw [hfull, hm]; rfl)
    rw [hfull] at hl
    have := (fullExpanse_head hl).1
    exact hsafe rfl hf (by omega))
  rw [hl] at hstep
  obtain ⟨c, hc, hok, hleft, ht, hm⟩ := hstep
  have hroot : it.leaf.inTree = false → it.stack = [] := h.standing.root hne
  refine ⟨⟨c, it.stack⟩, ?_, ⟨⟨hok, ?_, h.standing.stack, ?_, ?_⟩, ?_⟩, ?_,
    ⟨it.leaf, h.standing.leaf, ?_, hc, ?_⟩, ht⟩
  · rw [nextBy, if_neg (by simp [hne]), hc]
  · rintro rfl
    have htop := h.standing.top rfl
    have hm := hm rfl
    refine ⟨fun m hc' => htop.bound m (hm ▸ hc'), fun hc' => htop.full_of (hm ▸ hc'), ?_⟩
    intro hf v hv
    rw [hm]
    apply htop.of_full hf v
    rw [hl]
    rw [hleft] at hv
    exact List.mem_cons_of_mem x hv
  · rw [hleft]
    exact h.standing.nested.suffix (hl ▸ List.suffix_cons x xs)
  · intro _ hc'
    exact hroot (ht.symm.trans hc')
  · intro hc'
    apply hroot
    rw [← ht]
    cases c with
    | empty => rfl
    | _ => cases hc'
  · rw [left, hleft]
  · rw [hl, hleft]
  · rw [hleft, ← hl]
    exact h.standing.nested

theorem step_overflow (h : Walking .forward fl full all it) {x : ℕ × V} {xs : List (ℕ × V)}
    (hl : it.leaf.left .forward = x :: xs) (hf : full = true) (hx : x.1 = 256 ^ 8 - 1) (fuel : ℕ) :
    nextBy .forward fl (fuel + 1) it = .error .overflow := by
  have hm := (h.standing.top rfl).of_full hf x.2 (by
    rw [hl, ← hx]
    exact List.mem_cons_self)
  cases hleaf : it.leaf with
  | fullExpanse n m =>
    rw [hleaf] at hl
    obtain ⟨h1, h2⟩ := fullExpanse_head hl
    rw [nextBy, hleaf]
    simp only [LeafCursor.isEmpty, LeafCursor.step, LeafCursor.next, h2, if_true,
      show ¬ n + 1 < 256 ^ 8 by omega, if_false, Bool.false_eq_true]
  | _ =>
    rw [hleaf] at hm
    cases hm

/-- A leaf without entries left hands over to the next one. -/
theorem nextBy_handover (hstep : it.leaf.step dir = .ok none) (ht : it.leaf.inTree = true)
    {it' : Iter V} (hs : stepLeaf dir fl it.leaf it.stack = .ok (some it')) (fuel : ℕ) :
    nextBy dir fl (fuel + 1) it = nextBy dir fl fuel it' := by
  rw [nextBy, hstep]
  cases hleaf : it.leaf with
  | empty =>
    rw [hleaf] at ht
    cases ht
  | rootLeaf cols idx =>
    rw [hleaf] at ht
    cases ht
  | _ =>
    rw [hleaf] at hs
    simp [LeafCursor.isEmpty, hs]

theorem nextBy_last (hstep : it.leaf.step dir = .ok none) (hne : it.leaf.isEmpty = false)
    (hroot : it.leaf.inTree = false → it.stack = [])
    (hs : stepLeaf dir fl it.leaf it.stack = .ok none) (fuel : ℕ) :
    nextBy dir fl (fuel + 1) it = .ok (none, ⟨.empty, []⟩) := by
  rw [nextBy, hstep]
  cases hleaf : it.leaf with
  | empty =>
    rw [hleaf] at hne
    cases hne
  | rootLeaf cols idx =>
    rw [hleaf] at hroot
    simp [LeafCursor.isEmpty, hroot rfl]
  | _ =>
    rw [hleaf] at hs
    simp [LeafCursor.isEmpty, hs]

theorem step_none (h : Walking dir fl full all it) (hl : it.leaf.left dir = []) :
    it.leaf.step dir = .ok none := by
  have hstep := LeafCursor.step_spec h.standing.leaf (by
    rintro rfl n m hfull hnm
    rw [hfull, LeafCursor.left, Direction.order, List.map_eq_nil_iff] at hl
    have := congrArg List.length hl
    rw [List.length_range', List.length_nil] at this
    omega)
  rwa [hl] at hstep

theorem step_over (hV : fl = .set → ∀ v : V, v = default) (h : Walking dir fl full all it)
    (hl : it.leaf.left dir = []) :
    (it.left dir = [] ∧ ∀ fuel, ∃ it', nextBy dir fl (fuel + 1) it = .ok (none, it') ∧
      Walking dir fl full all it' ∧ it'.left dir = [] ∧ it'.leaf.inTree = false) ∨
    ∃ it', (∀ fuel, nextBy dir fl (fuel + 1) it = nextBy dir fl fuel it') ∧
      Walking dir fl full all it' ∧ it'.left dir = it.left dir ∧ it'.leaf.left dir ≠ [] ∧
      it.leaf.inTree = true := by
  cases hne : it.leaf.isEmpty with
  | true =>
    have hs := h.drained hne
    have hleft : it.left dir = [] := by rw [left, hl, hs]; rfl
    have ht : it.leaf.inTree = false := by
      cases hleaf : it.leaf with
      | empty => rfl
      | _ =>
        rw [hleaf] at hne
        cases hne
    exact .inl ⟨hleft, fun fuel => ⟨it, by rw [nextBy, if_pos hne], h, hleft, ht⟩⟩
  | false =>
    have hstep := step_none h hl
    have hroot := h.standing.root hne
    have hn := h.standing.nested
    rw [hl] at hn
    rcases stepLeaf_spec it.leaf hV h.standing.stack hn with
      ⟨hnil, hs⟩ | ⟨it', hs, harr, he, hleft⟩
    · refine .inl ⟨by rw [left, hl, hnil]; rfl, fun fuel => ⟨⟨.empty, []⟩, ?_, walking_end, rfl, rfl⟩⟩
      exact nextBy_last hstep hne hroot hs fuel
    · have ht : it.leaf.inTree = true := by
        cases ht : it.leaf.inTree with
        | true => rfl
        | false =>
          rw [hroot ht] at hs
          cases hs
      refine .inr ⟨it', nextBy_handover hstep ht hs, ⟨harr.standing, ?_⟩, ?_, hleft, ht⟩
      · rw [he]
        intro hc
        cases hc
      · rw [harr.left_eq, left, hl]
        rfl

theorem nextBy_step (hV : fl = .set → ∀ v : V, v = default) (h : Walking dir fl full all it)
    (hsafe : dir = .forward → full = true → ∀ x xs, it.left dir = x :: xs → x.1 ≠ 256 ^ 8 - 1)
    (fuel : ℕ) :
    ∃ it', nextBy dir fl (fuel + 2) it = .ok ((it.left dir).head?, it') ∧
      Walking dir fl full all it' ∧ it'.left dir = (it.left dir).tail ∧
      (∀ x ∈ (it.left dir).head?, Took dir all x it') ∧
      (it'.leaf.inTree = true → it.leaf.inTree = true) := by
  have hstep : ∀ {it : Iter V} (fuel : ℕ), Walking dir fl full all it →
      (dir = .forward → full = true → ∀ x xs, it.left dir = x :: xs → x.1 ≠ 256 ^ 8 - 1) →
      it.leaf.left dir ≠ [] →
      ∃ it', nextBy dir fl (fuel + 1) it = .ok ((it.left dir).head?, it') ∧
        Walking dir fl full all it' ∧ it'.left dir = (it.left dir).tail ∧
        (∀ x ∈ (it.left dir).head?, Took dir all x it') ∧
        it'.leaf.inTree = it.leaf.inTree := by
    intro it fuel h hsafe hne
    obtain ⟨x, xs, hl⟩ := List.exists_cons_of_ne_nil hne
    have hleft : it.left dir = x :: (xs ++ stackLeft dir it.stack) := by rw [left, hl]; rfl
    obtain ⟨it', hit, hw, hrest, htook, ht⟩ := step_leaf h hl (fun hd hf => hsafe hd hf x _ hleft) fuel
    rw [hleft]
    refine ⟨it', hit, hw, hrest, ?_, ht⟩
    intro y hy
    cases hy
    exact htook
  by_cases hl : it.leaf.left dir = []
  · rcases step_over hV h hl with ⟨hnil, hend⟩ | ⟨it', hnext, hw, hleft, hne, ht⟩
    · obtain ⟨it', hit, hw, hl', ht⟩ := hend (fuel + 1)
      rw [hnil]
      exact ⟨it', hit, hw, hl', fun x hx => (by cases hx), fun hc => (by rw [ht] at hc; cases hc)⟩
    · rw [hnext, ← hleft]
      rw [← hleft] at hsafe
      obtain ⟨it'', hit, hw', hrest, htook, -⟩ := hstep fuel hw hsafe hne
      exact ⟨it'', hit, hw', hrest, htook, fun _ => ht⟩
  · obtain ⟨it', hit, hw, hrest, htook, ht⟩ := hstep (fuel + 1) h hsafe hl
    exact ⟨it', hit, hw, hrest, htook, fun hc => ht ▸ hc⟩

theorem nextBy_spec (hV : fl = .set → ∀ v : V, v = default) (h : Walking dir fl full all it)
    (hsafe : dir = .forward → full = true → ∀ x xs, it.left dir = x :: xs → x.1 ≠ 256 ^ 8 - 1)
    (fuel : ℕ) :
    ∃ it', nextBy dir fl (fuel + 2) it = .ok ((it.left dir).head?, it') ∧
      Walking dir fl full all it' ∧ it'.left dir = (it.left dir).tail := by
  obtain ⟨it', hit, hw, hl, -⟩ := nextBy_step hV h hsafe fuel
  exact ⟨it', hit, hw, hl⟩

/-- The call that would hand out the last word of a full expanse overflows. -/
theorem nextBy_overflow (hV : fl = .set → ∀ v : V, v = default)
    (h : Walking .forward fl true all it) {x : ℕ × V} {xs : List (ℕ × V)}
    (hl : it.left .forward = x :: xs) (hx : x.1 = 256 ^ 8 - 1) (fuel : ℕ) :
    nextBy .forward fl (fuel + 2) it = .error .overflow := by
  have hstep : ∀ {it : Iter V} (fuel : ℕ), Walking .forward fl true all it →
      it.left .forward = x :: xs → it.leaf.left .forward ≠ [] →
      nextBy .forward fl (fuel + 1) it = .error .overflow := by
    intro it fuel h hl hne
    obtain ⟨y, ys, hy⟩ := List.exists_cons_of_ne_nil hne
    have hxy : y = x := by
      rw [left, hy] at hl
      exact (List.cons.inj hl).1
    exact step_overflow h hy rfl (hxy ▸ hx) fuel
  by_cases hne : it.leaf.left .forward = []
  · rcases step_over hV h hne with ⟨hnil, _⟩ | ⟨it', hnext, hw, hleft, hne', -⟩
    · rw [hnil] at hl
      cases hl
    · rw [hnext]
      exact hstep fuel hw (hleft.trans hl) hne'
  · exact hstep (fuel + 1) h hl hne

end Iter

end Expanse
