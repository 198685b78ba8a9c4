import Expanse.Store.Pathless

/-!
# Neighbours of a key

`next` and `prev` walk down from the root and back out of subtrees without a key on
the right side. They answer what a scan of the ascending list would, and what a
fresh iterator hands out first. A fresh forward iterator has nothing to hand out
where it starts at the last word of a full expanse: it overflows instead.
-/

namespace Expanse

open Radix SortedAssoc Edge Runs

section

variable {α : Type} {l : List (ℕ × α)} {k : ℕ}

/-- The least entry at or above `k`, or nothing where there is none. -/
def LeastFrom (l : List (ℕ × α)) (k : ℕ) : Option (ℕ × α) → Prop
  | none => ∀ x ∈ l, x.1 < k
  | some x => x ∈ l ∧ k ≤ x.1 ∧ ∀ y ∈ l, k ≤ y.1 → x.1 ≤ y.1

/-- The greatest entry at or below `k`, or nothing where there is none. -/
def GreatestUpTo (l : List (ℕ × α)) (k : ℕ) : Option (ℕ × α) → Prop
  | none => ∀ x ∈ l, k < x.1
  | some x => x ∈ l ∧ x.1 ≤ k ∧ ∀ y ∈ l, y.1 ≤ k → y.1 ≤ x.1

theorem leastFrom_find? (hs : KeySorted l) : LeastFrom l k (l.find? fun x => k ≤ x.1) := by
  cases hf : l.find? fun x => k ≤ x.1 with
  | none =>
    intro x hx
    simpa using List.find?_eq_none.mp hf x hx
  | some x =>
    obtain ⟨hm, hk, hmin⟩ := hs.find?_eq_some.mp hf
    exact ⟨hm, hk, fun y hy => hmin y.1 y.2 hy⟩

theorem greatestUpTo_rfind? (hs : KeySorted l) :
    GreatestUpTo l k (l.reverse.find? fun x => x.1 ≤ k) := by
  cases hf : l.reverse.find? fun x => x.1 ≤ k with
  | none =>
    intro x hx
    simpa using List.find?_eq_none.mp hf x (List.mem_reverse.mpr hx)
  | some x =>
    obtain ⟨hm, hk, hmax⟩ := hs.rfind?_eq_some.mp hf
    exact ⟨hm, hk, fun y hy => hmax y.1 y.2 hy⟩

end

namespace Store

variable {V : Type} [Inhabited V] {fl : Flavour} {lo : ℕ → ℕ → ℕ} {s : Store V} {top : Edge V}
  {key : ℕ}

theorem slice_congr {k k' a b : ℕ} (ha : 1 ≤ a) (h : k / 256 = k' / 256) : slice k a b = slice k' a b := by
  obtain ⟨a, rfl⟩ := Nat.exists_eq_add_of_le ha
  rw [slice, slice, pow_add, pow_one, ← Nat.div_div_eq_div_mul, ← Nat.div_div_eq_div_mul, h]

theorem digit_congr {k k' l : ℕ} (hl : 2 ≤ l) (h : k / 256 = k' / 256) : digit k l = digit k' l := by
  obtain ⟨l, rfl⟩ := Nat.exists_eq_add_of_le hl
  rw [digit, digit, show 2 + l - 1 = 1 + l by omega, pow_add, pow_one, ← Nat.div_div_eq_div_mul,
    ← Nat.div_div_eq_div_mul, h]

omit [Inhabited V] in
/-- Keys of one group of 256 end their descents at the same edge. -/
theorem terminal_congr {P : Branch (Edge V) → Prop} {L k k' : ℕ} {e : Edge V}
    (h : Readable fl P L e) (hk : k / 256 = k' / 256) : terminal L e k = terminal L e k' := by
  induction L using Nat.strong_induction_on generalizing e with
  | _ L ih =>
    cases e with
    | branch aux node =>
      have hb := readable_branch.mp h
      have h2 := hb.two_le
      have hl := hb.le
      rw [terminal, terminal, dif_pos ⟨by omega, hl⟩, dif_pos ⟨by omega, hl⟩,
        slice_congr (by omega) hk, digit_congr h2 hk, ih _ (by omega) (hb.child _)]
    | _ =>
      rw [terminal, terminal]
      all_goals
        intro _ _ he
        cases he

theorem mem_before_last (h : Inv fl lo s) (hf : s.lastWordFull = true) :
    (256 ^ 8 - 2, default) ∈ s.items := by
  obtain ⟨root, n, path⟩ := s
  cases root with
  | empty => cases hf
  | leaf cols => cases hf
  | tree top =>
    have hr := h.readable
    have hlast : (terminal 8 top (256 ^ 8 - 1)).2.isFull = true := hf
    rw [terminal_congr hr (show (256 ^ 8 - 1) / 256 = (256 ^ 8 - 2) / 256 by norm_num)] at hlast
    exact (mem_of_terminal_full hr hlast).2

theorem next_leastFrom (h : Inv fl lo s) (ht : s.root = .tree top) (hk : key < 256 ^ 8) :
    LeastFrom s.items key (Edge.next FUEL top key 8) := by
  obtain ⟨root, n, path⟩ := s
  cases ht
  rw [next_eq h.readable hk (by decide) (by decide)]
  exact leastFrom_find? h.readable.sorted

theorem prev_greatestUpTo (h : Inv fl lo s) (ht : s.root = .tree top) (hk : key < 256 ^ 8) :
    GreatestUpTo s.items key (Edge.prev FUEL top key 8) := by
  obtain ⟨root, n, path⟩ := s
  cases ht
  rw [prev_eq h.readable hk (by decide) (by decide)]
  exact greatestUpTo_rfind? h.readable.sorted

theorem draw_one {State α : Type} {next : State → Except Fault (Option α × State)} {s s' : State}
    {out : Option α} (h : next s = .ok (out, s')) : draw next (.ok s) 1 = .ok [out] := by
  change calls next s 1 = _
  rw [calls_succ h]
  rfl

variable (hV : fl = .set → ∀ v : V, v = default)

include hV

theorem prev_eq_draw (h : Inv fl lo s) (ht : s.root = .tree top) (hk : key < 256 ^ 8) :
    draw (Iter.nextBack fl) (Iter.fromTreeRangeRev fl top key) 1 =
      .ok [Edge.prev FUEL top key 8] := by
  obtain ⟨root, n, path⟩ := s
  cases ht
  obtain ⟨it, hit, hw, hl⟩ := rangeRevRaw_spec hV h key
  obtain ⟨it', hn, -, -⟩ := Iter.nextBy_spec hV hw (fun hc => (by cases hc)) 7
  have hstart : Iter.fromTreeRangeRev fl top key = .ok it := hit
  have hcall : it.nextBack fl = .ok ((it.left .backward).head?, it') := hn
  rw [hstart, draw_one hcall, hl, prev_eq h.readable hk (by decide) (by decide), ← List.filter_reverse,
    List.head?_filter]
  rfl

theorem next_eq_draw (h : Inv fl lo s) (ht : s.root = .tree top) (hk : key < 256 ^ 8)
    (hsafe : s.lastWordFull = true → key ≠ 256 ^ 8 - 1) :
    draw (Iter.next fl) (Iter.fromTreeRange fl top key) 1 = .ok [Edge.next FUEL top key 8] := by
  have hfull : s.lastWordFull = true → ∀ x xs, s.items.filter (key ≤ ·.1) = x :: xs →
      x.1 ≠ 256 ^ 8 - 1 := by
    intro hf x xs hl
    have hne := hsafe hf
    have hm : (256 ^ 8 - 2, default) ∈ s.items.filter (key ≤ ·.1) :=
      List.mem_filter.mpr ⟨mem_before_last h hf, decide_eq_true (by omega)⟩
    have hs := h.sorted.filter fun x => decide (key ≤ x.1)
    rw [hl] at hm hs
    rcases List.mem_cons.mp hm with he | hm
    · rw [← he]
      norm_num
    · have := (List.pairwise_cons.mp hs).1 _ hm
      omega
  obtain ⟨root, n, path⟩ := s
  cases ht
  obtain ⟨it, hit, hw, hl⟩ := rangeFwdRaw_spec hV h key
  obtain ⟨it', hn, -, -⟩ := Iter.nextBy_spec hV hw (fun _ hf x xs hleft => hfull hf x xs (hl ▸ hleft)) 7
  have hstart : Iter.fromTreeRange fl top key = .ok it := hit
  have hcall : it.next fl = .ok ((it.left .forward).head?, it') := hn
  rw [hstart, draw_one hcall, hl, next_eq h.readable hk (by decide) (by decide), List.head?_filter]
  rfl

theorem draw_last_overflow (h : Inv fl lo s) (ht : s.root = .tree top) (hf : s.lastWordFull = true) :
    draw (Iter.next fl) (Iter.fromTreeRange fl top (256 ^ 8 - 1)) 1 = .error .overflow := by
  have hmem := mem_of_lastWordFull h hf
  obtain ⟨x, xs, hx⟩ : ∃ x xs, s.items.filter (256 ^ 8 - 1 ≤ ·.1) = x :: xs :=
    List.exists_cons_of_ne_nil (List.ne_nil_of_mem (List.mem_filter.mpr ⟨hmem.2, by simp⟩))
  have hlast : x.1 = 256 ^ 8 - 1 := by
    have hm : x ∈ s.items.filter (256 ^ 8 - 1 ≤ ·.1) := hx ▸ List.mem_cons_self
    obtain ⟨hm, hle⟩ := List.mem_filter.mp hm
    have := h.bound hm
    have := of_decide_eq_true hle
    omega
  obtain ⟨it, hit, hw, hl⟩ := rangeFwdRaw_spec hV h (256 ^ 8 - 1)
  rw [hf] at hw
  obtain ⟨root, n, path⟩ := s
  cases ht
  have hstart : Iter.fromTreeRange fl top (256 ^ 8 - 1) = .ok it := hit
  have hn := Iter.nextBy_overflow hV hw (hl.trans hx) hlast 7
  rw [hstart]
  change calls (Iter.next fl) it 1 = _
  exact calls_fault hn 0

end Store

/-- What is asked of the two searches from `key` in a tree: the least stored entry at or above it and
the greatest at or below, as the iterators started there hand them out first. -/
structure Neighbours {V : Type} [Inhabited V] (fl : Flavour) (items : List (ℕ × V)) (top : Edge V)
    (key : ℕ) : Prop where
  next : LeastFrom items key (Edge.next FUEL top key 8)
  prev : GreatestUpTo items key (Edge.prev FUEL top key 8)
  forward : Store.draw (Iter.next fl) (Iter.fromTreeRange fl top key) 1 =
    .ok [Edge.next FUEL top key 8]
  reverse : Store.draw (Iter.nextBack fl) (Iter.fromTreeRangeRev fl top key) 1 =
    .ok [Edge.prev FUEL top key 8]

open Store

theorem neighbours_of_inv {V : Type} [Inhabited V] {fl : Flavour} {lo : ℕ → ℕ → ℕ} {s : Store V}
    {top : Edge V} {key : ℕ} (hV : fl = .set → ∀ v : V, v = default) (h : Inv fl lo s)
    (ht : s.root = .tree top) (hk : key < 256 ^ 8)
    (hsafe : s.lastWordFull = true → key ≠ 256 ^ 8 - 1) : Neighbours fl s.items top key where
  next := next_leastFrom h ht hk
  prev := prev_greatestUpTo h ht hk
  forward := next_eq_draw hV h ht hk hsafe
  reverse := prev_eq_draw hV h ht hk

/-- In every tree of a reachable set both searches find the neighbour of every key, and the reverse
iterator starts with it; the forward iterator starts with the other exactly where it does not start
at the last word of a full expanse. In maps nothing is left out. -/
theorem neighbours_iff (key : UInt64) :
    (∀ s : ExpanseSet, ExpanseSet.Reachable s → ∀ top, s.root = .tree top →
      (LeastFrom s.items key.toNat (Edge.next FUEL top key.toNat 8) ∧
        GreatestUpTo s.items key.toNat (Edge.prev FUEL top key.toNat 8)) ∧
      (Neighbours .set s.items top key.toNat ↔
        ¬ (s.lastWordFull = true ∧ key.toNat = 256 ^ 8 - 1))) ∧
    ∀ s : ExpanseMap, ExpanseMap.Reachable s → ∀ top, s.root = .tree top →
      Neighbours .map s.items top key.toNat := by
  have hk := toNat_lt key
  constructor
  · intro s h top ht
    refine ⟨⟨next_leastFrom h.inv ht hk, prev_greatestUpTo h.inv ht hk⟩, ?_, ?_⟩
    · rintro hn ⟨hf, hlast⟩
      have hforward := hn.forward
      rw [hlast, draw_last_overflow (fun _ _ => rfl) h.inv ht hf] at hforward
      cases hforward
    · intro hcond
      exact neighbours_of_inv (fun _ _ => rfl) h.inv ht hk (fun hf hlast => hcond ⟨hf, hlast⟩)
  · intro s h top ht
    refine neighbours_of_inv (fun hc => (by cases hc)) h.inv ht hk (fun hf => ?_)
    rw [lastWordFull_map h.inv] at hf
    cases hf

/-- The set and the map after their `warmOps`. -/
theorem neighbours_iff_warm :
    (∃ s : ExpanseSet, ∃ top, s.root = .tree top ∧ s.items.length = 39 ∧
      Neighbours .set s.items top (3 : UInt64).toNat) ∧
    ∃ s : ExpanseMap, ∃ top, s.root = .tree top ∧ Neighbours .map s.items top (3 : UInt64).toNat := by
  constructor
  · obtain ⟨s, hs, hlen, hf⟩ := ExpanseSet.warmOps_reach
    obtain ⟨top, ht⟩ := tree_of_large hs.inv (by rw [hlen]; decide)
    refine ⟨s, top, ht, hlen, ((neighbours_iff 3).1 s hs top ht).2.mpr fun hc => ?_⟩
    rw [hf] at hc
    cases hc.1
  · obtain ⟨s, hs, hlen⟩ := ExpanseMap.warmOps_reach
    obtain ⟨top, ht⟩ := tree_of_large hs.inv (by rw [hlen]; decide)
    exact ⟨s, top, ht, (neighbours_iff 3).2 s hs top ht⟩

/-- The set of `lastGroup`: the search finds the last word, the iterator started there overflows. -/
theorem forward_neighbour_overflows :
    ¬ ∀ s : ExpanseSet, ExpanseSet.Reachable s → ∀ top, s.root = .tree top → ∀ key : UInt64,
      Neighbours .set s.items top key.toNat := by
  intro h
  obtain ⟨s, hs, hlen, hf⟩ := ExpanseSet.lastGroup_reach
  obtain ⟨top, ht⟩ := tree_of_large hs.inv (by rw [hlen]; decide)
  have hforward := (h s hs top ht 0xFFFFFFFFFFFFFFFF).forward
  have hlast : (0xFFFFFFFFFFFFFFFF : UInt64).toNat = 256 ^ 8 - 1 := rfl
  rw [hlast, draw_last_overflow (fun _ _ => rfl) hs.inv ht hf] at hforward
  cases hforward

end Expanse
