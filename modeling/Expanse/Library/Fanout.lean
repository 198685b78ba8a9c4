import Mathlib.Tactic
import Expanse.Library.Puts

/-!
# Association lists fanned out by digit

The entries of a node are those of its children, each below the digit that leads to the
child. `fanout` joins them. An update of the joined list at a key is the update of the list
of one child, the one of the key's digit, at what is left of the key.
-/

namespace Expanse.SortedAssoc

variable {α β : Type*} {B d r n : ℕ} {v : α} {f : β → List (ℕ × α)} {c c' : β}
  {kids k₁ k₂ : List (ℕ × β)}

/-- The entries of children that cover `B` keys each. -/
def fanout (B : ℕ) (f : β → List (ℕ × α)) (kids : List (ℕ × β)) : List (ℕ × α) :=
  kids.flatMap fun c => (f c.2).map fun e => (c.1 * B + e.1, e.2)

/-- Every key of a child is below `B`. -/
def Narrow (B : ℕ) (f : β → List (ℕ × α)) (kids : List (ℕ × β)) : Prop :=
  ∀ c ∈ kids, ∀ e ∈ f c.2, e.1 < B

@[simp] theorem fanout_nil : fanout B f [] = [] := rfl

@[simp] theorem fanout_append : fanout B f (k₁ ++ k₂) = fanout B f k₁ ++ fanout B f k₂ :=
  List.flatMap_append

theorem fanout_cons : fanout B f ((d, c) :: k₂) =
    (f c).map (fun e => (d * B + e.1, e.2)) ++ fanout B f k₂ := List.flatMap_cons

theorem mem_fanout {x : ℕ} :
    (x, v) ∈ fanout B f kids ↔ ∃ a ∈ kids, ∃ y, (y, v) ∈ f a.2 ∧ x = a.1 * B + y := by
  rw [fanout, List.mem_flatMap]
  constructor
  · rintro ⟨a, ha, hm⟩
    obtain ⟨⟨y, w⟩, hy, he⟩ := List.mem_map.mp hm
    cases he
    exact ⟨a, ha, y, hy, rfl⟩
  · rintro ⟨a, ha, y, hy, rfl⟩
    exact ⟨a, ha, List.mem_map.mpr ⟨(y, v), hy, rfl⟩⟩

theorem Narrow.of_append (h : Narrow B f (k₁ ++ k₂)) : Narrow B f k₁ ∧ Narrow B f k₂ :=
  ⟨fun c hc => h c (List.mem_append_left k₂ hc), fun c hc => h c (List.mem_append_right k₁ hc)⟩

theorem Narrow.of_cut (h : Narrow B f (k₁ ++ (d, c) :: k₂)) :
    Narrow B f k₁ ∧ (∀ e ∈ f c, e.1 < B) ∧ Narrow B f k₂ :=
  ⟨h.of_append.1, h (d, c) (by simp), fun a ha => h a (by simp [ha])⟩

/-- Children of smaller digits lie below `d * B`. -/
theorem fanout_below (hn : Narrow B f k₁) (hd : ∀ a ∈ k₁, a.1 < d) :
    ∀ e ∈ fanout B f k₁, e.1 < d * B + r := by
  rintro ⟨x, w⟩ he
  obtain ⟨a, ha, y, hy, rfl⟩ := mem_fanout.mp he
  have hlt := hn a ha _ hy
  have hmul : (a.1 + 1) * B ≤ d * B := Nat.mul_le_mul_right B (hd a ha)
  rw [Nat.add_mul] at hmul
  simp only at hlt ⊢
  omega

/-- Children of larger digits lie above all of digit `d`. -/
theorem fanout_above (hr : r < B) (hd : ∀ a ∈ k₂, d < a.1) : ∀ e ∈ fanout B f k₂, d * B + r < e.1 := by
  rintro ⟨x, w⟩ he
  obtain ⟨a, ha, y, hy, rfl⟩ := mem_fanout.mp he
  have hmul : (d + 1) * B ≤ a.1 * B := Nat.mul_le_mul_right B (hd a ha)
  rw [Nat.add_mul] at hmul
  simp only
  omega

theorem fanout_lt (hn : Narrow B f kids) (hd : ∀ a ∈ kids, a.1 < n) : ∀ e ∈ fanout B f kids, e.1 < n * B := by
  intro e he
  simpa using fanout_below (r := 0) hn hd e he

theorem keySorted_fanout (hs : KeySorted kids) (hn : Narrow B f kids)
    (hf : ∀ a ∈ kids, KeySorted (f a.2)) : KeySorted (fanout B f kids) := by
  induction kids with
  | nil => exact List.Pairwise.nil
  | cons a kids ih =>
    obtain ⟨d, c⟩ := a
    obtain ⟨hhead, htail⟩ := List.pairwise_cons.mp hs
    rw [fanout_cons]
    refine List.pairwise_append.mpr ⟨?_, ih htail (fun x hx => hn x (List.mem_cons_of_mem _ hx))
      fun x hx => hf x (List.mem_cons_of_mem _ hx), ?_⟩
    · rw [List.pairwise_map]
      exact (hf (d, c) List.mem_cons_self).imp fun hab => by simpa using hab
    · intro x hx y hy
      obtain ⟨e, he, rfl⟩ := List.mem_map.mp hx
      exact fanout_above (hn (d, c) List.mem_cons_self e he) hhead y hy

theorem length_fanout : (fanout B f kids).length = (kids.map fun c => (f c.2).length).sum := by
  rw [fanout, List.length_flatMap]
  simp

theorem length_fanout_cut :
    (fanout B f (k₁ ++ (d, c) :: k₂)).length = (f c).length + (fanout B f (k₁ ++ k₂)).length := by
  rw [fanout_append, fanout_cons, fanout_append, List.length_append, List.length_append, List.length_append,
    List.length_map]
  omega

section Shifted

variable {l : List (ℕ × α)} (x : ℕ)

theorem put_shifted : put (x + r) v (l.map fun e => (x + e.1, e.2)) =
    (put r v l).map fun e => (x + e.1, e.2) := by
  induction l with
  | nil => rfl
  | cons e l ih =>
    rw [List.map_cons, put, put, ih]
    simp only [Nat.add_lt_add_iff_left, Nat.add_left_cancel_iff]
    split_ifs <;> rfl

theorem del_shifted : del (x + r) (l.map fun e => (x + e.1, e.2)) =
    (del r l).map fun e => (x + e.1, e.2) := by
  rw [del, del, List.filter_map]
  congr 1
  apply List.filter_congr
  intro e _
  simp

theorem lookup_shifted : (l.map fun e => (x + e.1, e.2)).lookup (x + r) = l.lookup r := by
  induction l with
  | nil => rfl
  | cons e l ih =>
    have he : (x + r == x + e.1) = (r == e.1) := by
      rw [Bool.eq_iff_iff, beq_iff_eq, beq_iff_eq, Nat.add_left_cancel_iff]
    rw [List.map_cons, List.lookup_cons, List.lookup_cons, ih, he]

end Shifted

theorem put_append_left {l₁ l₂ : List (ℕ × α)} {k : ℕ} (h : ∀ e ∈ l₂, k < e.1) :
    put k v (l₁ ++ l₂) = put k v l₁ ++ l₂ := by
  induction l₁ with
  | nil => rw [List.nil_append, put_above h]; rfl
  | cons e l₁ ih =>
    rw [List.cons_append, put, put, ih]
    split_ifs <;> rfl

theorem lookup_none_of_ne {l : List (ℕ × α)} {k : ℕ} (h : ∀ e ∈ l, e.1 ≠ k) : l.lookup k = none := by
  rw [List.lookup_eq_none_iff]
  intro e he
  simpa using (h e he).symm

section Update

variable (hcut : CutAt d k₁ k₂) (hr : r < B)

include hcut hr

theorem put_fanout_mem (hn : Narrow B f (k₁ ++ (d, c) :: k₂)) (hc : f c' = put r v (f c)) :
    put (d * B + r) v (fanout B f (k₁ ++ (d, c) :: k₂)) = fanout B f (k₁ ++ (d, c') :: k₂) := by
  obtain ⟨h₁, -, -⟩ := hn.of_cut
  rw [fanout_append, fanout_cons, put_append (fanout_below h₁ hcut.below),
    put_append_left (fanout_above hr hcut.above), put_shifted, ← hc, fanout_append, fanout_cons]

theorem put_fanout_new (hn : Narrow B f (k₁ ++ k₂)) (hc : f c = [(r, v)]) :
    put (d * B + r) v (fanout B f (k₁ ++ k₂)) = fanout B f (k₁ ++ (d, c) :: k₂) := by
  obtain ⟨h₁, -⟩ := hn.of_append
  rw [fanout_append, put_append (fanout_below h₁ hcut.below), put_above (fanout_above hr hcut.above),
    fanout_append, fanout_cons, hc]
  rfl

theorem lookup_fanout_mem (hn : Narrow B f (k₁ ++ (d, c) :: k₂)) :
    (fanout B f (k₁ ++ (d, c) :: k₂)).lookup (d * B + r) = (f c).lookup r := by
  obtain ⟨h₁, -, -⟩ := hn.of_cut
  have hb : (fanout B f k₁).lookup (d * B + r) = none :=
    lookup_none_of_ne fun e he => Nat.ne_of_lt (fanout_below h₁ hcut.below e he)
  have ha : (fanout B f k₂).lookup (d * B + r) = none :=
    lookup_none_of_ne fun e he => Nat.ne_of_gt (fanout_above hr hcut.above e he)
  rw [fanout_append, fanout_cons, List.lookup_append, List.lookup_append, hb, ha, lookup_shifted]
  simp

theorem lookup_fanout_new (hn : Narrow B f (k₁ ++ k₂)) :
    (fanout B f (k₁ ++ k₂)).lookup (d * B + r) = none := by
  obtain ⟨h₁, -⟩ := hn.of_append
  refine lookup_none_of_ne fun e he => ?_
  rw [fanout_append] at he
  rcases List.mem_append.mp he with he | he
  · exact Nat.ne_of_lt (fanout_below h₁ hcut.below e he)
  · exact Nat.ne_of_gt (fanout_above hr hcut.above e he)

theorem del_fanout_mem (hn : Narrow B f (k₁ ++ (d, c) :: k₂)) (hc : f c' = del r (f c)) :
    del (d * B + r) (fanout B f (k₁ ++ (d, c) :: k₂)) = fanout B f (k₁ ++ (d, c') :: k₂) := by
  obtain ⟨h₁, -, -⟩ := hn.of_cut
  have hb : del (d * B + r) (fanout B f k₁) = fanout B f k₁ := del_of_not_mem fun w hm =>
    Nat.lt_irrefl _ (fanout_below h₁ hcut.below _ hm)
  have ha : del (d * B + r) (fanout B f k₂) = fanout B f k₂ := del_of_not_mem fun w hm =>
    Nat.lt_irrefl _ (fanout_above hr hcut.above _ hm)
  rw [fanout_append, fanout_cons, del, List.filter_append, List.filter_append, ← del, ← del, ← del, hb,
    ha, del_shifted, ← hc, fanout_append, fanout_cons]

end Update

/-- A child without entries may as well be dropped. -/
theorem fanout_drop (hc : f c = []) : fanout B f (k₁ ++ (d, c) :: k₂) = fanout B f (k₁ ++ k₂) := by
  rw [fanout_append, fanout_cons, hc, fanout_append]
  rfl

section Unique

variable {kids kids' : List (ℕ × β)}

/-- The entries of the first child are those below the next digit. -/
theorem filter_fanout_first (hs : KeySorted ((d, c) :: kids)) (hn : Narrow B f ((d, c) :: kids)) :
    (fanout B f ((d, c) :: kids)).filter (fun e => e.1 < (d + 1) * B) = (f c).map (fun e => (d * B + e.1, e.2)) ∧
      (fanout B f ((d, c) :: kids)).filter (fun e => ¬ e.1 < (d + 1) * B) = fanout B f kids := by
  have hlow : ∀ e ∈ (f c).map (fun e => (d * B + e.1, e.2)), e.1 < (d + 1) * B := by
    intro e he
    obtain ⟨x, hx, rfl⟩ := List.mem_map.mp he
    have := hn (d, c) List.mem_cons_self x hx
    rw [Nat.succ_mul]
    exact Nat.add_lt_add_left this _
  have hhigh : ∀ e ∈ fanout B f kids, ¬ e.1 < (d + 1) * B := by
    rintro ⟨x, v⟩ he
    obtain ⟨a, ha, y, -, rfl⟩ := mem_fanout.mp he
    have hlt := (List.pairwise_cons.mp hs).1 a ha
    have hmul : (d + 1) * B ≤ a.1 * B := Nat.mul_le_mul_right B hlt
    exact not_lt.mpr (le_trans hmul (Nat.le_add_right _ _))
  rw [fanout_cons, List.filter_append, List.filter_append]
  constructor
  · rw [List.filter_eq_self.mpr fun e he => decide_eq_true (hlow e he),
      List.filter_eq_nil_iff.mpr fun e he => by simpa using hhigh e he, List.append_nil]
  · rw [List.filter_eq_nil_iff.mpr fun e he => by simpa using hlow e he,
      List.filter_eq_self.mpr fun e he => decide_eq_true (hhigh e he), List.nil_append]

/-- Children of ascending digits, none without entries: the fan gives the digits, and the entries of
each child. -/
theorem fanout_inj (hs : KeySorted kids) (hs' : KeySorted kids') (hn : Narrow B f kids) (hn' : Narrow B f kids')
    (hne : ∀ c ∈ kids, f c.2 ≠ []) (hne' : ∀ c ∈ kids', f c.2 ≠ []) (h : fanout B f kids = fanout B f kids') :
    List.Forall₂ (fun a b => a.1 = b.1 ∧ f a.2 = f b.2) kids kids' := by
  have hnil : ∀ {ks : List (ℕ × β)}, (∀ c ∈ ks, f c.2 ≠ []) → fanout B f ks = [] → ks = [] := by
    intro ks hne hf
    cases ks with
    | nil => rfl
    | cons a ks =>
      rw [fanout_cons, List.append_eq_nil_iff, List.map_eq_nil_iff] at hf
      exact absurd hf.1 (hne a List.mem_cons_self)
  induction kids generalizing kids' with
  | nil =>
    rw [hnil hne' h.symm]
    exact .nil
  | cons a kids ih =>
    cases kids' with
    | nil => exact absurd (hnil hne h) (List.cons_ne_nil _ _)
    | cons b kids' =>
      obtain ⟨d, c⟩ := a
      obtain ⟨d', c'⟩ := b
      obtain ⟨x, xs, hx⟩ := List.exists_cons_of_ne_nil (hne (d, c) List.mem_cons_self)
      obtain ⟨y, ys, hy⟩ := List.exists_cons_of_ne_nil (hne' (d', c') List.mem_cons_self)
      have hxB : x.1 < B := hn (d, c) List.mem_cons_self x (by rw [hx]; exact List.mem_cons_self)
      have hyB : y.1 < B := hn' (d', c') List.mem_cons_self y (by rw [hy]; exact List.mem_cons_self)
      have hd : d = d' := by
        have hhead := h
        rw [fanout_cons, fanout_cons, show f c = x :: xs from hx, show f c' = y :: ys from hy] at hhead
        have hkey := congrArg Prod.fst (List.cons.inj hhead).1
        dsimp only at hkey
        calc d = (d * B + x.1) / B := by rw [Nat.mul_comm, Nat.mul_add_div (by omega),
          Nat.div_eq_of_lt hxB, add_zero]
          _ = (d' * B + y.1) / B := by rw [hkey]
          _ = d' := by rw [Nat.mul_comm, Nat.mul_add_div (by omega), Nat.div_eq_of_lt hyB, add_zero]
      subst hd
      obtain ⟨hfirst, hrest⟩ := filter_fanout_first hs hn
      obtain ⟨hfirst', hrest'⟩ := filter_fanout_first hs' hn'
      rw [h, hfirst'] at hfirst
      rw [h, hrest'] at hrest
      have hinj : Function.Injective fun e : ℕ × α => (d * B + e.1, e.2) := by
        rintro ⟨k, v⟩ ⟨k', v'⟩ heq
        obtain ⟨h1, h2⟩ := Prod.mk.inj heq
        exact Prod.ext (Nat.add_left_cancel h1) h2
      refine .cons ⟨rfl, (hinj.list_map hfirst).symm⟩
        (ih (List.pairwise_cons.mp hs).2 (List.pairwise_cons.mp hs').2
        (fun a ha => hn a (List.mem_cons_of_mem _ ha)) (fun a ha => hn' a (List.mem_cons_of_mem _ ha))
        (fun a ha => hne a (List.mem_cons_of_mem _ ha))
          (fun a ha => hne' a (List.mem_cons_of_mem _ ha)) hrest.symm)

end Unique

/-- The insertion of ascending entries behind those present. -/
theorem foldl_put {l l' : List (ℕ × α)} (h : KeySorted (l ++ l')) :
    l'.foldl (fun m e => put e.1 e.2 m) l = l ++ l' := by
  induction l' generalizing l with
  | nil => simp
  | cons e l' ih =>
    obtain ⟨k, v⟩ := e
    obtain ⟨h₁, -, hcut⟩ := h.of_cut
    have hnew : put k v l = l ++ [(k, v)] := by
      have := @put_cut_new _ k v l [] ⟨hcut.below, by simp⟩
      rwa [List.append_nil] at this
    rw [List.foldl_cons, hnew, ih (by simpa using h)]
    simp

end Expanse.SortedAssoc
