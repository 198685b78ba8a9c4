import Expanse.Engine.IterSpec

/-!
# Descents and seeks

A descent into an edge arrives at a walker that has the edge's entries left and
then what its stack had; a seek leaves out the entries on the near side of its key.
-/

namespace Expanse

open Radix SortedAssoc Edge

namespace Frame

variable {V : Type} [Inhabited V] {dir : Direction} {fl : Flavour} {full : Bool} {f : Frame V}
  {depth start d : ℕ} {c : Edge V} {x : ℕ × V}

theorem Child.key (h : f.Child fl full d c) (hx : x ∈ f.childEntries dir d c) :
    ∃ r, r < 256 ^ (f.level - 1) ∧ x.1 = f.pre + d * 256 ^ (f.level - 1) + r := by
  rw [childEntries, dir.mem_order] at hx
  obtain ⟨y, hy, rfl⟩ := List.mem_map.mp hx
  exact ⟨y.1, h.readable.bound (v := y.2) hy, rfl⟩

/-- A key below a slot agrees with the frame above its level and has the slot's digit. -/
theorem Child.parts (h : f.Child fl full d c) (hp : At f.level f.pre)
    (hx : x ∈ f.childEntries dir d c) :
    x.1 / 256 ^ f.level = f.pre / 256 ^ f.level ∧ Radix.digit x.1 f.level = d := by
  obtain ⟨r, hr, hk⟩ := h.key hx
  have h1 := h.one_le
  obtain ⟨q, hq⟩ := hp.dvd
  rw [Nat.mul_comm] at hq
  rw [hk, hq, Nat.mul_div_cancel _ (pow_pos' _)]
  exact ⟨div_compose (by omega) h.lt hr, digit_compose (by omega) h.lt hr⟩

/-- Keys compare as their upper parts do. -/
theorem before_of_div {a b B : ℕ} (h : dir.Before (a / B) (b / B)) : dir.Before a b := by
  cases dir with
  | forward =>
    by_contra hc
    exact absurd (Nat.div_le_div_right (c := B) (Nat.le_of_not_lt hc)) (Nat.not_le_of_lt h)
  | backward =>
    by_contra hc
    exact absurd (Nat.div_le_div_right (c := B) (Nat.le_of_not_lt hc)) (Nat.not_le_of_lt h)

/-- Keys that agree above a level compare as their digits there. -/
theorem before_of_digit {a b l : ℕ} (h1 : 1 ≤ l) (he : a / 256 ^ l = b / 256 ^ l)
    (h : dir.Before (Radix.digit a l) (Radix.digit b l)) : dir.Before a b := by
  have hsplit : ∀ k, k / 256 ^ (l - 1) = k / 256 ^ l * 256 + Radix.digit k l := by
    intro k
    rw [Radix.digit, pow_pred h1, ← Nat.div_div_eq_div_mul]
    exact (Nat.div_add_mod' _ _).symm
  apply before_of_div (B := 256 ^ (l - 1))
  rw [hsplit a, hsplit b, he]
  cases dir with
  | forward => exact Nat.add_lt_add_left h _
  | backward => exact Nat.add_lt_add_left h _

variable (h : f.Ok fl full depth)

include h

theorem Ok.mem_whole (hx : x ∈ f.whole dir) :
    ∃ d c, f.Child fl full d c ∧ x ∈ f.childEntries dir d c := by
  obtain ⟨⟨d, c⟩, hs, hx⟩ := List.mem_flatMap.mp hx
  exact ⟨d, c, h.child ((dir.mem_order).mp hs), hx⟩

variable (dir) in
/-- A key above the frame's expanse leaves nothing. -/
theorem Ok.filter_near (hlt : dir.Before (f.pre / 256 ^ f.level) (start / 256 ^ f.level)) :
    (f.whole dir).filter (fun x => dir.far start x.1) = [] := by
  rw [List.filter_eq_nil_iff]
  intro x hx
  obtain ⟨d, c, hc, hx⟩ := h.mem_whole hx
  rw [dir.not_far (before_of_div (B := 256 ^ f.level) ((hc.parts h.place hx).1 ▸ hlt))]
  exact Bool.false_ne_true

variable (dir) in
/-- A key below the frame's expanse leaves everything. -/
theorem Ok.filter_far (hlt : dir.Before (start / 256 ^ f.level) (f.pre / 256 ^ f.level)) :
    (f.whole dir).filter (fun x => dir.far start x.1) = f.whole dir := by
  rw [List.filter_eq_self]
  intro x hx
  obtain ⟨d, c, hc, hx⟩ := h.mem_whole hx
  exact dir.far_of_before (before_of_div (B := 256 ^ f.level) ((hc.parts h.place hx).1 ▸ hlt))

variable (dir) in
/-- Within the expanse, the slots on the near side of the key's digit drop out and those on the
far side stay. -/
theorem Ok.filter_inside (he : start / 256 ^ f.level = f.pre / 256 ^ f.level)
    {slots : List (ℕ × Edge V)}
    (hl : dir.order (f.node.slots.filter fun s => dir.far (Radix.digit start f.level) s.1) = slots) :
    (f.whole dir).filter (fun x => dir.far start x.1) =
      (f.entriesOf dir slots).filter (fun x => dir.far start x.1) ∧
    ∀ d c rest, slots = (d, c) :: rest →
      (f.entriesOf dir rest).filter (fun x => dir.far start x.1) = f.entriesOf dir rest ∧
      (d ≠ Radix.digit start f.level →
        (f.childEntries dir d c).filter (fun x => dir.far start x.1) = f.childEntries dir d c) := by
  have h2 := h.readable.two_le
  rw [h.level] at h2
  have hsorted := Branch.slots_sorted h.readable.ok
  obtain ⟨near, hsplit, hnear⟩ := dir.order_split hsorted (Radix.digit start f.level)
  rw [hl] at hsplit
  have hmem : ∀ s, s ∈ near ++ slots → f.Child fl full s.1 s.2 := by
    intro s hs
    rw [← hsplit, dir.mem_order] at hs
    exact h.child hs
  have hfar : ∀ s ∈ slots, dir.Before (Radix.digit start f.level) s.1 →
      ∀ x ∈ f.childEntries dir s.1 s.2, dir.far start x.1 = true := by
    intro s hs hlt x hx
    obtain ⟨hq, hd⟩ := (hmem s (by simp [hs])).parts h.place hx
    exact dir.far_of_before (before_of_digit (by omega) (he.trans hq.symm) (hd.symm ▸ hlt))
  constructor
  · rw [whole, hsplit, entriesOf, List.flatMap_append, List.filter_append]
    rw [List.filter_eq_nil_iff.mpr, List.nil_append]
    · rfl
    · intro x hx
      obtain ⟨s, hs, hx⟩ := List.mem_flatMap.mp hx
      obtain ⟨hq, hd⟩ := (hmem s (by simp [hs])).parts h.place hx
      rw [dir.not_far (before_of_digit (l := f.level) (by omega) (hq.trans he.symm)
        (hd.symm ▸ hnear s hs))]
      exact Bool.false_ne_true
  · rintro d c rest rfl
    have hpair := dir.order_pairwise hsorted
    rw [hsplit, List.pairwise_append, List.pairwise_cons] at hpair
    have hd : dir.far (Radix.digit start f.level) d = true := by
      have : (d, c) ∈ dir.order (f.node.slots.filter fun s =>
          dir.far (Radix.digit start f.level) s.1) := by
        rw [hl]
        exact List.mem_cons_self
      rw [dir.mem_order, List.mem_filter] at this
      exact this.2
    refine ⟨List.filter_eq_self.mpr ?_, fun hne => List.filter_eq_self.mpr ?_⟩
    · intro x hx
      obtain ⟨s, hs, hx⟩ := List.mem_flatMap.mp hx
      exact hfar s (by simp [hs]) (Direction.Before.trans_far hd (hpair.2.1.1 s hs)) x hx
    · intro x hx
      exact hfar (d, c) (by simp) (dir.before_of_far hd hne) x hx

end Frame

namespace Iter

variable {V : Type} [Inhabited V] {dir : Direction} {fl : Flavour} {full : Bool}
  {all l : List (ℕ × V)} {L pre fuel start : ℕ} {e : Edge V} {it : Iter V}

/-- A walker inside a tree that has `l` left. -/
structure Arrives (dir : Direction) (fl : Flavour) (full : Bool) (all : List (ℕ × V))
    (it : Iter V) (l : List (ℕ × V)) : Prop where
  standing : Standing dir fl full all it
  left_eq : it.left dir = l

/-- What a descent into an edge needs. -/
structure Entry (dir : Direction) (fl : Flavour) (full : Bool) (all : List (ℕ × V)) (L pre : ℕ)
    (e : Edge V) (stack : List (Frame V)) : Prop where
  readable : Readable fl Populated L e
  ne_null : e ≠ null
  one_le : 1 ≤ L
  room : stack.length + L ≤ 8
  place : At L pre
  top : TopFull full L pre e
  frames : StackOk dir fl full stack
  beyond : Beyond dir L pre stack
  nested : Nested dir all (dir.order (shift pre (entries L e))) stack

omit [Inhabited V] in
theorem not_terminal (h : e.isTerminal = false) (hn : e ≠ null) : ∃ aux node, e = branch aux node := by
  cases e with
  | null => exact absurd rfl hn
  | branch aux node => exact ⟨aux, node, rfl⟩
  | _ => cases h

theorem entries_ne_nil (h : Readable fl Populated L e) (ht : e.isTerminal = true) :
    entries L e ≠ [] := by
  rw [← List.length_pos_iff]
  cases e with
  | null => cases ht
  | branch aux node => cases ht
  | immed kb cols =>
    rw [Readable] at h
    rw [entries, Columns.length_entries]
    exact h.2.2.2
  | leaf kb aux cols =>
    rw [Readable] at h
    rw [entries, length_shift, Columns.length_entries]
    exact h.2.2.2.1
  | leafB1 aux node =>
    rw [Readable] at h
    rw [entries, length_shift, ← List.length_map Prod.fst,
      Ranked.entries_keys h.2.1]
    exact h.2.2.1
  | fullExpanse aux =>
    rw [entries, List.length_map, List.length_range]
    exact pow_pos' L

theorem entry_bound (h : Readable fl Populated L e) :
    ∀ x ∈ shift pre (entries L e), x.1 < pre + 256 ^ L := by
  intro x hx
  obtain ⟨y, hy, rfl⟩ := List.mem_map.mp hx
  have := h.bound (k := y.1) (v := y.2) hy
  change pre + y.1 < _
  omega

theorem arrives_placed {stack : List (Frame V)} (h : Entry dir fl full all L pre e stack)
    (ht : e.isTerminal = true) {c : LeafCursor V} (hc : c.Placed dir L pre e l)
    (hl : l <:+ dir.order (shift pre (entries L e))) :
    Arrives dir fl full all ⟨c, stack⟩ (l ++ stackLeft dir stack) where
  standing := by
    refine ⟨hc.ok, ?_, h.frames, ?_, ?_⟩
    · rintro rfl
      exact hc.topOk h.place ht h.top fun x hx => entry_bound h.readable x (hl.subset hx)
    · rw [hc.left]
      exact h.nested.suffix hl
    · intro he hn
      rw [hc.inTree he] at hn
      cases hn
  left_eq := by
    rw [left, hc.left]

omit [Inhabited V] in
theorem div_pow_div {m : ℕ} (hm : m ≤ L) (k : ℕ) : k / 256 ^ m / 256 ^ (L - m) = k / 256 ^ L := by
  rw [Nat.div_div_eq_div_mul, ← pow_add, Nat.add_sub_cancel' hm]

theorem Beyond.inside {stack : List (Frame V)} {m q : ℕ} (h : Beyond dir L pre stack) (hm : m ≤ L)
    (hq : q / 256 ^ L = pre / 256 ^ L) : Beyond dir m q stack := by
  intro y hy
  apply Frame.before_of_div (B := 256 ^ (L - m))
  rw [div_pow_div hm, div_pow_div hm, hq]
  exact h y hy

omit [Inhabited V] in
theorem place_div {m x r : ℕ} (hp : At L pre) (hm : m ≤ L) (hx : x < 256 ^ (L - m))
    (hr : r < 256 ^ m) : (pre + x * 256 ^ m + r) / 256 ^ L = pre / 256 ^ L := by
  obtain ⟨q, rfl⟩ := hp.dvd
  rw [Nat.add_assoc, Nat.mul_add_div (pow_pos' L), Nat.mul_div_cancel_left _ (pow_pos' L),
    Nat.div_eq_of_lt (mul_add_lt hm hx hr)]
  rfl

theorem Entry.of_slot {f : Frame V} {rest : List (Frame V)} {d : ℕ} {c : Edge V}
    {slots : List (ℕ × Edge V)} (hf : f.Ok fl full rest.length) (hb : Beyond dir f.level f.pre rest)
    (hs : StackOk dir fl full rest) (hn : Nested dir all (f.whole dir) rest)
    (hl : f.node.slotsLeft dir f.pos = (d, c) :: slots) :
    ∃ pos, f.node.slotAt dir f.pos = some (d, c, pos) ∧
      ({ f with pos := pos } : Frame V).left dir = f.entriesOf dir slots ∧
      f.left dir = f.childEntries dir d c ++ f.entriesOf dir slots ∧ f.Child fl full d c ∧
      Entry dir fl full all (f.level - 1) (f.pre + d * 256 ^ (f.level - 1)) c
        ({ f with pos := pos } :: rest) := by
  obtain ⟨pos, hslot, hf', hleft, hsplit, hc⟩ := hf.step hl
  have hsuf : f.left dir <:+ f.whole dir := hf.left_suffix
  rw [hsplit, ← hleft] at hsuf
  have hroom := hf.room
  have h1 := hc.one_le
  have hlev : f.level - (f.level - 1) = 1 := by omega
  have hd : d < 256 ^ (f.level - (f.level - 1)) := by
    rw [hlev, pow_one]
    exact hc.lt
  refine ⟨pos, hslot, hleft, hsplit, hc, hc.readable, hc.ne_null, h1, ?_, hc.place, hc.top,
    ⟨hf', hb, hs⟩, ?_, hsuf, hn⟩
  · rw [List.length_cons]
    omega
  · intro y hy
    rcases List.mem_append.mp hy with hy | hy
    · -- the slots left have digits beyond this one
      rw [hleft] at hy
      obtain ⟨s, hsl, hy⟩ := List.mem_flatMap.mp hy
      have hmem : s ∈ f.node.slots := by
        have := (Branch.slotsLeft_suffix hf.readable.ok dir f.pos).subset
          (hl ▸ List.mem_cons_of_mem _ hsl)
        exact (dir.mem_order).mp this
      obtain ⟨r, hr, hk⟩ := (hf.child hmem).key hy
      have hpair := (dir.order_pairwise (Branch.slots_sorted hf.readable.ok)).sublist
        (Branch.slotsLeft_suffix hf.readable.ok dir f.pos).sublist
      rw [hl, List.pairwise_cons] at hpair
      have hdig := hpair.1 s hsl
      obtain ⟨q, hq⟩ := ((pow_dvd_pow 256 (Nat.sub_le f.level 1)).trans hf.place.dvd)
      have hpos := pow_pos' (f.level - 1)
      rw [hk, hq, Nat.add_assoc, Nat.mul_add_div hpos, Nat.mul_add_div hpos,
        Nat.mul_div_cancel _ hpos, mul_add_div hr]
      cases dir with
      | forward => exact Nat.add_lt_add_left hdig q
      | backward => exact Nat.add_lt_add_left hdig q
    · refine hb.inside (Nat.sub_le _ _) ?_ y hy
      exact place_div hf.place (Nat.sub_le _ _) hd (pow_pos' (f.level - 1))

theorem Entry.branch {aux pos d : ℕ} {node : Branch (Edge V)} {c : Edge V}
    {slots : List (ℕ × Edge V)} {stack : List (Frame V)}
    (h : Entry dir fl full all L pre (.branch aux node) stack)
    (hpos : pos ≤ node.startPos .backward) (hl : node.slotsLeft dir pos = (d, c) :: slots) :
    ∃ pos' f, f = (⟨node, pos', node.level L,
        pre + slice aux (node.level L) L * 256 ^ node.level L⟩ : Frame V) ∧
      node.slotAt dir pos = some (d, c, pos') ∧ f.left dir = f.entriesOf dir slots ∧
      f.Child fl full d c ∧
      Entry dir fl full all (node.level L - 1) (f.pre + d * 256 ^ (node.level L - 1)) c
        (f :: stack) := by
  have hr := readable_branch.mp h.readable
  have hf₀ := Frame.ok_of_branch pos hr h.place h.top h.room hpos
  have hb := h.beyond.inside (m := node.level L)
    (q := pre + slice aux (node.level L) L * 256 ^ node.level L) hr.le
    (place_div h.place hr.le (slice_lt _ _ _) (pow_pos' (node.level L)))
  have hn := h.nested
  rw [← Frame.whole_of_branch pos hr] at hn
  obtain ⟨pos', hslot, hleft, -, hc, hentry⟩ := Entry.of_slot hf₀ hb h.frames hn hl
  exact ⟨pos', _, rfl, hslot, hleft,
    ⟨hc.readable, hc.ne_null, hc.one_le, hc.place, hc.top, hc.mem, hc.lt⟩, hentry⟩

theorem Entry.enter {aux pos : ℕ} {node : Branch (Edge V)} {stack : List (Frame V)}
    (h : Entry dir fl full all L pre (.branch aux node) stack)
    (hpos : pos ≤ node.startPos .backward) (hl : node.slotsLeft dir pos = dir.order node.slots) :
    ∃ d c pos' f, f = (⟨node, pos', node.level L,
        pre + slice aux (node.level L) L * 256 ^ node.level L⟩ : Frame V) ∧
      node.slotAt dir pos = some (d, c, pos') ∧
      Entry dir fl full all (node.level L - 1) (f.pre + d * 256 ^ (node.level L - 1)) c
        (f :: stack) ∧
      dir.order (shift pre (entries L (.branch aux node))) =
        dir.order (shift (f.pre + d * 256 ^ (node.level L - 1)) (entries (node.level L - 1) c)) ++
          f.left dir := by
  have hr := readable_branch.mp h.readable
  obtain ⟨⟨d, c⟩, slots, hs⟩ := List.exists_cons_of_ne_nil
    (show dir.order node.slots ≠ [] by rw [Ne, dir.order_eq_nil]; exact hr.holds)
  obtain ⟨pos', f, rfl, hslot, hleft, hc, hentry⟩ := h.branch hpos (hl.trans hs)
  refine ⟨d, c, pos', _, rfl, hslot, hentry, ?_⟩
  rw [hleft, ← Frame.whole_of_branch pos' hr, Frame.whole]
  exact congrArg (Frame.entriesOf dir _) hs

omit [Inhabited V] in
theorem push_ok {f : Frame V} {stack : List (Frame V)} (leaf : LeafCursor V)
    (h : stack.length < 8) : push f ⟨leaf, stack⟩ = .ok ⟨leaf, f :: stack⟩ := by
  rw [push, if_pos h]

theorem stackLeft_cons (dir : Direction) (f : Frame V) (stack : List (Frame V)) :
    stackLeft dir (f :: stack) = f.left dir ++ stackLeft dir stack := rfl

omit [Inhabited V] in
theorem descendBy_terminal (ht : e.isTerminal = true) :
    descendBy dir fl (fuel + 1) e L pre it = .ok ⟨.enter dir fl e L pre, it.stack⟩ := by
  cases e with
  | null => cases ht
  | branch aux node => cases ht
  | _ => rfl

theorem descendBy_spec (hV : fl = .set → ∀ v : V, v = default) (leaf : LeafCursor V)
    {stack : List (Frame V)} (h : Entry dir fl full all L pre e stack) (hf : L ≤ fuel) :
    ∃ it', descendBy dir fl fuel e L pre ⟨leaf, stack⟩ = .ok it' ∧
      Arrives dir fl full all it' (dir.order (shift pre (entries L e)) ++ stackLeft dir stack) ∧
      it'.leaf.isEmpty = false ∧ it'.leaf.left dir ≠ [] := by
  induction fuel generalizing L e pre stack with
  | zero =>
    have := h.one_le
    omega
  | succ fuel ih =>
    cases ht : e.isTerminal with
    | true =>
      obtain ⟨hp, he⟩ := LeafCursor.enter_placed dir h.readable ht hV h.place.dvd
      refine ⟨_, descendBy_terminal ht, arrives_placed h ht hp List.suffix_rfl, he, ?_⟩
      rw [hp.left, Ne, dir.order_eq_nil, shift, List.map_eq_nil_iff]
      exact entries_ne_nil h.readable ht
    | false =>
      obtain ⟨aux, node, rfl⟩ := not_terminal ht h.ne_null
      have hr := readable_branch.mp h.readable
      have h2 := hr.two_le
      have hle := hr.le
      have hroom := h.room
      obtain ⟨d, c, pos, f, hfr, hslot, hentry, hsplit⟩ :=
        h.enter (Branch.startPos_le dir node) (Branch.slotsLeft_start hr.ok)
      obtain ⟨it', hd, harr, hne, hnil⟩ := ih hentry (by omega)
      refine ⟨it', ?_, ⟨harr.standing, ?_⟩, hne, hnil⟩
      · simp only [descendBy, hslot, push_ok leaf (show stack.length < 8 by omega), ← hfr]
        rw [show pre + slice aux (node.level L) L * 256 ^ node.level L = f.pre by rw [hfr]]
        exact hd
      · rw [harr.left_eq, stackLeft_cons, hsplit, List.append_assoc]

theorem enter_spec (hV : fl = .set → ∀ v : V, v = default) (leaf : LeafCursor V)
    {stack : List (Frame V)} (h : Entry dir fl full all L pre e stack) :
    ∃ it', descendBy dir fl DESCENT_FUEL e L pre ⟨leaf, stack⟩ = .ok it' ∧
      Arrives dir fl full all it' (dir.order (shift pre (entries L e)) ++ stackLeft dir stack) ∧
      it'.leaf.isEmpty = false ∧ it'.leaf.left dir ≠ [] := by
  have hroom := h.room
  exact descendBy_spec hV leaf h (by unfold DESCENT_FUEL; omega)

end Iter

namespace Iter

variable {V : Type} [Inhabited V] {dir : Direction} {fl : Flavour} {full : Bool}
  {all : List (ℕ × V)} {L pre fuel start aux : ℕ} {e : Edge V} {it : Iter V}
  {node : Branch (Edge V)}

/-- A seek that finds nothing below its edge. -/
theorem arrives_empty {stack : List (Frame V)} (h : Entry dir fl full all L pre e stack) :
    Arrives dir fl full all ⟨.empty, stack⟩ (stackLeft dir stack) where
  standing :=
    ⟨trivial, fun _ => LeafCursor.topOk_empty, h.frames,
      h.nested.suffix List.nil_suffix, fun he => (by cases he)⟩
  left_eq := rfl

theorem Entry.whole {stack : List (Frame V)} (start pos : ℕ)
    (h : Entry dir fl full all L pre (.branch aux node) stack) :
    dir.order ((shift pre (entries L (.branch aux node))).filter fun x => dir.far start x.1) =
      (Frame.whole dir ⟨node, pos, node.level L,
        pre + slice aux (node.level L) L * 256 ^ node.level L⟩).filter
          fun x => dir.far start x.1 := by
  rw [Frame.whole_of_branch pos (readable_branch.mp h.readable), dir.order_filter]

/-- A key inside the expanse of a branch: the seek goes on in the first slot on its far side. -/
theorem Entry.seek {stack : List (Frame V)} {pos : ℕ} (start : ℕ)
    (h : Entry dir fl full all L pre (.branch aux node) stack)
    (hpos : pos ≤ node.startPos .backward)
    (hl : node.slotsLeft dir pos =
      dir.order (node.slots.filter fun s => dir.far (digit start (node.level L)) s.1))
    (he : start / 256 ^ node.level L =
      (pre + slice aux (node.level L) L * 256 ^ node.level L) / 256 ^ node.level L) :
    (node.slotAt dir pos = none ∧ dir.order
      ((shift pre (entries L (.branch aux node))).filter fun x => dir.far start x.1) = []) ∨
    ∃ d c pos' f, f = (⟨node, pos', node.level L,
        pre + slice aux (node.level L) L * 256 ^ node.level L⟩ : Frame V) ∧
      node.slotAt dir pos = some (d, c, pos') ∧
      Entry dir fl full all (node.level L - 1) (f.pre + d * 256 ^ (node.level L - 1)) c
        (f :: stack) ∧
      dir.order ((shift pre (entries L (.branch aux node))).filter fun x => dir.far start x.1) =
        dir.order ((shift (f.pre + d * 256 ^ (node.level L - 1))
          (entries (node.level L - 1) c)).filter fun x => dir.far start x.1) ++ f.left dir ∧
      (d ≠ digit start (node.level L) →
        (dir.order (shift (f.pre + d * 256 ^ (node.level L - 1))
          (entries (node.level L - 1) c))).filter (fun x => dir.far start x.1) =
            dir.order (shift (f.pre + d * 256 ^ (node.level L - 1))
              (entries (node.level L - 1) c))) := by
  have hr := readable_branch.mp h.readable
  have hok := Frame.ok_of_branch pos hr h.place h.top h.room hpos
  obtain ⟨hfilter, hrest⟩ := hok.filter_inside dir he rfl
  rw [h.whole start pos, hfilter]
  cases hs : dir.order (node.slots.filter fun s => dir.far (digit start (node.level L)) s.1) with
  | nil =>
    refine .inl ⟨Branch.slotAt_nil hr.ok hpos (hl.trans hs), ?_⟩
    rfl
  | cons s slots =>
    obtain ⟨d, c⟩ := s
    obtain ⟨hrest, hchild⟩ := hrest d c slots hs
    obtain ⟨pos', f, rfl, hslot, hleft, hc, hentry⟩ := h.branch hpos (hl.trans hs)
    refine .inr ⟨d, c, pos', _, rfl, hslot, hentry, ?_, hchild⟩
    rw [hleft, dir.order_filter]
    change List.filter _ (Frame.childEntries dir _ d c ++ Frame.entriesOf dir _ slots) = _
    rw [List.filter_append]
    exact congrArg (_ ++ ·) hrest

omit [Inhabited V] in
theorem descendSeek_terminal (ht : e.isTerminal = true) :
    descendSeek fl (fuel + 1) e L pre start it = .ok ⟨.seek fl e L pre start, it.stack⟩ := by
  cases e with
  | null => cases ht
  | branch aux node => cases ht
  | _ => rfl

theorem descendSeek_spec (hV : fl = .set → ∀ v : V, v = default) (leaf : LeafCursor V)
    {stack : List (Frame V)} (h : Entry .forward fl full all L pre e stack) (hf : L ≤ fuel) :
    ∃ it', descendSeek fl fuel e L pre start ⟨leaf, stack⟩ = .ok it' ∧
      Arrives .forward fl full all it'
        ((shift pre (entries L e)).filter (start ≤ ·.1) ++ stackLeft .forward stack) := by
  induction fuel generalizing L e pre stack with
  | zero =>
    have := h.one_le
    omega
  | succ fuel ih =>
    cases ht : e.isTerminal with
    | true =>
      have hp := LeafCursor.seek_placed start h.readable ht hV h.place.dvd
      obtain ⟨near, hs, _⟩ := Direction.forward.order_split
        (keySorted_shift (n := pre) h.readable.sorted) start
      exact ⟨_, descendSeek_terminal ht, arrives_placed h ht hp ⟨near, hs.symm⟩⟩
    | false =>
      obtain ⟨aux, node, rfl⟩ := not_terminal ht h.ne_null
      have hr := readable_branch.mp h.readable
      have h2 := hr.two_le
      have hle := hr.le
      have hroom := h.room
      have hpush : stack.length < 8 := by omega
      have hok := fun pos hpos => Frame.ok_of_branch pos hr h.place h.top h.room hpos
      have hwhole := h.whole start 0
      rw [descendSeek]
      dsimp only
      by_cases h1 : (pre + slice aux (node.level L) L * 256 ^ node.level L) / 256 ^ node.level L <
          start / 256 ^ node.level L
      · rw [if_pos h1]
        refine ⟨_, rfl, ?_⟩
        rw [(hok 0 (Nat.zero_le _)).filter_near .forward h1] at hwhole
        rw [show (shift pre (entries L (.branch aux node))).filter (start ≤ ·.1) = [] from hwhole]
        exact arrives_empty h
      rw [if_neg h1]
      by_cases h3 : start / 256 ^ node.level L <
          (pre + slice aux (node.level L) L * 256 ^ node.level L) / 256 ^ node.level L
      · simp only [h3, decide_true, if_true]
        have hfar := (hok 0 (Nat.zero_le _)).filter_far .forward h3
        rw [hfar, Frame.whole_of_branch 0 hr] at hwhole
        have hl : node.slotsLeft .forward (node.seekPos 0) = node.slots := by
          rw [Branch.slotsLeft_seek hr.ok, List.filter_eq_self]
          intro s _
          exact decide_eq_true (Nat.zero_le _)
        obtain ⟨d, c, pos, f, hfr, hslot, hentry, hsplit⟩ :=
          h.enter (Branch.seekPos_le (by omega)) hl
        rw [show node.slotFrom (node.seekPos 0) = _ from hslot]
        simp only [push_ok leaf hpush, ← hfr]
        rw [show pre + slice aux (node.level L) L * 256 ^ node.level L = f.pre by rw [hfr]]
        have hself := List.filter_eq_self.mp
          (show (shift pre (entries L (.branch aux node))).filter (start ≤ ·.1) = _ from hwhole)
        rw [show (shift pre (entries L (.branch aux node))).filter (start ≤ ·.1) = _ from hwhole,
          hsplit, List.append_assoc, ← stackLeft_cons]
        cases node.isLinear with
        | true =>
          -- the seek goes on, but every key of the child lies above it
          have hall : (shift (f.pre + d * 256 ^ (node.level L - 1))
              (entries (node.level L - 1) c)).filter (start ≤ ·.1) =
                shift (f.pre + d * 256 ^ (node.level L - 1)) (entries (node.level L - 1) c) := by
            rw [List.filter_eq_self]
            intro x hx
            apply hself
            rw [show shift pre (entries L (.branch aux node)) = _ from hsplit]
            exact List.mem_append_left _ hx
          rw [Direction.order, ← hall]
          exact ih hentry (by omega)
        | false =>
          obtain ⟨it', hit, harr, _⟩ := enter_spec hV leaf hentry
          exact ⟨it', hit, harr⟩
      · simp only [h3, decide_false, Bool.false_eq_true, if_false]
        have he : start / 256 ^ node.level L =
          (pre + slice aux (node.level L) L * 256 ^ node.level L) / 256 ^ node.level L := by omega
        have hseek := h.seek start
          (Branch.seekPos_le (digit_lt start (node.level L)))
          (Branch.slotsLeft_seek hr.ok (digit start (node.level L))) he
        rcases hseek with ⟨hslot, hnil⟩ | ⟨d, c, pos, f, rfl, hslot, hentry, hsplit, hfar⟩
        · rw [show node.slotFrom (node.seekPos (digit start (node.level L))) = none from hslot]
          refine ⟨_, rfl, ?_⟩
          rw [show (shift pre (entries L (.branch aux node))).filter (start ≤ ·.1) = [] from hnil]
          exact arrives_empty h
        · rw [show node.slotFrom (node.seekPos (digit start (node.level L))) = _ from hslot]
          simp only [push_ok leaf hpush]
          rw [show (shift pre (entries L (.branch aux node))).filter (start ≤ ·.1) = _ from hsplit,
            List.append_assoc, ← stackLeft_cons]
          by_cases hd : d = digit start (node.level L)
          · rw [if_pos (by simpa using hd)]
            exact ih hentry (by omega)
          · rw [if_neg (by simpa using hd)]
            rw [Direction.order_filter, hfar hd]
            obtain ⟨it', hit, harr, _⟩ := enter_spec hV leaf hentry
            exact ⟨it', hit, harr⟩

omit [Inhabited V] in
theorem descendSeekBack_terminal (ht : e.isTerminal = true) :
    descendSeekBack fl (fuel + 1) e L pre start it =
      .ok ⟨.seekBack fl e L pre start, it.stack⟩ := by
  cases e with
  | null => cases ht
  | branch aux node => cases ht
  | _ => rfl

/-- A backward seek arrives with the entries of its edge up to the key, in descending order. -/
theorem descendSeekBack_spec (hV : fl = .set → ∀ v : V, v = default) (leaf : LeafCursor V)
    {stack : List (Frame V)} (h : Entry .backward fl full all L pre e stack) (hf : L ≤ fuel) :
    ∃ it', descendSeekBack fl fuel e L pre start ⟨leaf, stack⟩ = .ok it' ∧
      Arrives .backward fl full all it'
        (((shift pre (entries L e)).filter (·.1 ≤ start)).reverse ++
          stackLeft .backward stack) := by
  induction fuel generalizing L e pre stack with
  | zero =>
    have := h.one_le
    omega
  | succ fuel ih =>
    cases ht : e.isTerminal with
    | true =>
      have hp := LeafCursor.seekBack_placed start h.readable ht hV h.place.dvd
      obtain ⟨near, hs, _⟩ := Direction.backward.order_split
        (keySorted_shift (n := pre) h.readable.sorted) start
      exact ⟨_, descendSeekBack_terminal ht, arrives_placed h ht hp ⟨near, hs.symm⟩⟩
    | false =>
      obtain ⟨aux, node, rfl⟩ := not_terminal ht h.ne_null
      have hr := readable_branch.mp h.readable
      have h2 := hr.two_le
      have hle := hr.le
      have hroom := h.room
      have hpush : stack.length < 8 := by omega
      have hok := Frame.ok_of_branch 0 hr h.place h.top h.room (Nat.zero_le _)
      have hwhole := h.whole start 0
      rw [descendSeekBack]
      dsimp only
      by_cases h1 : start / 256 ^ node.level L <
          (pre + slice aux (node.level L) L * 256 ^ node.level L) / 256 ^ node.level L
      · rw [if_pos h1]
        refine ⟨_, rfl, ?_⟩
        rw [hok.filter_near .backward h1] at hwhole
        rw [show ((shift pre (entries L (.branch aux node))).filter (·.1 ≤ start)).reverse = []
          from hwhole]
        exact arrives_empty h
      rw [if_neg h1]
      by_cases h3 : (pre + slice aux (node.level L) L * 256 ^ node.level L) / 256 ^ node.level L <
          start / 256 ^ node.level L
      · rw [if_pos h3]
        rw [hok.filter_far .backward h3, Frame.whole_of_branch 0 hr] at hwhole
        obtain ⟨it', hit, harr, _⟩ := enter_spec hV leaf h
        refine ⟨it', hit, ?_⟩
        rw [show ((shift pre (entries L (.branch aux node))).filter (·.1 ≤ start)).reverse = _
          from hwhole]
        exact harr
      · rw [if_neg h3]
        have he : start / 256 ^ node.level L =
          (pre + slice aux (node.level L) L * 256 ^ node.level L) / 256 ^ node.level L := by omega
        have hseek := h.seek start
          (Branch.seekBackPos_le (digit_lt start (node.level L)))
          (Branch.slotsLeft_seekBack hr.ok (digit start (node.level L))) he
        rcases hseek with ⟨hslot, hnil⟩ | ⟨d, c, pos, f, rfl, hslot, hentry, hsplit, hfar⟩
        · rw [show node.slotBefore (node.seekBackPos (digit start (node.level L))) = none from hslot]
          refine ⟨_, rfl, ?_⟩
          rw [show ((shift pre (entries L (.branch aux node))).filter (·.1 ≤ start)).reverse = []
            from hnil]
          exact arrives_empty h
        · rw [show node.slotBefore (node.seekBackPos (digit start (node.level L))) = _ from hslot]
          simp only [push_ok leaf hpush]
          rw [show ((shift pre (entries L (.branch aux node))).filter (·.1 ≤ start)).reverse = _
            from hsplit, List.append_assoc, ← stackLeft_cons]
          by_cases hd : d = digit start (node.level L)
          · rw [if_pos hd]
            exact ih hentry (by omega)
          · rw [if_neg hd, Direction.order_filter, hfar hd]
            obtain ⟨it', hit, harr, _⟩ := enter_spec hV leaf hentry
            exact ⟨it', hit, harr⟩

section FromTree

variable (hV : fl = .set → ∀ v : V, v = default) (leaf : LeafCursor V) {stack : List (Frame V)}

include hV

theorem seek_spec (start : ℕ) (h : Entry .forward fl full all L pre e stack) :
    ∃ it', descendSeek fl DESCENT_FUEL e L pre start ⟨leaf, stack⟩ = .ok it' ∧
      Arrives .forward fl full all it'
        ((shift pre (entries L e)).filter (start ≤ ·.1) ++ stackLeft .forward stack) := by
  have hroom := h.room
  exact descendSeek_spec hV leaf h (by unfold DESCENT_FUEL; omega)

theorem seekBack_spec (start : ℕ) (h : Entry .backward fl full all L pre e stack) :
    ∃ it', descendSeekBack fl DESCENT_FUEL e L pre start ⟨leaf, stack⟩ = .ok it' ∧
      Arrives .backward fl full all it'
        (((shift pre (entries L e)).filter (·.1 ≤ start)).reverse ++
          stackLeft .backward stack) := by
  have hroom := h.room
  exact descendSeekBack_spec hV leaf h (by unfold DESCENT_FUEL; omega)

end FromTree

end Iter

end Expanse
