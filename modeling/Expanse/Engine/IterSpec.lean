import Expanse.Engine.IterFrame

/-!
# What a walker hands out

The entries a walker has left are those of its leaf cursor, then those of its
frames from the innermost outwards. A descent adds the entries below an edge to
what the stack has left; a seek adds those on the far side of its key; a step takes
the head. The stack is nested: what each frame's node holds is a part that has been
handed out or skipped, then what lies inside, then what the frame has left.
-/

namespace Expanse

open Radix SortedAssoc

namespace Edge

variable {V : Type}

/-- A slot at level `L` below the key prefix `pre`: aligned, and inside the key space. -/
structure At (L pre : ℕ) : Prop where
  dvd : 256 ^ L ∣ pre
  le : pre + 256 ^ L ≤ 256 ^ 8

namespace At

variable {L pre m aux d : ℕ}

theorem root : At 8 0 := ⟨Nat.dvd_zero _, by omega⟩

theorem skip (h : At L pre) (hm : m ≤ L) : At m (pre + slice aux m L * 256 ^ m) where
  dvd := Dvd.dvd.add ((pow_dvd_pow 256 hm).trans h.dvd) (Dvd.intro_left _ rfl)
  le := by
    have hs : (slice aux m L + 1) * 256 ^ m ≤ 256 ^ (L - m) * 256 ^ m :=
      Nat.mul_le_mul_right _ (slice_lt aux m L)
    have hp := pow_split hm
    have := h.le
    rw [Nat.mul_comm] at hp
    rw [Nat.add_mul] at hs
    omega

theorem digit (h : At L pre) (h1 : 1 ≤ L) (hd : d < 256) : At (L - 1) (pre + d * 256 ^ (L - 1)) where
  dvd := Dvd.dvd.add ((pow_dvd_pow 256 (Nat.sub_le _ _)).trans h.dvd) (Dvd.intro_left _ rfl)
  le := by
    have hs : (d + 1) * 256 ^ (L - 1) ≤ 256 * 256 ^ (L - 1) := Nat.mul_le_mul_right _ hd
    have hp := pow_pred h1
    have := h.le
    rw [Nat.mul_comm] at hp
    rw [Nat.add_mul] at hs
    omega

end At

/-- The skipped digits and the digit of a key below a slot of a branch. -/
theorem digits_below {L m pre s d r : ℕ} (hpre : 256 ^ L ∣ pre) (hm : m ≤ L) (h1 : 1 ≤ m)
    (hs : s < 256 ^ (L - m)) (hd : d < 256) (hr : r < 256 ^ (m - 1)) :
    slice (pre + s * 256 ^ m + d * 256 ^ (m - 1) + r) m L = s ∧
      Radix.digit (pre + s * 256 ^ m + d * 256 ^ (m - 1) + r) m = d := by
  have hx : pre + s * 256 ^ m + d * 256 ^ (m - 1) + r =
      pre + (s * 256 ^ m + d * 256 ^ (m - 1) + r) := by omega
  have hlt : d * 256 ^ (m - 1) + r < 256 ^ m :=
    mul_add_lt (Nat.sub_le m 1) (by rwa [show m - (m - 1) = 1 by omega, pow_one]) hr
  have hb : s * 256 ^ m + d * 256 ^ (m - 1) + r < 256 ^ L := by
    rw [Nat.add_assoc]
    exact mul_add_lt hm hs hlt
  have hlow : low (pre + (s * 256 ^ m + d * 256 ^ (m - 1) + r)) L =
      s * 256 ^ m + d * 256 ^ (m - 1) + r := by
    obtain ⟨x, rfl⟩ := hpre
    rw [low, Nat.mul_add_mod, Nat.mod_eq_of_lt hb]
  rw [hx]
  constructor
  · rw [← low_div hm, hlow, Nat.add_assoc, mul_add_div hlt]
  · rw [← digit_low h1 hm, hlow]
    exact digit_compose h1 hd hr

/-- Where the slot covers the last word, the edge that holds that word is a full expanse exactly
when `full` says so. -/
def TopFull (full : Bool) (L pre : ℕ) (e : Edge V) : Prop :=
  pre + 256 ^ L = 256 ^ 8 → (terminal L e (256 ^ 8 - 1)).2.isFull = full

def Populated (node : Branch (Edge V)) : Prop := node.slots ≠ []

variable {fl : Flavour} {P : Branch (Edge V) → Prop} {full : Bool} {L pre aux : ℕ}
  {node : Branch (Edge V)} {d : ℕ} {c : Edge V}

theorem TopFull.slot (h : TopFull full L pre (branch aux node)) (hr : BranchReadable fl P L node)
    (hp : At L pre) (hm : (d, c) ∈ node.slots) :
    TopFull full (node.level L - 1)
      (pre + slice aux (node.level L) L * 256 ^ node.level L + d * 256 ^ (node.level L - 1)) c := by
  have h2 := hr.two_le
  have hl := hr.le
  have hd := (hr.slot hm).1
  intro hend
  have hpos := pow_pos' (node.level L - 1)
  -- the last word lies below this slot
  obtain ⟨hs, hdig⟩ := digits_below (r := 256 ^ (node.level L - 1) - 1) hp.dvd hl (by omega)
    (slice_lt aux (node.level L) L) hd (by omega)
  rw [show pre + slice aux (node.level L) L * 256 ^ node.level L + d * 256 ^ (node.level L - 1) +
    (256 ^ (node.level L - 1) - 1) = 256 ^ 8 - 1 by omega] at hs hdig
  have htop : pre + 256 ^ L = 256 ^ 8 := by
    have h1 : pre + slice aux (node.level L) L * 256 ^ node.level L + 256 ^ node.level L ≤ 256 ^ 8 :=
      (hp.skip hl).le
    have h3 := hp.le
    have hmul : (d + 1) * 256 ^ (node.level L - 1) ≤ 256 * 256 ^ (node.level L - 1) :=
      Nat.mul_le_mul_right _ hd
    have hpp := pow_pred (show 1 ≤ node.level L by omega)
    have hs' : (slice aux (node.level L) L + 1) * 256 ^ node.level L ≤
        256 ^ (L - node.level L) * 256 ^ node.level L :=
      Nat.mul_le_mul_right _ (slice_lt aux _ _)
    have hps := pow_split hl
    rw [Nat.add_mul] at hmul hs'
    rw [Nat.mul_comm] at hpp hps
    omega
  have ht := h htop
  rwa [terminal, dif_pos ⟨by omega, hl⟩, if_pos hs, hdig,
    ((Branch.mem_slots_iff hr.ok hr.filled).mp hm).1] at ht

theorem terminal_of_isTerminal {e : Edge V} (h : e.isTerminal = true) (key : ℕ) :
    terminal L e key = (L, e) := by
  cases e with
  | branch aux node => cases h
  | null => cases h
  | _ =>
    rw [terminal]
    intro _ _ he
    cases he

end Edge

open Edge

namespace LeafCursor

variable {V : Type} [Inhabited V] {full : Bool} {L pre : ℕ} {e : Edge V} {c : LeafCursor V}
  {l : List (ℕ × V)}

/-- A cursor that has the last word left stands in a full expanse exactly when `full` says so. -/
structure TopOk (full : Bool) (c : LeafCursor V) : Prop where
  bound : ∀ m, c.fullMax = some m → m < 256 ^ 8
  full_of : c.fullMax = some (256 ^ 8 - 1) → full = true
  of_full : full = true → ∀ v, (256 ^ 8 - 1, v) ∈ c.left .forward → c.fullMax = some (256 ^ 8 - 1)

theorem topOk_empty : (empty : LeafCursor V).TopOk full :=
  ⟨fun _ hm => (by cases hm), fun hm => (by cases hm), fun _ _ hv => (by cases hv)⟩

theorem Placed.topOk (h : Placed .forward L pre e c l) (hp : At L pre) (ht : e.isTerminal = true)
    (htop : TopFull full L pre e) (hl : ∀ x ∈ l, x.1 < pre + 256 ^ L) : c.TopOk full where
  bound := by
    intro m hm
    have h1 := (h.full_of rfl m hm).2
    have h2 := hp.le
    have h3 := pow_pos' L
    omega
  full_of := by
    intro hm
    obtain ⟨hf, he⟩ := h.full_of rfl _ hm
    have := htop (by have := pow_pos' L; omega)
    rw [terminal_of_isTerminal ht] at this
    rw [← this]
    exact hf
  of_full := by
    intro hf v hv
    rw [h.left] at hv
    have h1 := hl _ hv
    have h2 := hp.le
    have hend : pre + 256 ^ L = 256 ^ 8 := by omega
    have := htop hend
    rw [terminal_of_isTerminal ht, hf] at this
    rw [h.of_full rfl this (List.ne_nil_of_mem hv)]
    congr 1
    have := pow_pos' L
    omega

end LeafCursor

namespace Frame

variable {V : Type} [Inhabited V] {dir : Direction} {fl : Flavour} {full : Bool} {f : Frame V}

/-- The entries below some slots of a frame's node. -/
def entriesOf (dir : Direction) (f : Frame V) (slots : List (ℕ × Edge V)) : List (ℕ × V) :=
  slots.flatMap fun s =>
    dir.order (shift (f.pre + s.1 * 256 ^ (f.level - 1)) (entries (f.level - 1) s.2))

def left (dir : Direction) (f : Frame V) : List (ℕ × V) :=
  f.entriesOf dir (f.node.slotsLeft dir f.pos)

def whole (dir : Direction) (f : Frame V) : List (ℕ × V) :=
  f.entriesOf dir (dir.order f.node.slots)

structure Ok (fl : Flavour) (full : Bool) (depth : ℕ) (f : Frame V) : Prop where
  readable : BranchReadable fl Populated f.level f.node
  level : f.node.level f.level = f.level
  room : depth + f.level ≤ 8
  place : At f.level f.pre
  pos : f.pos ≤ f.node.startPos .backward
  top : ∀ s ∈ f.node.slots, TopFull full (f.level - 1) (f.pre + s.1 * 256 ^ (f.level - 1)) s.2

end Frame

namespace Iter

variable {V : Type} [Inhabited V]

def stackLeft (dir : Direction) (stack : List (Frame V)) : List (ℕ × V) :=
  stack.flatMap (Frame.left dir)

/-- What the stack has left comes after everything below the slot at level `L` and prefix `pre`. -/
def Beyond (dir : Direction) (L pre : ℕ) (stack : List (Frame V)) : Prop :=
  ∀ y ∈ stackLeft dir stack, dir.Before (pre / 256 ^ L) (y.1 / 256 ^ L)

def StackOk (dir : Direction) (fl : Flavour) (full : Bool) : List (Frame V) → Prop
  | [] => True
  | f :: rest =>
    f.Ok fl full rest.length ∧ Beyond dir f.level f.pre rest ∧ StackOk dir fl full rest

/-- Each frame's node holds a part that is done, then `inner`, then what the frame has left; the
whole node lies inside the next frame in turn, and the outermost one inside `all`. -/
def Nested (dir : Direction) (all : List (ℕ × V)) : List (ℕ × V) → List (Frame V) → Prop
  | inner, [] => inner <:+ dir.order all
  | inner, f :: rest => inner ++ f.left dir <:+ f.whole dir ∧ Nested dir all (f.whole dir) rest

/-- The entries left, in the order of the walk. -/
def left (dir : Direction) (it : Iter V) : List (ℕ × V) :=
  it.leaf.left dir ++ stackLeft dir it.stack

/-- A walker inside a tree with the entries `all`. -/
structure Standing (dir : Direction) (fl : Flavour) (full : Bool) (all : List (ℕ × V))
    (it : Iter V) : Prop where
  leaf : it.leaf.Ok dir
  top : dir = .forward → it.leaf.TopOk full
  stack : StackOk dir fl full it.stack
  nested : Nested dir all (it.leaf.left dir) it.stack
  root : it.leaf.isEmpty = false → it.leaf.inTree = false → it.stack = []

variable {dir : Direction} {fl : Flavour} {full : Bool} {all inner : List (ℕ × V)}
  {stack : List (Frame V)}

theorem append_suffix_append {α : Type} {a b : List α} (h : a <:+ b) (c : List α) :
    a ++ c <:+ b ++ c := by
  obtain ⟨t, rfl⟩ := h
  exact ⟨t, by rw [List.append_assoc]⟩

theorem Nested.suffix {inner' : List (ℕ × V)} (h : Nested dir all inner stack)
    (hs : inner' <:+ inner) : Nested dir all inner' stack := by
  cases stack with
  | nil => exact hs.trans h
  | cons f rest => exact ⟨(append_suffix_append hs _).trans h.1, h.2⟩

theorem Nested.left_suffix (h : Nested dir all inner stack) :
    inner ++ stackLeft dir stack <:+ dir.order all := by
  induction stack generalizing inner with
  | nil =>
    rw [stackLeft, List.flatMap_nil, List.append_nil]
    exact h
  | cons f rest ih =>
    rw [stackLeft, List.flatMap_cons, ← List.append_assoc]
    exact (append_suffix_append h.1 _).trans (ih h.2)

end Iter

namespace Frame

variable {V : Type} [Inhabited V] {dir : Direction} {fl : Flavour} {full : Bool} {f : Frame V}
  {all inner : List (ℕ × V)} {stack : List (Frame V)} {d : ℕ} {c : Edge V}
  {slots : List (ℕ × Edge V)}

theorem entriesOf_suffix {slots' : List (ℕ × Edge V)} (h : slots' <:+ slots) :
    f.entriesOf dir slots' <:+ f.entriesOf dir slots := by
  obtain ⟨t, rfl⟩ := h
  exact ⟨f.entriesOf dir t, (List.flatMap_append ..).symm⟩

def childEntries (dir : Direction) (f : Frame V) (d : ℕ) (c : Edge V) : List (ℕ × V) :=
  dir.order (shift (f.pre + d * 256 ^ (f.level - 1)) (entries (f.level - 1) c))

/-- A child of a frame's node, as the next descent meets it. -/
structure Child (fl : Flavour) (full : Bool) (f : Frame V) (d : ℕ) (c : Edge V) : Prop where
  readable : Readable fl Populated (f.level - 1) c
  ne_null : c ≠ null
  one_le : 1 ≤ f.level - 1
  place : At (f.level - 1) (f.pre + d * 256 ^ (f.level - 1))
  top : TopFull full (f.level - 1) (f.pre + d * 256 ^ (f.level - 1)) c
  mem : (d, c) ∈ f.node.slots
  lt : d < 256

omit [Inhabited V] in
theorem Ok.child {depth : ℕ} (h : f.Ok fl full depth) (hm : (d, c) ∈ f.node.slots) :
    f.Child fl full d c := by
  have h2 := h.readable.two_le
  obtain ⟨hd, hr⟩ := h.readable.slot hm
  rw [h.level] at h2 hr
  exact ⟨hr, ((Branch.mem_slots_iff h.readable.ok h.readable.filled).mp hm).2, by omega,
    h.place.digit (by omega) hd, h.top _ hm, hm, hd⟩

theorem Ok.left_suffix {depth : ℕ} (h : f.Ok fl full depth) : f.left dir <:+ f.whole dir :=
  entriesOf_suffix (Branch.slotsLeft_suffix h.readable.ok dir f.pos)

theorem Ok.step {depth : ℕ} (h : f.Ok fl full depth)
    (hl : f.node.slotsLeft dir f.pos = (d, c) :: slots) :
    ∃ pos, f.node.slotAt dir f.pos = some (d, c, pos) ∧
      ({ f with pos := pos } : Frame V).Ok fl full depth ∧
      ({ f with pos := pos } : Frame V).left dir = f.entriesOf dir slots ∧
      f.left dir = f.childEntries dir d c ++ f.entriesOf dir slots ∧ f.Child fl full d c := by
  obtain ⟨pos, hslot, hrest, hpos⟩ := Branch.slotAt_cons h.readable.ok h.pos hl
  have hm : (d, c) ∈ f.node.slots := by
    have := (Branch.slotsLeft_suffix h.readable.ok dir f.pos).subset (hl ▸ List.mem_cons_self)
    exact (dir.mem_order).mp this
  refine ⟨pos, hslot, ⟨h.readable, h.level, h.room, h.place, hpos, h.top⟩, ?_, ?_, h.child hm⟩
  · rw [left, hrest]
    rfl
  · rw [left, hl]
    rfl

omit [Inhabited V] in
theorem ok_of_branch {L pre aux depth : ℕ} {node : Branch (Edge V)} (pos : ℕ)
    (h : BranchReadable fl Populated L node) (hp : At L pre)
    (htop : TopFull full L pre (branch aux node)) (hroom : depth + L ≤ 8)
    (hpos : pos ≤ node.startPos .backward) :
    (⟨node, pos, node.level L, pre + slice aux (node.level L) L * 256 ^ node.level L⟩ :
      Frame V).Ok fl full depth := by
  have hl := h.le
  have hlev : node.level (node.level L) = node.level L := by
    cases node <;> rfl
  refine ⟨⟨h.ok, h.filled, h.holds, ?_, ?_, ?_⟩, hlev, ?_, hp.skip hl, hpos, ?_⟩
  · rw [hlev]
    exact h.two_le
  · rw [hlev]
  · rw [hlev]
    exact h.kids
  · change depth + node.level L ≤ 8
    omega
  · intro s hs
    exact htop.slot h hp hs

theorem whole_of_branch {L pre aux : ℕ} {node : Branch (Edge V)} (pos : ℕ)
    (h : BranchReadable fl Populated L node) :
    (⟨node, pos, node.level L, pre + slice aux (node.level L) L * 256 ^ node.level L⟩ :
      Frame V).whole dir = dir.order (shift pre (entries L (branch aux node))) := by
  have h2 := h.two_le
  rw [entries_branch (by omega) h.le, shift_flatMap, dir.order_flatMap, whole, entriesOf]
  simp only [shift_shift, Nat.add_assoc]

end Frame

end Expanse
