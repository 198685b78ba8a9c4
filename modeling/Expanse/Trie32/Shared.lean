import Expanse.Trie32.SetRuns

/-!
# The shared walk

A tree behind the concurrent wrapper takes the shared walk: it rewrites packed keys in whole words,
edits bitmaps by halves and parks what it replaces. Run alone it gives the answers of the plain walk
and leaves the same tree.
-/

namespace Expanse.Trie32

open SortedAssoc Trie32.Tree Runs

/-- The edits of a container that is shared. A set has no values. -/
inductive Edit where
  | insert (key value : UInt32)
  | remove (key : UInt32)

/-- Room for `n` edits: each allocates and parks 100 times at most. -/
theorem Room.split {a a' : Arena} {n : ℕ} (hr : Room a (100 * (n + 1)) (100 * (n + 1))) {x y : ℕ}
    (hs : Spent a a' x y) (hx : x ≤ 100) (hy : y ≤ 100) : Room a' (100 * n) (100 * n) :=
  (hs.mono hx hy).room (hr.mono (by omega) (by omega))

theorem room_withCapacity {nodeCap pendingCap n : ℕ} (hn : n ≤ nodeCap) (hp : n ≤ pendingCap) :
    Room (Arena.withCapacity nodeCap pendingCap) n n where
  free _ := by
    rw [Arena.withCapacity, List.length_range]
    exact hn
  pending _ := by
    rw [Arena.withCapacity]
    simpa using hp

/-- A shared container with room for `n` edits, and a plain one with the same tree. -/
structure Twins {S : Type} (Sound : S → Tree → Cells → Prop) (alloc : S → Arena) (n : ℕ) (s s' : S) : Prop where
  stored : ∃ t C C', Sound s t C ∧ Sound s' t C'
  shared : (alloc s).deferred = true
  plain : Plain (alloc s')
  room : Room (alloc s) (100 * n) (100 * n)

/-- An edit that does to the tree what it does in either mode, and takes no more than its share of the
room. -/
theorem Twins.step {S Out : Type} {Sound : S → Tree → Cells → Prop} {alloc : S → Arena} {n x y : ℕ} {s s' : S}
    {edit : Bool → S → Except Fault (Out × S)} {out : Tree → Out} {next : Tree → Tree}
    (h : Twins Sound alloc (n + 1) s s') (hx : x ≤ 100) (hy : y ≤ 100)
    (hedit : ∀ {shared s t C}, Sound s t C → Room (alloc s) x y → (alloc s).deferred = shared →
      ∃ s' C', edit shared s = .ok (out t, s') ∧ Sound s' (next t) C' ∧ Spent (alloc s) (alloc s') x y) :
    ∃ o s₁ s₁', edit true s = .ok (o, s₁) ∧ edit false s' = .ok (o, s₁') ∧ Twins Sound alloc n s₁ s₁' := by
  obtain ⟨⟨t, C, C', hs, hs'⟩, hshared, hp, hroom⟩ := h
  obtain ⟨s₁, C₁, hr, h₁, hspent⟩ := hedit hs (hroom.mono (by omega) (by omega)) hshared
  obtain ⟨s₁', C₁', hr', h₁', hspent'⟩ := hedit hs' (hp.room _ _) hp.deferred
  exact ⟨_, s₁, s₁', hr, hr', ⟨_, C₁, C₁', h₁, h₁'⟩, hspent.deferred.trans hshared, hspent'.plain hp,
    hroom.split hspent hx hy⟩

namespace ExpanseMap32

def edit (shared : Bool) (m : ExpanseMap32) : Edit → Except Fault (Option ℕ × ExpanseMap32)
  | .insert k v => m.insertMode shared k.toNat v.toNat
  | .remove k => m.removeMode shared k.toNat

theorem twins_alike {m m' : ExpanseMap32} {n : ℕ} (h : Twins Sound alloc n m m') : Alike m m' := by
  obtain ⟨t, C, C', hs, hs'⟩ := h.stored
  exact hs.counted.alike hs'.counted

theorem twins_edit (n : ℕ) (m m' : ExpanseMap32) (e : Edit) (h : Twins Sound alloc (n + 1) m m') :
    ∃ out m₁ m₁', m.edit true e = .ok (out, m₁) ∧ m'.edit false e = .ok (out, m₁') ∧
      Twins Sound alloc n m₁ m₁' := by
  cases e with
  | insert k v =>
    exact h.step le_rfl le_rfl fun hs hroom hd => insertMode_spec hs k.toNat_lt v.toNat_lt hroom hd
  | remove k =>
    exact h.step (by omega) (by omega) fun hs hroom hd => removeMode_spec hs k.toNat_lt hroom hd

/-- The shared walk and the plain walk answer alike and leave the same tree. -/
theorem map_shared_agrees {edits : List Edit} {nodeCap pendingCap : ℕ} (hn : 100 * edits.length ≤ nodeCap)
    (hp : 100 * edits.length ≤ pendingCap) :
    ∃ outs m m', run (edit true) (withFixedArena nodeCap pendingCap) edits = .ok (outs, m) ∧
      run (edit false) new edits = .ok (outs, m') ∧ Alike m m' := by
  have h : Twins Sound alloc edits.length (withFixedArena nodeCap pendingCap) new :=
    ⟨⟨null, 0, 0, sound_withFixedArena _ _, sound_new⟩, rfl, plain_new, room_withCapacity hn hp⟩
  obtain ⟨outs, m, m', hr, hr', h'⟩ := run_lockstep twins_edit h
  exact ⟨outs, m, m', hr, hr', twins_alike h'⟩

theorem map_shared_agrees_overwrite : ∃ outs m m',
    run (edit true) (withFixedArena 300 300) [.insert 1 2, .insert 1 3, .remove 1] = .ok (outs, m) ∧
      run (edit false) new [.insert 1 2, .insert 1 3, .remove 1] = .ok (outs, m') ∧ Alike m m' :=
  map_shared_agrees (by decide) (by decide)

end ExpanseMap32

namespace ExpanseSet32

def edit (shared : Bool) (s : ExpanseSet32) : Edit → Except Fault (Bool × ExpanseSet32)
  | .insert k _ => s.insertMode shared k.toNat
  | .remove k => s.removeMode shared k.toNat

theorem twins_alike {s s' : ExpanseSet32} {n : ℕ} (h : Twins Sound alloc n s s') : Alike s s' := by
  obtain ⟨t, C, C', hs, hs'⟩ := h.stored
  exact hs.counted.alike hs'.counted

theorem twins_edit (n : ℕ) (s s' : ExpanseSet32) (e : Edit) (h : Twins Sound alloc (n + 1) s s') :
    ∃ out s₁ s₁', s.edit true e = .ok (out, s₁) ∧ s'.edit false e = .ok (out, s₁') ∧
      Twins Sound alloc n s₁ s₁' := by
  cases e with
  | insert k v =>
    exact h.step le_rfl le_rfl fun hs hroom hd => insertMode_spec hs k.toNat_lt hroom hd
  | remove k =>
    exact h.step (by omega) (by omega) fun hs hroom hd => removeMode_spec hs k.toNat_lt hroom hd

/-- The shared walk and the plain walk answer alike and leave the same tree. -/
theorem set_shared_agrees {edits : List Edit} {nodeCap pendingCap : ℕ} (hn : 100 * edits.length ≤ nodeCap)
    (hp : 100 * edits.length ≤ pendingCap) :
    ∃ outs s s', run (edit true) (withFixedArena nodeCap pendingCap) edits = .ok (outs, s) ∧
      run (edit false) new edits = .ok (outs, s') ∧ Alike s s' := by
  have h : Twins Sound alloc edits.length (withFixedArena nodeCap pendingCap) new :=
    ⟨⟨null, 0, 0, sound_withFixedArena _ _, sound_new⟩, rfl, plain_new, room_withCapacity hn hp⟩
  obtain ⟨outs, s, s', hr, hr', h'⟩ := run_lockstep twins_edit h
  exact ⟨outs, s, s', hr, hr', twins_alike h'⟩

theorem set_shared_agrees_twice : ∃ outs s s',
    run (edit true) (withFixedArena 300 300) [.insert 1 0, .insert 1 0, .remove 1] = .ok (outs, s) ∧
      run (edit false) new [.insert 1 0, .insert 1 0, .remove 1] = .ok (outs, s') ∧ Alike s s' :=
  set_shared_agrees (by decide) (by decide)

end ExpanseSet32

end Expanse.Trie32
