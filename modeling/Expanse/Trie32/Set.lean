import Expanse.Trie32.RefineRemove

/-!
# `ExpanseSet32`

The set owns an arena, a root edge and the number of its keys. It has no finger. Its entries are
the keys, each with the value 0.
-/

namespace Expanse.Trie32

open SortedAssoc Trie32.Tree

structure ExpanseSet32 where
  alloc : Arena
  root : Edge32
  len : ℕ

namespace ExpanseSet32

def new : ExpanseSet32 := ⟨Arena.new, .null, 0⟩

def withFixedArena (nodeCap pendingCap : ℕ) : ExpanseSet32 := ⟨Arena.withCapacity nodeCap pendingCap, .null, 0⟩

/-- `insert_mode`: a shared tree takes the shared walk. -/
def insertMode (shared : Bool) (s : ExpanseSet32) (key : ℕ) : Except Fault (Bool × ExpanseSet32) :=
  if s.alloc.deferred ≠ shared then .error .assertion
  else do
    let r ← Trie32.insertMode shared .set FUEL s.alloc s.root KEY_BYTES key 0 Finger.new
    pure (r.prev.isNone, ⟨r.arena, r.edge, if r.prev.isNone then s.len + 1 else s.len⟩)

def insert (s : ExpanseSet32) (key : ℕ) : Except Fault (Bool × ExpanseSet32) := insertMode false s key

def insertShared (s : ExpanseSet32) (key : ℕ) : Except Fault (Bool × ExpanseSet32) := insertMode true s key

def contains (s : ExpanseSet32) (key : ℕ) : Except Fault Bool :=
  (find .set s.alloc FUEL s.root KEY_BYTES key).map Option.isSome

/-- `remove_mode`. -/
def removeMode (shared : Bool) (s : ExpanseSet32) (key : ℕ) : Except Fault (Bool × ExpanseSet32) :=
  if s.alloc.deferred ≠ shared then .error .assertion
  else do
    let r ← Trie32.removeMode shared .set FUEL s.alloc s.root KEY_BYTES key
    if r.prev.isSome then
      if s.len = 0 then .error .underflow
      else pure (true, ⟨r.arena, r.edge, s.len - 1⟩)
    else pure (false, ⟨r.arena, r.edge, s.len⟩)

def remove (s : ExpanseSet32) (key : ℕ) : Except Fault (Bool × ExpanseSet32) := removeMode false s key

def removeShared (s : ExpanseSet32) (key : ℕ) : Except Fault (Bool × ExpanseSet32) := removeMode true s key

def isEmpty (s : ExpanseSet32) : Bool := s.len == 0

def clear (_ : ExpanseSet32) : ExpanseSet32 := ⟨Arena.new, .null, 0⟩

def shrinkToFit (s : ExpanseSet32) : ExpanseSet32 := { s with alloc := s.alloc.shrinkToFit }

def memUsed (s : ExpanseSet32) : ℕ := s.alloc.bytes

def liveAllocs (s : ExpanseSet32) : ℕ := s.alloc.liveAllocs

/-- The set stores the tree `t` in the cells `C`. -/
structure Sound (s : ExpanseSet32) (t : Tree) (C : Cells) : Prop where
  owned : Owned s.alloc C
  rep : Rep .set KEY_BYTES s.root t C
  ok : Ok .set KEY_BYTES t
  len : s.len = (entries KEY_BYTES t).length

variable {s : ExpanseSet32} {t : Tree} {C : Cells} {key : ℕ} {shared : Bool}

theorem sound_new : Sound new null 0 := ⟨owned_new, rep_null.mpr ⟨rfl, rfl⟩, ok_null, rfl⟩

theorem sound_withFixedArena (nodeCap pendingCap : ℕ) : Sound (withFixedArena nodeCap pendingCap) null 0 :=
  ⟨owned_withCapacity nodeCap pendingCap, rep_null.mpr ⟨rfl, rfl⟩, ok_null, rfl⟩

theorem key_lt (h : key < 2 ^ 32) : key < 256 ^ KEY_BYTES := lt_of_lt_of_eq h (by decide)

theorem zero_fits : 0 < 256 ^ valueWidth .set := Nat.one_pos

theorem Sound.alone (h : Sound s t C) : Owned s.alloc (C + 0) := by
  rw [add_zero]
  exact h.owned

theorem contains_spec (h : Sound s t C) (hk : key < 2 ^ 32) :
    s.contains key = .ok ((entries KEY_BYTES t).lookup key).isSome := by
  rw [contains, find_spec h.alone h.rep h.ok (by decide) (key_lt hk) (by decide), find_eq h.ok (key_lt hk)]
  rfl

theorem insertMode_spec (h : Sound s t C) (hk : key < 2 ^ 32) (hroom : Room s.alloc 100 100)
    (hshared : s.alloc.deferred = shared) :
    ∃ s' C', insertMode shared s key = .ok (((entries KEY_BYTES t).lookup key).isNone, s') ∧
      Sound s' (t.insert .set KEY_BYTES key 0).2 C' ∧ Spent s.alloc s'.alloc 100 100 := by
  obtain ⟨r, hr, hprev, ⟨C', hrep, ho', -⟩, hs, -⟩ := inserts shared .set (f := Finger.new) h.alone h.rep h.ok
    (key_lt hk) zero_fits (by decide) (fun _ => le_rfl) hroom
  obtain ⟨hp, hok, -, hent⟩ := Tree.insert_spec h.ok (by decide) (key_lt hk) zero_fits
  rw [add_zero] at ho'
  rw [hp] at hprev
  rw [insertMode, if_neg fun hne => hne hshared, hr, ok_bind, hprev]
  refine ⟨_, C', rfl, ⟨ho', hrep, hok, ?_⟩, hs⟩
  rw [hent, h.len]
  dsimp only
  cases hlk : (entries KEY_BYTES t).lookup key with
  | none => rw [length_put_none 0 h.ok.sorted hlk, Option.isNone_none, if_pos rfl]
  | some w =>
    rw [length_put_some 0 h.ok.sorted (by rw [hlk]; rfl), Option.isNone_some, if_neg Bool.false_ne_true]

theorem removeMode_spec (h : Sound s t C) (hk : key < 2 ^ 32) (hroom : Room s.alloc 4 8)
    (hshared : s.alloc.deferred = shared) :
    ∃ s' C', removeMode shared s key = .ok (((entries KEY_BYTES t).lookup key).isSome, s') ∧
      Sound s' (t.remove .set KEY_BYTES key).2 C' ∧ Spent s.alloc s'.alloc 4 8 := by
  obtain ⟨r, hr, hprev, ⟨C', hrep, ho'⟩, hs, -⟩ := removes shared .set h.alone h.rep h.ok (key_lt hk) hroom
  obtain ⟨hp, hok, hent⟩ := Tree.remove_spec h.ok (by decide) (key_lt hk)
  rw [add_zero] at ho'
  rw [hp] at hprev
  rw [removeMode, if_neg fun hne => hne hshared, hr, ok_bind, hprev]
  cases hlk : (entries KEY_BYTES t).lookup key with
  | none =>
    rw [Option.isSome_none, if_neg Bool.false_ne_true]
    refine ⟨_, C', rfl, ⟨ho', hrep, hok, ?_⟩, hs⟩
    rw [hent, del_none h.ok.sorted hlk]
    exact h.len
  | some w =>
    have hlen := length_del_some h.ok.sorted (by rw [hlk]; rfl)
    have hm := h.len
    rw [Option.isSome_some, if_pos rfl, if_neg (by omega)]
    refine ⟨_, C', rfl, ⟨ho', hrep, hok, ?_⟩, hs⟩
    rw [hent, hm, ← hlen, Nat.add_sub_cancel]

theorem shrinkToFit_spec (h : Sound s t C) : Sound s.shrinkToFit t C :=
  ⟨h.owned.shrinkToFit, h.rep, h.ok, h.len⟩

end ExpanseSet32

end Expanse.Trie32
