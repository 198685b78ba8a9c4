import Expanse.Trie32.Via
import Expanse.Trie32.RefineRemove

/-!
# `ExpanseMap32`

The map owns an arena, a root edge, the number of its entries and the finger. A map behind the
concurrent wrapper takes the shared walk, and only such a map does. The invariant ties all four
to one tree; each operation is the operation on trees.
-/

namespace Expanse.Trie32

open SortedAssoc Trie32.Tree

structure ExpanseMap32 where
  alloc : Arena
  root : Edge32
  len : ℕ
  finger : Finger

namespace ExpanseMap32

def new : ExpanseMap32 := ⟨Arena.new, .null, 0, Finger.new⟩

def withFixedArena (nodeCap pendingCap : ℕ) : ExpanseMap32 :=
  ⟨Arena.withCapacity nodeCap pendingCap, .null, 0, Finger.new⟩

/-- The part of `insert_mode` behind a miss of the finger. -/
def descend (shared : Bool) (m : ExpanseMap32) (key val : ℕ) : Except Fault (Option ℕ × ExpanseMap32) := do
  let r ← Trie32.insertMode shared .map FUEL m.alloc m.root KEY_BYTES key val m.finger
  pure (r.prev, ⟨r.arena, r.edge, if r.prev.isNone then m.len + 1 else m.len, r.finger.setPre (key / 256)⟩)

/-- `insert_mode`: a shared tree takes the shared walk. -/
def insertMode (shared : Bool) (m : ExpanseMap32) (key val : ℕ) : Except Fault (Option ℕ × ExpanseMap32) :=
  if m.alloc.deferred ≠ shared then .error .assertion
  else do
    match ← insertViaFinger shared m.alloc key val m.finger with
    | some (old, a) => pure (old, ⟨a, m.root, if old.isNone then m.len + 1 else m.len, m.finger⟩)
    | none => descend shared m key val

def insert (m : ExpanseMap32) (key val : ℕ) : Except Fault (Option ℕ × ExpanseMap32) :=
  insertMode false m key val

def insertShared (m : ExpanseMap32) (key val : ℕ) : Except Fault (Option ℕ × ExpanseMap32) :=
  insertMode true m key val

def get (m : ExpanseMap32) (key : ℕ) : Except Fault (Option ℕ) := find .map m.alloc FUEL m.root KEY_BYTES key

def containsKey (m : ExpanseMap32) (key : ℕ) : Except Fault Bool := (m.get key).map Option.isSome

/-- `remove_mode`. -/
def removeMode (shared : Bool) (m : ExpanseMap32) (key : ℕ) : Except Fault (Option ℕ × ExpanseMap32) :=
  if m.alloc.deferred ≠ shared then .error .assertion
  else do
    let r ← Trie32.removeMode shared .map FUEL m.alloc m.root KEY_BYTES key
    if r.prev.isSome then
      if m.len = 0 then .error .underflow
      else pure (r.prev, ⟨r.arena, r.edge, m.len - 1, m.finger.clear⟩)
    else pure (r.prev, ⟨r.arena, r.edge, m.len, m.finger.clear⟩)

def remove (m : ExpanseMap32) (key : ℕ) : Except Fault (Option ℕ × ExpanseMap32) := removeMode false m key

def removeShared (m : ExpanseMap32) (key : ℕ) : Except Fault (Option ℕ × ExpanseMap32) := removeMode true m key

def isEmpty (m : ExpanseMap32) : Bool := m.len == 0

def clear (m : ExpanseMap32) : ExpanseMap32 := ⟨Arena.new, .null, 0, m.finger.clear⟩

def shrinkToFit (m : ExpanseMap32) : ExpanseMap32 :=
  { m with alloc := m.alloc.shrinkToFit, finger := m.finger.clear }

def memUsed (m : ExpanseMap32) : ℕ := m.alloc.bytes

def liveAllocs (m : ExpanseMap32) : ℕ := m.alloc.liveAllocs

/-- The map stores the tree `t` in the cells `C`. -/
structure Sound (m : ExpanseMap32) (t : Tree) (C : Cells) : Prop where
  owned : Owned m.alloc C
  rep : Rep .map KEY_BYTES m.root t C
  ok : Ok .map KEY_BYTES t
  len : m.len = (entries KEY_BYTES t).length
  path : m.alloc.deferred = false → m.finger.valid = true →
    Leads .map C KEY_BYTES m.root (m.finger.pre * 256) m.finger.leaf m.finger.ancestors

variable {m m' : ExpanseMap32} {t : Tree} {C : Cells} {key val : ℕ} {shared : Bool}

theorem sound_new : Sound new null 0 where
  owned := owned_new
  rep := rep_null.mpr ⟨rfl, rfl⟩
  ok := ok_null
  len := rfl
  path _ h := absurd h Bool.false_ne_true

theorem sound_withFixedArena (nodeCap pendingCap : ℕ) : Sound (withFixedArena nodeCap pendingCap) null 0 where
  owned := owned_withCapacity nodeCap pendingCap
  rep := rep_null.mpr ⟨rfl, rfl⟩
  ok := ok_null
  len := rfl
  path _ h := absurd h Bool.false_ne_true

theorem key_lt (h : key < 2 ^ 32) : key < 256 ^ KEY_BYTES := lt_of_lt_of_eq h (by decide)

theorem val_lt (h : val < 2 ^ 32) : val < 256 ^ valueWidth .map := lt_of_lt_of_eq h (by decide)

theorem Sound.alone (h : Sound m t C) : Owned m.alloc (C + 0) := by
  rw [add_zero]
  exact h.owned

theorem get_spec (h : Sound m t C) (hk : key < 2 ^ 32) : m.get key = .ok ((entries KEY_BYTES t).lookup key) := by
  rw [get, find_spec h.alone h.rep h.ok (by decide) (key_lt hk) (by decide), find_eq h.ok (key_lt hk)]

theorem length_insert (h : Sound m t C) {prev : Option ℕ} (hprev : prev = (entries KEY_BYTES t).lookup key) :
    (if prev.isNone then m.len + 1 else m.len) = (put key val (entries KEY_BYTES t)).length := by
  rw [h.len, hprev]
  cases hlk : (entries KEY_BYTES t).lookup key with
  | none => rw [length_put_none val h.ok.sorted hlk, Option.isNone_none, if_pos rfl]
  | some w =>
    rw [length_put_some val h.ok.sorted (by rw [hlk]; rfl), Option.isNone_some, if_neg Bool.false_ne_true]

theorem descend_spec (h : Sound m t C) (hk : key < 2 ^ 32) (hv : val < 2 ^ 32) (hroom : Room m.alloc 100 100)
    (hshared : m.alloc.deferred = shared) :
    ∃ m' C', descend shared m key val = .ok ((entries KEY_BYTES t).lookup key, m') ∧
      Sound m' (t.insert .map KEY_BYTES key val).2 C' ∧ Spent m.alloc m'.alloc 100 100 := by
  obtain ⟨r, hr, hprev, ⟨C', hrep, ho', hlead⟩, hs, -⟩ := inserts shared .map (f := m.finger) h.alone h.rep h.ok
    (key_lt hk) (val_lt hv) (by decide) (fun _ => le_rfl) hroom
  obtain ⟨hp, hok, -, hent⟩ := Tree.insert_spec h.ok (by decide) (key_lt hk) (val_lt hv)
  rw [add_zero] at ho'
  rw [hp] at hprev
  refine ⟨_, C', by rw [descend, hr, ok_bind, hprev]; rfl, ⟨ho', hrep, hok, ?_, fun hplain hvalid => ?_⟩, hs⟩
  · rw [hent]
    exact length_insert h rfl
  · rw [hs.deferred, hshared] at hplain
    exact (hlead hplain hvalid).congr (by simp [Finger.setPre])

theorem insertMode_of (hshared : m.alloc.deferred = shared) : insertMode shared m key val = (do
    match ← insertViaFinger shared m.alloc key val m.finger with
    | some (old, a) => pure (old, ⟨a, m.root, if old.isNone then m.len + 1 else m.len, m.finger⟩)
    | none => descend shared m key val) := if_neg fun hne => hne hshared

/-- A hit of the finger is the descent: the answer, the arena and the finger are those of the descent. -/
theorem insertMode_eq_descend (h : Sound m t C) (hshared : m.alloc.deferred = shared) :
    insertMode shared m key val = descend shared m key val := by
  rw [insertMode_of hshared]
  by_cases hmiss : shared = true ∨ m.finger.valid = false ∨ m.finger.pre ≠ key / 256
  · rw [insertViaFinger, if_pos hmiss, ok_bind]
  · obtain ⟨hsh, hvalid, hpre⟩ : shared = false ∧ m.finger.valid = true ∧ m.finger.pre = key / 256 := by
      simpa [not_or] using hmiss
    subst hsh
    have hlead : Leads .map C KEY_BYTES m.root key m.finger.leaf m.finger.ancestors :=
      (h.path hshared hvalid).congr (by rw [Nat.mul_div_cancel _ (by decide), hpre])
    rw [insertViaFinger_hit hvalid hpre, descend, insertMode_path (hlead.pathAt h.alone) (by decide) (by decide)]
    cases settlePath m.alloc m.finger.leaf (key % 256) val m.finger.ancestors with
    | error err => rfl
    | ok r =>
      have hfinger : (⟨m.finger.pre, m.finger.leaf, m.finger.ancestors, true⟩ : Finger).setPre (key / 256) =
          m.finger := by
        rw [Finger.setPre, ← hpre, ← hvalid]
      dsimp only [Except.map]
      rw [ok_bind, ok_bind, hfinger]

theorem insertMode_spec (h : Sound m t C) (hk : key < 2 ^ 32) (hv : val < 2 ^ 32) (hroom : Room m.alloc 100 100)
    (hshared : m.alloc.deferred = shared) :
    ∃ m' C', insertMode shared m key val = .ok ((entries KEY_BYTES t).lookup key, m') ∧
      Sound m' (t.insert .map KEY_BYTES key val).2 C' ∧ Spent m.alloc m'.alloc 100 100 := by
  rw [insertMode_eq_descend h hshared]
  exact descend_spec h hk hv hroom hshared

theorem removeMode_spec (h : Sound m t C) (hk : key < 2 ^ 32) (hroom : Room m.alloc 4 8)
    (hshared : m.alloc.deferred = shared) :
    ∃ m' C', removeMode shared m key = .ok ((entries KEY_BYTES t).lookup key, m') ∧
      Sound m' (t.remove .map KEY_BYTES key).2 C' ∧ Spent m.alloc m'.alloc 4 8 := by
  obtain ⟨r, hr, hprev, ⟨C', hrep, ho'⟩, hs, -⟩ := removes shared .map h.alone h.rep h.ok (key_lt hk) hroom
  obtain ⟨hp, hok, hent⟩ := Tree.remove_spec h.ok (by decide) (key_lt hk)
  rw [add_zero] at ho'
  rw [hp] at hprev
  rw [removeMode, if_neg fun hne => hne hshared, hr, ok_bind, hprev]
  cases hlk : (entries KEY_BYTES t).lookup key with
  | none =>
    rw [Option.isSome_none, if_neg Bool.false_ne_true]
    refine ⟨_, C', rfl, ⟨ho', hrep, hok, ?_, fun _ hvalid => absurd hvalid Bool.false_ne_true⟩, hs⟩
    rw [hent, del_none h.ok.sorted hlk]
    exact h.len
  | some w =>
    have hlen := length_del_some h.ok.sorted (by rw [hlk]; rfl)
    have hm := h.len
    rw [Option.isSome_some, if_pos rfl, if_neg (by omega)]
    refine ⟨_, C', rfl, ⟨ho', hrep, hok, ?_, fun _ hvalid => absurd hvalid Bool.false_ne_true⟩, hs⟩
    rw [hent, hm, ← hlen, Nat.add_sub_cancel]

theorem clear_spec (m : ExpanseMap32) : Sound m.clear null 0 where
  owned := owned_new
  rep := rep_null.mpr ⟨rfl, rfl⟩
  ok := ok_null
  len := rfl
  path _ h := absurd h Bool.false_ne_true

theorem shrinkToFit_spec (h : Sound m t C) : Sound m.shrinkToFit t C where
  owned := h.owned.shrinkToFit
  rep := h.rep
  ok := h.ok
  len := h.len
  path _ h := absurd h Bool.false_ne_true

end ExpanseMap32

end Expanse.Trie32
