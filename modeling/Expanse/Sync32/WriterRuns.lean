import Expanse.Sync32.WriterSpec
import Expanse.Trie32.Shared

/-!
# Runs of the writer

Whatever the readers do, and in whatever order the calls come, a writer answers as a sorted list of
entries does (a set writer as a finite set), except that a call that would change something is refused
when headroom is short. A mutation that has been let through never finds the arena or the pending list
full. A run faults in one way only: a debug build stops at the bracket that takes the version half a wrap
from the snapshot, a reader being still in the walk that the snapshot found it in.
-/

namespace Expanse.Sync32

open SortedAssoc Trie32 Trie32.Tree Runs Container32

theorem room_of_mutation {a : Arena} {x y : ℕ} (h : Room a MUTATION_HEADROOM MUTATION_HEADROOM) (hx : x ≤ 100)
    (hy : y ≤ 100) : Room a x y :=
  h.mono (hx.trans (by decide)) (hy.trans (by decide))

/-- What one mutation spends is within the reserves that are asked for. -/
theorem headroom_of_spent {a a' : Arena} {x y : ℕ} (h : Spent a a' x y) (hx : x ≤ 100) (hy : y ≤ 100) :
    a'.allocs ≤ a.allocs + MUTATION_HEADROOM ∧ a'.pending.length ≤ a.pending.length + MUTATION_HEADROOM := by
  have hle : 100 ≤ MUTATION_HEADROOM := by decide
  exact ⟨h.allocs.2.trans (Nat.add_le_add_left (hx.trans hle) _),
    h.pending.2.trans (Nat.add_le_add_left (hy.trans hle) _)⟩

theorem owned_drain {a : Arena} {C : Cells} (h : Owned a C) (n : ℕ) : Owned (a.drainPendingPrefix n) C :=
  h.congr rfl rfl rfl

/-- One reader that stays in a walk. -/
def stalled : Env := ⟨⟨fun _ => 1, fun _ => 1, fun _ => 1⟩, ⟨fun _ => 1, fun _ => 1, fun _ => 1⟩⟩

theorem lt_two_pow (o : Option UInt32) : ∀ v ∈ o.map UInt32.toNat, v < 2 ^ 32 := fun v hv => by
  obtain ⟨k, -, rfl⟩ := Option.mem_map.mp hv
  exact k.toNat_lt

namespace MapWriter32

/-- The calls of a map writer. -/
inductive Op where
  | tryInsert (key value : UInt32)
  | tryRemove (key : UInt32)
  | compareExchange (key : UInt32) (expected new : Option UInt32)
  | update (key : UInt32) (f : Option ℕ → Option UInt32)
  | getOrInsert (key value : UInt32)
  | tryReclaim
  | get (key : UInt32)
  | len
  | isEmpty
  | first
  | last
  | nextAtOrAfter (bound : UInt32)
  | nextAfter (bound : UInt32)
  | prevAtOrBefore (bound : UInt32)
  | prevBefore (bound : UInt32)

inductive Out where
  | refused (e : WriteError)
  | value (v : Option ℕ)
  | exchanged (r : Except (Option ℕ) (Option ℕ))
  | reclaimed
  | count (n : ℕ)
  | flag (b : Bool)
  | entry (e : Option (ℕ × ℕ))

/-- An answer to a call that may be refused. -/
def granted {α : Type} (out : α → Out) : Except WriteError α → Out
  | .ok r => out r
  | .error e => .refused e

def reads (w : MapWriter32) {α : Type} (out : α → Out) (r : Except Trie32.Fault α) :
    Except Trie32.Fault (Out × MapWriter32) :=
  r.map fun x => (out x, w)

def step (w : MapWriter32) : Op × Env → Except Trie32.Fault (Out × MapWriter32)
  | (.tryInsert k v, env) => answered (granted .value) (tryInsert w env k.toNat v.toNat)
  | (.tryRemove k, env) => answered (granted .value) (tryRemove w env k.toNat)
  | (.compareExchange k e n, env) =>
    answered (granted .exchanged) (compareExchange w env k.toNat (e.map UInt32.toNat) (n.map UInt32.toNat))
  | (.update k f, env) => answered (granted .value) (update w env k.toNat fun o => (f o).map UInt32.toNat)
  | (.getOrInsert k v, env) => answered (granted .value) (getOrInsert w env k.toNat v.toNat)
  | (.tryReclaim, env) => answered (fun _ => .reclaimed) (w.tryReclaim env.after)
  | (.get k, _) => reads w .value (w.inner.get k.toNat)
  | (.len, _) => .ok (.count w.inner.len, w)
  | (.isEmpty, _) => .ok (.flag w.inner.isEmpty, w)
  | (.first, _) => reads w .entry w.inner.first
  | (.last, _) => reads w .entry w.inner.last
  | (.nextAtOrAfter k, _) => reads w .entry (w.inner.nextAtOrAfter k.toNat)
  | (.nextAfter k, _) => reads w .entry (w.inner.next k.toNat)
  | (.prevAtOrBefore k, _) => reads w .entry (w.inner.prevAtOrBefore k.toNat)
  | (.prevBefore k, _) => reads w .entry (w.inner.prev k.toNat)

/-- A value, or its absence, under a key. -/
def stored (k : ℕ) : Option ℕ → List (ℕ × ℕ) → List (ℕ × ℕ)
  | some v, l => put k v l
  | none, l => del k l

/-- The calls on a sorted list of entries, none of them refused. -/
def refStep (l : List (ℕ × ℕ)) : Op → Out × List (ℕ × ℕ)
  | .tryInsert k v => (.value (l.lookup k.toNat), put k.toNat v.toNat l)
  | .tryRemove k => (.value (l.lookup k.toNat), del k.toNat l)
  | .compareExchange k e n =>
    if l.lookup k.toNat = e.map UInt32.toNat then
      (.exchanged (.ok (l.lookup k.toNat)), stored k.toNat (n.map UInt32.toNat) l)
    else (.exchanged (.error (l.lookup k.toNat)), l)
  | .update k f =>
    (.value (l.lookup k.toNat), stored k.toNat ((f (l.lookup k.toNat)).map UInt32.toNat) l)
  | .getOrInsert k v =>
    (.value (l.lookup k.toNat), if (l.lookup k.toNat).isNone then put k.toNat v.toNat l else l)
  | .tryReclaim => (.reclaimed, l)
  | .get k => (.value (l.lookup k.toNat), l)
  | .len => (.count l.length, l)
  | .isEmpty => (.flag l.isEmpty, l)
  | .first => (.entry l.head?, l)
  | .last => (.entry l.getLast?, l)
  | .nextAtOrAfter k => (.entry (l.filter fun e => k.toNat ≤ e.1).head?, l)
  | .nextAfter k => (.entry (l.filter fun e => k.toNat < e.1).head?, l)
  | .prevAtOrBefore k => (.entry (l.filter fun e => e.1 ≤ k.toNat).getLast?, l)
  | .prevBefore k => (.entry (l.filter fun e => e.1 < k.toNat).getLast?, l)

/-- The calls that need headroom. A compare-exchange needs it only if it would store something. -/
def asksHeadroom (l : List (ℕ × ℕ)) : Op → Bool
  | .tryInsert _ _ => true
  | .tryRemove _ => true
  | .compareExchange k e n => l.lookup k.toNat = e.map UInt32.toNat ∧ n.map UInt32.toNat ≠ l.lookup k.toNat
  | .update _ _ => true
  | .getOrInsert k _ => (l.lookup k.toNat).isNone
  | _ => false

/-- The calls that open a bracket. Storing what is there already opens none. -/
def opensBracket (l : List (ℕ × ℕ)) : Op → Bool
  | .tryInsert k v => l.lookup k.toNat ≠ some v.toNat
  | .tryRemove _ => true
  | .compareExchange k e n => l.lookup k.toNat = e.map UInt32.toNat ∧ n.map UInt32.toNat ≠ l.lookup k.toNat
  | .update k f => (f (l.lookup k.toNat)).map UInt32.toNat ≠ l.lookup k.toNat
  | .getOrInsert k _ => (l.lookup k.toNat).isNone
  | _ => false

def api : Api ExpanseMap32 (List (ℕ × ℕ)) Op Out := ⟨step, refStep, asksHeadroom, opensBracket, .refused⟩

/-- A container behind the wrapper that stores the entries `l`. -/
def SharedMap (m : ExpanseMap32) (l : List (ℕ × ℕ)) : Prop :=
  ∃ t C, ExpanseMap32.Sound m t C ∧ m.alloc.deferred = true ∧ entries KEY_BYTES t = l

variable {m : ExpanseMap32} {w w' : MapWriter32} {l : List (ℕ × ℕ)} {k n : ℕ}

theorem lasting_map : Lasting SharedMap := by
  rintro m l k ⟨t, C, hs, hd, rfl⟩
  have hshared : ¬ m.alloc.deferred = false := fun hp => Bool.false_ne_true (hp.symm.trans hd)
  exact ⟨t, C, ⟨owned_drain hs.owned k, hs.rep, hs.ok, hs.len, fun hp => absurd hp hshared⟩, hd, rfl⟩

theorem SharedMap.get (h : SharedMap m l) (hk : k < 2 ^ 32) : m.get k = .ok (l.lookup k) := by
  obtain ⟨t, C, hs, -, rfl⟩ := h
  exact ExpanseMap32.get_spec hs hk

theorem SharedMap.sorted (h : SharedMap m l) : KeySorted l := by
  obtain ⟨t, C, hs, -, rfl⟩ := h
  exact hs.ok.sorted

theorem SharedMap.insert {v : ℕ} (h : SharedMap m l) (hk : k < 2 ^ 32) (hv : v < 2 ^ 32)
    (hroom : Room m.alloc MUTATION_HEADROOM MUTATION_HEADROOM) :
    ∃ m', m.insertShared k v = .ok (l.lookup k, m') ∧ SharedMap m' (put k v l) ∧
      Spent m.alloc m'.alloc 100 100 := by
  obtain ⟨t, C, hs, hd, rfl⟩ := h
  obtain ⟨m', C', hr, hs', hspent⟩ := ExpanseMap32.insertMode_spec hs hk hv
    (room_of_mutation hroom le_rfl le_rfl) hd
  refine ⟨m', hr, ⟨_, C', hs', hspent.deferred.trans hd, ?_⟩, hspent⟩
  exact (insert_spec hs.ok (by decide) (ExpanseMap32.key_lt hk) (ExpanseMap32.val_lt hv)).entries

theorem SharedMap.remove (h : SharedMap m l) (hk : k < 2 ^ 32)
    (hroom : Room m.alloc MUTATION_HEADROOM MUTATION_HEADROOM) :
    ∃ m', m.removeShared k = .ok (l.lookup k, m') ∧ SharedMap m' (del k l) ∧ Spent m.alloc m'.alloc 4 8 := by
  obtain ⟨t, C, hs, hd, rfl⟩ := h
  have hroom := room_of_mutation hroom (show 4 ≤ 100 by decide) (show 8 ≤ 100 by decide)
  obtain ⟨m', C', hr, hs', hspent⟩ := ExpanseMap32.removeMode_spec hs hk hroom hd
  have hent := (remove_spec hs.ok (by decide) (ExpanseMap32.key_lt hk)).entries
  exact ⟨m', hr, ⟨_, C', hs', hspent.deferred.trans hd, hent⟩, hspent⟩

theorem insert_write {v : ℕ} (h : Holds SharedMap n w l) (hk : k < 2 ^ 32) (hv : v < 2 ^ 32)
    (hroom : Room (arena w.inner) MUTATION_HEADROOM MUTATION_HEADROOM) (loads : Loads) :
    Served SharedMap n w (StuckAfter w loads) (l.lookup k) (put k v l)
      (w.write (fun m => m.insertShared k v) loads) := by
  obtain ⟨m', hr, h', hs⟩ := h.stores.insert hk hv hroom
  exact write_spec lasting_map h.toStands hr h' hs loads

theorem remove_write (h : Holds SharedMap n w l) (hk : k < 2 ^ 32)
    (hroom : Room (arena w.inner) MUTATION_HEADROOM MUTATION_HEADROOM) (loads : Loads) :
    Served SharedMap n w (StuckAfter w loads) (l.lookup k) (del k l)
      (w.write (fun m => m.removeShared k) loads) := by
  obtain ⟨m', hr, h', hs⟩ := h.stores.remove hk hroom
  exact write_spec lasting_map h.toStands hr h' hs loads

theorem store_spec {new : Option ℕ} (h : Holds SharedMap n w l) (hk : k < 2 ^ 32) (hv : ∀ v ∈ new, v < 2 ^ 32)
    (hroom : Room (arena w.inner) MUTATION_HEADROOM MUTATION_HEADROOM) (env : Env) :
    Served SharedMap n w (StuckAfter w env.after) (l.lookup k) (stored k new l) (store w env k new) := by
  cases new with
  | some v => exact insert_write h hk (hv v rfl) hroom env.after
  | none => exact remove_write h hk hroom env.after

theorem stored_same (hs : KeySorted l) : stored k (l.lookup k) l = l := by
  cases hlk : l.lookup k with
  | some v =>
    obtain ⟨l₁, l₂, rfl, hcut⟩ := exists_cut_of_mem hs ((lookup_eq_some_iff hs).mp hlk)
    exact put_cut_mem hcut
  | none => exact del_none hs hlk

theorem tryInsert_spec {v : ℕ} (h : Holds SharedMap n w l) (hk : k < 2 ^ 32) (hv : v < 2 ^ 32) (env : Env) :
    Follows SharedMap n w (refusedFor w env.headroom)
      (l.lookup k ≠ some v ∧ StuckAfter (Ensured w env.headroom) env.after) .error .ok (l.lookup k) (put k v l)
      (tryInsert w env k v) := by
  refine guarded_spec lasting_map h env ?_
  rintro w₁ rfl h₁ hroom
  rw [h₁.stores.get hk, ok_bind]
  split_ifs with hsame
  · have hstay := @stored_same l k h₁.stores.sorted
    rw [hsame] at hstay ⊢
    rw [show put k v l = l from hstay]
    exact .still (fun hst => hst.1 rfl) rfl h₁
  · exact (insert_write h₁ hk hv hroom env.after).congr (and_iff_right hsame).symm

theorem tryRemove_spec (h : Holds SharedMap n w l) (hk : k < 2 ^ 32) (env : Env) :
    Follows SharedMap n w (refusedFor w env.headroom) (StuckAfter (Ensured w env.headroom) env.after) .error .ok
      (l.lookup k) (del k l) (tryRemove w env k) := by
  refine guarded_spec lasting_map h env ?_
  rintro w₁ rfl h₁ hroom
  exact remove_write h₁ hk hroom env.after

theorem update_spec {f : Option ℕ → Option ℕ} (h : Holds SharedMap n w l) (hk : k < 2 ^ 32)
    (hf : ∀ o, ∀ v ∈ f o, v < 2 ^ 32) (env : Env) :
    Follows SharedMap n w (refusedFor w env.headroom)
      (f (l.lookup k) ≠ l.lookup k ∧ StuckAfter (Ensured w env.headroom) env.after) .error .ok (l.lookup k)
      (stored k (f (l.lookup k)) l) (update w env k f) := by
  refine guarded_spec lasting_map h env ?_
  rintro w₁ rfl h₁ hroom
  rw [h₁.stores.get hk, ok_bind]
  by_cases hnew : f (l.lookup k) = l.lookup k
  · rw [hnew, if_neg (not_not.mpr rfl), stored_same h₁.stores.sorted]
    exact .still (fun hst => hst.1 rfl) rfl h₁
  · rw [if_pos hnew]
    refine Served.congr (and_iff_right hnew).symm ?_
    exact (store_spec h₁ hk (hf _) hroom env).bind fun _ => rfl

theorem compareExchange_spec {expected new : Option ℕ} (h : Holds SharedMap n w l) (hk : k < 2 ^ 32)
    (hnew : ∀ v ∈ new, v < 2 ^ 32) (env : Env) :
    Follows SharedMap n w (if l.lookup k = expected ∧ new ≠ l.lookup k then refusedFor w env.headroom else none)
      ((l.lookup k = expected ∧ new ≠ l.lookup k) ∧ StuckAfter (Ensured w env.headroom) env.after) .error .ok
      (if l.lookup k = expected then .ok (l.lookup k) else .error (l.lookup k))
      (if l.lookup k = expected then stored k new l else l) (compareExchange w env k expected new) := by
  rw [compareExchange, h.stores.get hk, ok_bind]
  by_cases he : l.lookup k = expected
  · rw [if_neg (not_not.mpr he), if_pos he, if_pos he]
    by_cases hn : new = l.lookup k
    · rw [if_pos hn, if_neg fun hc => hc.2 hn, hn, stored_same h.stores.sorted]
      exact .still (fun hst => hst.1.2 rfl) rfl h
    · rw [if_neg hn, if_pos ⟨he, hn⟩]
      refine guarded_spec lasting_map h env ?_
      rintro w₁ rfl h₁ hroom
      refine Served.congr (and_iff_right ⟨he, hn⟩).symm ?_
      exact (store_spec h₁ hk hnew hroom env).bind fun _ => rfl
  · rw [if_pos he, if_neg fun hc => he hc.1, if_neg he, if_neg he]
    exact .still (fun hst => he hst.1.1) rfl h

theorem getOrInsert_spec {v : ℕ} (h : Holds SharedMap n w l) (hk : k < 2 ^ 32) (hv : v < 2 ^ 32) (env : Env) :
    Follows SharedMap n w (if (l.lookup k).isNone then refusedFor w env.headroom else none)
      ((l.lookup k).isNone = true ∧ StuckAfter (Ensured w env.headroom) env.after) .error .ok (l.lookup k)
      (if (l.lookup k).isNone then put k v l else l) (getOrInsert w env k v) := by
  rw [getOrInsert, h.stores.get hk, ok_bind]
  cases hlk : l.lookup k with
  | some u => exact .still (fun hst => Bool.false_ne_true hst.1) rfl h
  | none =>
    refine guarded_spec lasting_map h env ?_
    rintro w₁ rfl h₁ hroom
    refine Served.congr (and_iff_right rfl).symm ?_
    exact (insert_write h₁ hk hv hroom env.after).bind fun _ => rfl

theorem api_serves : api.Serves SharedMap := by
  intro n w l op env h
  have hgrant : ∀ {α : Type} {o : Option WriteError} {stuck : Prop} {x : α} {l' : List (ℕ × ℕ)} (out : α → Out)
      {r : Except Trie32.Fault (Except WriteError α × MapWriter32)},
        Follows SharedMap n w o stuck .error .ok x l' r →
      Follows SharedMap n w o stuck Out.refused id (out x) l' (answered (granted out) r) :=
    fun out _ hf => Follows.answered (granted out) (fun _ => rfl) hf
  have hreads : ∀ {α : Type} {out : α → Out} {x : α} {r : Except Trie32.Fault α} {stuck : Prop}, r = .ok x →
      Served SharedMap n w (false = true ∧ stuck) (out x) l (reads w out r) := by
    rintro α out x r stuck rfl
    exact .still (fun hst => Bool.false_ne_true hst.1) rfl h
  obtain ⟨t, C, hs, -, rfl⟩ := h.stores
  have hst := hs.stored
  cases op with
  | tryInsert k v =>
    have hx := hgrant Out.value (tryInsert_spec h k.toNat_lt v.toNat_lt env)
    rwa [← decide_eq_true_iff (p := (entries KEY_BYTES t).lookup k.toNat ≠ some v.toNat)] at hx
  | tryRemove k =>
    have hx := hgrant Out.value (tryRemove_spec h k.toNat_lt env)
    rwa [← and_iff_right (rfl : true = true) (b := StuckAfter _ _)] at hx
  | compareExchange k e v =>
    have hx := hgrant Out.exchanged
      (@compareExchange_spec w _ k.toNat n (e.map UInt32.toNat) (v.map UInt32.toNat) h k.toNat_lt
        (lt_two_pow v) env)
    simp only [Api.refusal, api, asksHeadroom, opensBracket, refStep, decide_eq_true_eq]
    by_cases he : (entries KEY_BYTES t).lookup k.toNat = e.map UInt32.toNat
    · simp only [if_pos he] at hx ⊢
      exact hx
    · simp only [if_neg he] at hx ⊢
      exact hx
  | update k f =>
    have hx := hgrant Out.value (update_spec h k.toNat_lt (fun o => lt_two_pow (f o)) env)
    rwa [← decide_eq_true_iff (p := (f ((entries KEY_BYTES t).lookup k.toNat)).map UInt32.toNat ≠ _)] at hx
  | getOrInsert k v => exact hgrant Out.value (getOrInsert_spec h k.toNat_lt v.toNat_lt env)
  | tryReclaim =>
    obtain ⟨r, hr, hd⟩ := h.tryReclaim env.after
    have hs : api.step w (.tryReclaim, env) = .ok (.reclaimed, r.2) := by
      show answered (fun _ => Out.reclaimed) (w.tryReclaim env.after) = _
      rw [hr]
      rfl
    exact .inr ⟨fun hst => Bool.false_ne_true hst.1, r.2, hs, hd.holds lasting_map h.toStands, hd.advances⟩
  | get k => exact hreads (h.stores.get k.toNat_lt)
  | len =>
    have hlen : step w (.len, env) = .ok (.count (entries KEY_BYTES t).length, w) := by rw [step, hs.len]
    exact .still (fun hst => Bool.false_ne_true hst.1) hlen h
  | isEmpty =>
    have hlen : w.inner.isEmpty = (entries KEY_BYTES t).isEmpty := by
      rw [ExpanseMap32.isEmpty, hs.len]
      cases entries KEY_BYTES t <;> rfl
    have hempty : step w (.isEmpty, env) = .ok (.flag (entries KEY_BYTES t).isEmpty, w) := by rw [step, hlen]
    exact .still (fun hst => Bool.false_ne_true hst.1) hempty h
  | first => exact hreads (firstEntry_eq hst)
  | last => exact hreads (lastEntry_eq hst)
  | nextAtOrAfter k => exact hreads (firstGe_eq hst k.toNat_lt)
  | nextAfter k => exact hreads (nextEntry_eq hst k.toNat_lt)
  | prevAtOrBefore k => exact hreads (lastLe_eq hst k.toNat_lt)
  | prevBefore k => exact hreads (prevEntry_eq hst k.toNat_lt)

theorem holds_withCapacity {nodeCap : ℕ} (hcap : MUTATION_HEADROOM ≤ nodeCap) (asserts : Bool) (readers : ℕ) :
    ∃ w, Writer32.withCapacity ExpanseMap32 asserts nodeCap readers = .ok w ∧ Holds SharedMap readers w [] ∧
      ∀ calls, api.RunsAs SharedMap readers w [] calls := by
  have h : Holds SharedMap readers ⟨ExpanseMap32.withFixedArena nodeCap (nodeCap + 2 * MUTATION_HEADROOM),
      0, .null, 0, readers, List.replicate readers 0, 0, 0, asserts⟩ [] :=
    ⟨⟨⟨null, 0, ExpanseMap32.sound_withFixedArena _ _, rfl, entries_null⟩, rfl,
      hcap.trans (Nat.le_add_right _ _), rfl,
      rfl, rfl, le_rfl⟩, Fresh.of_unsealed rfl⟩
  exact ⟨_, if_neg (not_lt.mpr hcap), h, api_serves.runsAs lasting_map h rfl rfl⟩

/-- A map writer answers as the sorted list does where it does not refuse. It faults only in a debug build,
and only after at least `2 ^ 29` calls, at a bracket that closes while a reader of the snapshot is pinned. -/
theorem map_writer_runs {nodeCap : ℕ} (hcap : MUTATION_HEADROOM ≤ nodeCap) (asserts : Bool) (readers : ℕ)
    (calls : List (Op × Env)) :
    ∃ w, Writer32.withCapacity ExpanseMap32 asserts nodeCap readers = .ok w ∧
      api.RunsAs SharedMap readers w [] calls := by
  obtain ⟨w, hw, -, hruns⟩ := holds_withCapacity hcap asserts readers
  exact ⟨w, hw, hruns calls⟩

theorem map_writer_runs_stalled : ∃ w, Writer32.withCapacity ExpanseMap32 true 200 1 = .ok w ∧
    api.RunsAs SharedMap 1 w [] [(.tryInsert 1 2, stalled), (.compareExchange 1 (some 2) none, stalled)] :=
  map_writer_runs (by decide) true 1 _

/-- After any run, a call that would change the map is refused exactly when one of the two reserves is
short; it leaves the nodes, and the words that readers see, as they were. -/
theorem map_writer_refuses {nodeCap : ℕ} (hcap : MUTATION_HEADROOM ≤ nodeCap) (asserts : Bool) (readers : ℕ)
    (calls : List (Op × Env)) (op : Op) (env : Env) :
    ∃ w₀, Writer32.withCapacity ExpanseMap32 asserts nodeCap readers = .ok w₀ ∧
      ∀ outs w, run step w₀ calls = .ok (outs, w) → ∃ l, Traces (api.Answers readers) [] calls outs l ∧
        ((∃ out w', step w (op, env) = .ok (out, w')) ∨ api.Overpinned w l (op, env)) ∧
        ((∃ e w', step w (op, env) = .ok (.refused e, w')) ↔ asksHeadroom l op = true ∧
          (w.freeSlots < MUTATION_HEADROOM ∨ (Ensured w env.headroom).pendingSpare < MUTATION_HEADROOM)) ∧
        ∀ e w', step w (op, env) = .ok (.refused e, w') → w'.inner.alloc.slots = w.inner.alloc.slots ∧
          w'.root = w.root ∧ w'.len = w.len ∧ w'.version = w.version := by
  obtain ⟨w₀, hw, -, hruns⟩ := holds_withCapacity hcap asserts readers
  refine ⟨w₀, hw, fun outs w hr => ?_⟩
  obtain ⟨l, ht, h⟩ := (hruns calls).answers outs w hr
  have hne : ∀ l op e, (refStep l op).1 ≠ .refused e := by
    intro l op e
    cases op with
    | compareExchange k x v =>
      rw [refStep]
      split_ifs <;> exact Out.noConfusion
    | _ => exact Out.noConfusion
  obtain ⟨hiff, hdrain⟩ := api_serves.refuses hne h (op, env)
  refine ⟨l, ht, ?_, hiff, fun e w' ho => ?_⟩
  · cases ho : step w (op, env) with
    | ok r => exact .inl ⟨r.1, r.2, rfl⟩
    | error f => exact .inr ((api_serves.step_error_iff h).mp ho).2
  · have hd := hdrain e w' ho
    obtain ⟨k, hk⟩ := hd.inner
    exact ⟨by rw [hk]; rfl, hd.root, hd.len, hd.version⟩

theorem map_writer_refuses_stalled : ∃ w₀, Writer32.withCapacity ExpanseMap32 true 200 1 = .ok w₀ ∧
    ∀ outs w, run step w₀ [(.tryInsert 1 2, stalled)] = .ok (outs, w) →
      ∃ l, Traces (api.Answers 1) [] [(.tryInsert 1 2, stalled)] outs l ∧
        ((∃ out w', step w (.tryRemove 1, stalled) = .ok (out, w')) ∨
          api.Overpinned w l (.tryRemove 1, stalled)) ∧
        ((∃ e w', step w (.tryRemove 1, stalled) = .ok (.refused e, w')) ↔ asksHeadroom l (.tryRemove 1) = true ∧
          (w.freeSlots < MUTATION_HEADROOM ∨ (Ensured w stalled.headroom).pendingSpare < MUTATION_HEADROOM)) ∧
        ∀ e w', step w (.tryRemove 1, stalled) = .ok (.refused e, w') →
          w'.inner.alloc.slots = w.inner.alloc.slots ∧
          w'.root = w.root ∧ w'.len = w.len ∧ w'.version = w.version :=
  map_writer_refuses (by decide) true 1 _ _ _

/-- After any run, one mutation on the tree, with the reserves that are asked for, allocates and retires
at most as often as they allow. -/
theorem map_mutation_headroom {nodeCap : ℕ} (hcap : MUTATION_HEADROOM ≤ nodeCap) (asserts : Bool) (readers : ℕ)
    (calls : List (Op × Env)) (e : Edit) :
    ∃ w₀, Writer32.withCapacity ExpanseMap32 asserts nodeCap readers = .ok w₀ ∧
      ∀ outs w, run step w₀ calls = .ok (outs, w) → MUTATION_HEADROOM ≤ w.freeSlots →
        MUTATION_HEADROOM ≤ w.pendingSpare →
        ∃ out m, w.inner.edit true e = .ok (out, m) ∧ m.alloc.allocs ≤ w.inner.alloc.allocs + MUTATION_HEADROOM ∧
          m.alloc.pending.length ≤ w.inner.alloc.pending.length + MUTATION_HEADROOM := by
  obtain ⟨w₀, hw, -, hruns⟩ := holds_withCapacity hcap asserts readers
  refine ⟨w₀, hw, fun outs w hr hf hp => ?_⟩
  obtain ⟨l, -, h⟩ := (hruns calls).answers outs w hr
  have hroom := room_of_headroom (not_lt.mpr hp) (not_lt.mpr hf)
  cases e with
  | insert k v =>
    obtain ⟨m, hm, -, hs⟩ := h.stores.insert k.toNat_lt v.toNat_lt hroom
    exact ⟨_, m, hm, headroom_of_spent hs le_rfl le_rfl⟩
  | remove k =>
    obtain ⟨m, hm, -, hs⟩ := h.stores.remove k.toNat_lt hroom
    exact ⟨_, m, hm, headroom_of_spent hs (by decide) (by decide)⟩

theorem map_mutation_headroom_stalled : ∃ w₀, Writer32.withCapacity ExpanseMap32 true 200 1 = .ok w₀ ∧
    ∀ outs w, run step w₀ [(.tryInsert 1 2, stalled)] = .ok (outs, w) → MUTATION_HEADROOM ≤ w.freeSlots →
      MUTATION_HEADROOM ≤ w.pendingSpare →
      ∃ out m, w.inner.edit true (.remove 1) = .ok (out, m) ∧
        m.alloc.allocs ≤ w.inner.alloc.allocs + MUTATION_HEADROOM ∧
        m.alloc.pending.length ≤ w.inner.alloc.pending.length + MUTATION_HEADROOM :=
  map_mutation_headroom (by decide) true 1 _ _

end MapWriter32

namespace SetWriter32

/-- The calls of a set writer. -/
inductive Op where
  | tryInsert (key : UInt32)
  | tryRemove (key : UInt32)
  | tryReclaim
  | contains (key : UInt32)
  | len
  | isEmpty

inductive Out where
  | refused (e : WriteError)
  | reclaimed
  | count (n : ℕ)
  | flag (b : Bool)

def granted : Except WriteError Bool → Out
  | .ok b => .flag b
  | .error e => .refused e

def step (w : SetWriter32) : Op × Env → Except Trie32.Fault (Out × SetWriter32)
  | (.tryInsert k, env) => answered granted (tryInsert w env k.toNat)
  | (.tryRemove k, env) => answered granted (tryRemove w env k.toNat)
  | (.tryReclaim, env) => answered (fun _ => .reclaimed) (w.tryReclaim env.after)
  | (.contains k, _) => (w.inner.contains k.toNat).map fun b => (.flag b, w)
  | (.len, _) => .ok (.count w.inner.len, w)
  | (.isEmpty, _) => .ok (.flag w.inner.isEmpty, w)

/-- The calls on a finite set, none of them refused. -/
def refStep (F : Finset ℕ) : Op → Out × Finset ℕ
  | .tryInsert k => (.flag (decide (k.toNat ∉ F)), Insert.insert k.toNat F)
  | .tryRemove k => (.flag (decide (k.toNat ∈ F)), F.erase k.toNat)
  | .tryReclaim => (.reclaimed, F)
  | .contains k => (.flag (decide (k.toNat ∈ F)), F)
  | .len => (.count F.card, F)
  | .isEmpty => (.flag (decide (F = ∅)), F)

/-- The calls that need headroom, and open a bracket once they have it. -/
def asksHeadroom : Op → Bool
  | .tryInsert _ => true
  | .tryRemove _ => true
  | _ => false

def api : Api ExpanseSet32 (Finset ℕ) Op Out :=
  ⟨step, refStep, fun _ => asksHeadroom, fun _ => asksHeadroom, .refused⟩

/-- A container behind the wrapper that stores the keys `F`. -/
def SharedSet (s : ExpanseSet32) (F : Finset ℕ) : Prop :=
  ∃ t C, ExpanseSet32.Sound s t C ∧ s.alloc.deferred = true ∧ ExpanseSet32.keysOf t = asc F

variable {s : ExpanseSet32} {w : SetWriter32} {F : Finset ℕ} {k n : ℕ}

theorem lasting_set : Lasting SharedSet := by
  rintro s F j ⟨t, C, hs, hd, hF⟩
  exact ⟨t, C, ⟨owned_drain hs.owned j, hs.rep, hs.ok, hs.len⟩, hd, hF⟩

theorem SharedSet.insert (h : SharedSet s F) (hk : k < 2 ^ 32)
    (hroom : Room s.alloc MUTATION_HEADROOM MUTATION_HEADROOM) :
    ∃ s', s.insertShared k = .ok (decide (k ∉ F), s') ∧ SharedSet s' (Insert.insert k F) ∧
      Spent s.alloc s'.alloc 100 100 := by
  obtain ⟨t, C, hs, hd, hF⟩ := h
  obtain ⟨s', C', hr, hs', hspent⟩ := ExpanseSet32.insertMode_spec hs hk
    (room_of_mutation hroom le_rfl le_rfl) hd
  rw [ExpanseSet32.isNone_eq hF] at hr
  exact ⟨s', hr, ⟨_, C', hs', hspent.deferred.trans hd, ExpanseSet32.keysOf_insert hs hF hk⟩, hspent⟩

theorem SharedSet.remove (h : SharedSet s F) (hk : k < 2 ^ 32)
    (hroom : Room s.alloc MUTATION_HEADROOM MUTATION_HEADROOM) :
    ∃ s', s.removeShared k = .ok (decide (k ∈ F), s') ∧ SharedSet s' (F.erase k) ∧
      Spent s.alloc s'.alloc 4 8 := by
  obtain ⟨t, C, hs, hd, hF⟩ := h
  have hroom := room_of_mutation hroom (show 4 ≤ 100 by decide) (show 8 ≤ 100 by decide)
  obtain ⟨s', C', hr, hs', hspent⟩ := ExpanseSet32.removeMode_spec hs hk hroom hd
  rw [ExpanseSet32.isSome_eq hF] at hr
  exact ⟨s', hr, ⟨_, C', hs', hspent.deferred.trans hd, ExpanseSet32.keysOf_remove hs hF hk⟩, hspent⟩

theorem api_serves : api.Serves SharedSet := by
  intro n w F op env h
  have hgrant : ∀ {o : Option WriteError} {stuck : Prop} {b : Bool} {F' : Finset ℕ}
      {r : Except Trie32.Fault (Except WriteError Bool × SetWriter32)},
      Follows SharedSet n w o stuck .error .ok b F' r →
      Follows SharedSet n w o (true = true ∧ stuck) Out.refused id (.flag b) F' (answered granted r) := by
    intro o stuck b F' r hf
    rw [and_iff_right (rfl : true = true)]
    exact Follows.answered granted (fun _ => rfl) hf
  obtain ⟨t, C, hs, -, hF⟩ := h.stores
  have hlen : w.inner.len = F.card := by
    rw [hs.len, ← length_asc, ← hF, ExpanseSet32.keysOf, List.length_map]
  cases op with
  | tryInsert k =>
    refine hgrant (guarded_spec lasting_set h env ?_)
    rintro w₁ rfl h₁ hroom
    obtain ⟨s', hr, h', hspent⟩ := h₁.stores.insert k.toNat_lt hroom
    exact write_spec lasting_set h₁.toStands hr h' hspent env.after
  | tryRemove k =>
    refine hgrant (guarded_spec lasting_set h env ?_)
    rintro w₁ rfl h₁ hroom
    obtain ⟨s', hr, h', hspent⟩ := h₁.stores.remove k.toNat_lt hroom
    exact write_spec lasting_set h₁.toStands hr h' hspent env.after
  | tryReclaim =>
    obtain ⟨r, hr, hd⟩ := h.tryReclaim env.after
    have hs : api.step w (.tryReclaim, env) = .ok (.reclaimed, r.2) := by
      show answered (fun _ => Out.reclaimed) (w.tryReclaim env.after) = _
      rw [hr]
      rfl
    exact .inr ⟨fun hst => Bool.false_ne_true hst.1, r.2, hs, hd.holds lasting_set h.toStands, hd.advances⟩
  | contains k =>
    have hc := ExpanseSet32.contains_spec hs k.toNat_lt
    rw [ExpanseSet32.isSome_eq hF] at hc
    have hcontains : step w (.contains k, env) = .ok (.flag (decide (k.toNat ∈ F)), w) := by
      rw [step, hc]
      rfl
    exact .still (fun hst => Bool.false_ne_true hst.1) hcontains h
  | len =>
    have hlen' : step w (.len, env) = .ok (.count F.card, w) := by rw [step, hlen]
    exact .still (fun hst => Bool.false_ne_true hst.1) hlen' h
  | isEmpty =>
    have he : w.inner.isEmpty = decide (F = ∅) := by
      rw [ExpanseSet32.isEmpty, hlen, Bool.eq_iff_iff, beq_iff_eq, Finset.card_eq_zero, decide_eq_true_eq]
    have hempty : step w (.isEmpty, env) = .ok (.flag (decide (F = ∅)), w) := by rw [step, he]
    exact .still (fun hst => Bool.false_ne_true hst.1) hempty h

/-- The same of a set writer and a finite set. -/
theorem set_writer_runs {nodeCap : ℕ} (hcap : MUTATION_HEADROOM ≤ nodeCap) (asserts : Bool) (readers : ℕ)
    (calls : List (Op × Env)) :
    ∃ w, Writer32.withCapacity ExpanseSet32 asserts nodeCap readers = .ok w ∧
      api.RunsAs SharedSet readers w ∅ calls := by
  have h : Holds SharedSet readers
      ⟨ExpanseSet32.withFixedArena nodeCap (nodeCap + 2 * MUTATION_HEADROOM), 0, .null, 0, readers,
        List.replicate readers 0, 0, 0, asserts⟩ ∅ :=
    ⟨⟨⟨null, 0, ExpanseSet32.sound_withFixedArena _ _, rfl, ExpanseSet32.keysOf_null⟩, rfl,
      hcap.trans (Nat.le_add_right _ _), rfl, rfl, rfl, le_rfl⟩, Fresh.of_unsealed rfl⟩
  exact ⟨_, if_neg (not_lt.mpr hcap), api_serves.runsAs lasting_set h rfl rfl calls⟩

theorem set_writer_runs_stalled : ∃ w, Writer32.withCapacity ExpanseSet32 true 200 1 = .ok w ∧
    api.RunsAs SharedSet 1 w ∅ [(.tryInsert 1, stalled), (.tryRemove 1, stalled)] :=
  set_writer_runs (by decide) true 1 _

end SetWriter32

end Expanse.Sync32
