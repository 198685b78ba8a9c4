import Expanse.Sync32.Writer
import Expanse.Trie32.MapRuns

/-!
# Headroom

What reclaiming drains was already out of the tree, so it loses nothing that is stored; and the
headroom that a mutation has asked for is more than any mutation takes. So a call is refused before it
changes anything, or it does what the plain container does. Only one check can fail in between: a debug
build asserts that the version has not moved half a wrap while a reader stays in one walk.
-/

namespace Expanse.Sync32

open SortedAssoc Trie32 Trie32.Tree Runs Container32

variable {T L : Type} [Container32 T] {Stores : T → L → Prop} {w w' w'' : Writer32 T} {c : T} {l l' : L}
    {n x y : ℕ}

/-- What a container stores does not depend on what it has parked. -/
def Lasting (Stores : T → L → Prop) : Prop :=
  ∀ c l n, Stores c l → Stores (setArena c ((arena c).drainPendingPrefix n)) l

/-- A debug build has seen less than half a wrap of the version since the snapshot. -/
def Fresh (w : Writer32 T) : Prop :=
  w.asserts = true → 0 < w.sealed → (w.version - w.snapshotVersion).toNat < 2 ^ 30

/-- A writer outside its bracket, beside `n` readers: it has published what its container stores. -/
structure Stands (Stores : T → L → Prop) (n : ℕ) (w : Writer32 T) (l : L) : Prop where
  stores : Stores w.inner l
  readers : w.readers = n
  cap : MUTATION_HEADROOM ≤ (arena w.inner).pendingCap
  root : w.root = rootEdge w.inner
  len : w.len = Container32.len w.inner
  even : w.version % 2 = 0
  sealed_le : w.sealed ≤ w.pendingLen

/-- A writer between two calls. -/
structure Holds (Stores : T → L → Prop) (n : ℕ) (w : Writer32 T) (l : L) : Prop extends Stands Stores n w l where
  fresh : Fresh w

/-- What reclaiming may do. -/
structure Drains (w w' : Writer32 T) : Prop where
  inner : ∃ n, w'.inner = setArena w.inner ((arena w.inner).drainPendingPrefix n)
  version : w'.version = w.version
  root : w'.root = w.root
  len : w'.len = w.len
  readers : w'.readers = w.readers
  asserts : w'.asserts = w.asserts
  snapshot : w'.snapshotVersion = w.snapshotVersion ∨ w'.snapshotVersion = w.version
  sealed_le : w.sealed ≤ w.pendingLen → w'.sealed ≤ w'.pendingLen
  fresh : Fresh w'

/-- The check of one `try_reclaim` fails: behind the sealed prefix a reader is still in the walk in which
the snapshot found it, and the version has moved half a wrap since. -/
structure Stuck (w : Writer32 T) (loads : Loads) : Prop where
  asserts : w.asserts = true
  sealed : 0 < w.sealed
  inside : ∃ i < w.readers, loads.outside i % 2 = 1
  pinned : ∃ i < w.readers, ∃ v, w.snapshot[i]? = some v ∧ v % 2 = 1 ∧ loads.elapsed i = v
  wrapped : 2 ^ 30 ≤ (w.version - w.snapshotVersion).toNat

theorem odd_of_ne {v : UInt32} (h : ¬ v % 2 = 0) : v % 2 = 1 := by
  grind

omit [Container32 T] in
theorem allOutside_eq_false {loads : Loads} :
    w.allOutside loads = false ↔ ∃ i < w.readers, loads.outside i % 2 = 1 := by
  rw [Writer32.allOutside, List.all_eq_false]
  constructor
  · rintro ⟨i, hi, ho⟩
    rw [decide_eq_true_eq] at ho
    exact ⟨i, List.mem_range.mp hi, odd_of_ne ho⟩
  · rintro ⟨i, hi, ho⟩
    refine ⟨i, List.mem_range.mpr hi, ?_⟩
    rw [decide_eq_true_eq, ho]
    decide

theorem getElem?_range_iff {n i j : ℕ} : (List.range n)[j]? = some i ↔ j < n ∧ j = i := by
  rw [List.getElem?_eq_some_iff]
  simp only [List.getElem_range, List.length_range, exists_prop]

omit [Container32 T] in
theorem graceElapsed_eq_false {loads : Loads} : w.graceElapsed loads = false ↔
    ∃ i < w.readers, ∃ v, w.snapshot[i]? = some v ∧ v % 2 = 1 ∧ loads.elapsed i = v := by
  rw [Writer32.graceElapsed, List.all_eq_false]
  constructor
  · rintro ⟨⟨i, v⟩, hm, hp⟩
    obtain ⟨j, hj⟩ := List.mem_iff_getElem?.mp hm
    rw [List.getElem?_zip_eq_some, getElem?_range_iff] at hj
    obtain ⟨⟨hlt, rfl⟩, hv⟩ := hj
    rw [Bool.not_eq_true, Bool.not_eq_false', Bool.and_eq_true, beq_iff_eq, beq_iff_eq] at hp
    exact ⟨j, hlt, v, hv, hp⟩
  · rintro ⟨i, hi, v, hv, ho, he⟩
    refine ⟨(i, v), List.mem_iff_getElem?.mpr ⟨i, ?_⟩, ?_⟩
    · rw [List.getElem?_zip_eq_some, getElem?_range_iff]
      exact ⟨⟨hi, rfl⟩, hv⟩
    · rw [Bool.not_eq_true, Bool.not_eq_false', Bool.and_eq_true, beq_iff_eq, beq_iff_eq]
      exact ⟨ho, he⟩

theorem drain_zero (a : Arena) : a.drainPendingPrefix 0 = a := by
  rw [Arena.drainPendingPrefix, Nat.zero_min, List.drop_zero]

theorem drain_all (a : Arena) : a.drainPendingPrefix a.pendingLen = a.drainPending := by
  rw [Arena.drainPendingPrefix, Arena.pendingLen, Nat.min_self, List.drop_length, Arena.drainPending]

omit [Container32 T] in
theorem Fresh.of_unsealed (h : w.sealed = 0) : Fresh w := fun _ hs => absurd hs (by omega)

theorem Drains.refl (h : Fresh w) : Drains w w where
  inner := ⟨0, by rw [drain_zero, setArena_arena]⟩
  version := rfl
  root := rfl
  len := rfl
  readers := rfl
  asserts := rfl
  snapshot := .inl rfl
  sealed_le := id
  fresh := h

theorem Drains.drain (n : ℕ) :
    Drains w { w with inner := setArena w.inner ((arena w.inner).drainPendingPrefix n), sealed := 0 } where
  inner := ⟨n, rfl⟩
  version := rfl
  root := rfl
  len := rfl
  readers := rfl
  asserts := rfl
  snapshot := .inl rfl
  sealed_le _ := Nat.zero_le _
  fresh := Fresh.of_unsealed rfl

/-- Sealing keeps the container and the words that are published. -/
theorem Drains.reseal (h : Drains w w') (he : w'.version % 2 = 0) (loads : Loads) :
    Drains w (w'.reseal loads) := by
  rw [Writer32.reseal]
  split_ifs
  · have hs : w'.sample = w'.version := if_pos he
    refine ⟨h.inner, h.version, h.root, h.len, h.readers, h.asserts, .inr (hs.trans h.version),
      fun _ => le_rfl, ?_⟩
    intro _ _
    dsimp only
    rw [hs, UInt32.sub_self]
    decide
  · exact h

theorem wrapped_iff {v s : UInt32} : ¬ v - s < (1 : UInt32) <<< 30 ↔ 2 ^ 30 ≤ (v - s).toNat := by
  rw [UInt32.lt_iff_toNat_lt, not_lt]
  rfl

/-- Freeing the sealed part fails in the check or drains. -/
theorem reclaimSealed_spec {loads : Loads} (he : w.version % 2 = 0)
    (ho : ∃ i < w.readers, loads.outside i % 2 = 1) :
    (Stuck w loads ∧ w.reclaimSealed loads = .error Trie32.Fault.assertion) ∨
      (¬ Stuck w loads ∧ ∃ w', w.reclaimSealed loads = .ok w' ∧ Drains w w') := by
  have hsample : w.sample = w.version := if_pos he
  rw [Writer32.reclaimSealed, hsample]
  split_ifs with hs hg hw
  · refine .inr ⟨fun h => ?_, _, rfl, Drains.drain _⟩
    rw [graceElapsed_eq_false.mpr h.pinned] at hg
    cases hg
  · exact .inl ⟨⟨hw.1, hs, ho, graceElapsed_eq_false.mp (Bool.not_eq_true _ ▸ hg), wrapped_iff.mp hw.2⟩, rfl⟩
  · refine .inr ⟨fun h => hw ⟨h.asserts, wrapped_iff.mpr h.wrapped⟩, w, rfl, Drains.refl fun ha _ => ?_⟩
    by_contra hlt
    exact hw ⟨ha, wrapped_iff.mpr (not_lt.mp hlt)⟩
  · exact .inr ⟨fun h => hs h.sealed, w, rfl, Drains.refl (Fresh.of_unsealed (by omega))⟩

theorem tryReclaim_spec (loads : Loads) (he : w.version % 2 = 0) (hle : w.sealed ≤ w.pendingLen) :
    (Stuck w loads ∧ w.tryReclaim loads = .error Trie32.Fault.assertion) ∨
      (¬ Stuck w loads ∧ ∃ r, w.tryReclaim loads = .ok r ∧ Drains w r.2) := by
  rw [Writer32.tryReclaim]
  split_ifs with hp ho
  · have hs : w.sealed = 0 := by omega
    refine .inr ⟨fun h => absurd h.sealed (by omega), _, rfl, ?_⟩
    have hdrain := Drains.drain (w := w) 0
    rw [drain_zero, setArena_arena] at hdrain
    exact hdrain
  · refine .inr ⟨fun h => ?_, _, rfl, ?_⟩
    · rw [allOutside_eq_false.mpr h.inside] at ho
      cases ho
    · rw [← drain_all]
      exact Drains.drain _
  · rw [Bool.not_eq_true] at ho
    rcases reclaimSealed_spec he (allOutside_eq_false.mp ho) with ⟨hst, hf⟩ | ⟨hst, w', hr, hd⟩
    · exact .inl ⟨hst, by rw [hf]; rfl⟩
    · refine .inr ⟨hst, _, by rw [hr]; rfl, hd.reseal ?_ loads⟩
      rw [hd.version]
      exact he

theorem Drains.holds (hl : Lasting Stores) (h : Stands Stores n w l) (hr : Drains w w') :
    Holds Stores n w' l := by
  obtain ⟨k, hn⟩ := hr.inner
  refine ⟨⟨?_, hr.readers.trans h.readers, ?_, ?_, ?_, ?_, hr.sealed_le h.sealed_le⟩, hr.fresh⟩
  · rw [hn]
    exact hl _ _ k h.stores
  · rw [hn, arena_setArena]
    exact h.cap
  · rw [hr.root, hn, rootEdge_setArena]
    exact h.root
  · rw [hr.len, hn, len_setArena]
    exact h.len
  · rw [hr.version]
    exact h.even

theorem Drains.freeSlots (hr : Drains w w') : w'.freeSlots = w.freeSlots := by
  obtain ⟨n, hn⟩ := hr.inner
  rw [Writer32.freeSlots, hn, arena_setArena]
  rfl

omit [Container32 T] in
/-- Between two calls the check passes. -/
theorem Fresh.not_stuck (h : Fresh w) (loads : Loads) : ¬ Stuck w loads := fun hst =>
  absurd (h hst.asserts hst.sealed) (not_lt.mpr hst.wrapped)

theorem Holds.tryReclaim (h : Holds Stores n w l) (loads : Loads) :
    ∃ r, w.tryReclaim loads = .ok r ∧ Drains w r.2 := by
  rcases tryReclaim_spec loads h.even h.sealed_le with ⟨hst, -⟩ | ⟨-, hr⟩
  · exact absurd hst (h.fresh.not_stuck loads)
  · exact hr

/-- The writer that reclaiming leaves; the same one where the check fails. -/
def Reclaimed (w : Writer32 T) (loads : Loads) : Writer32 T :=
  match w.tryReclaim loads with
  | .ok r => r.2
  | .error _ => w

/-- The writer that `ensure_headroom` leaves. -/
def Ensured (w : Writer32 T) (loads : Loads) : Writer32 T :=
  if w.pendingSpare < MUTATION_HEADROOM then Reclaimed w loads else w

/-- The refusal that the reserves are short for, if they are. -/
def refusedFor (w : Writer32 T) (loads : Loads) : Option WriteError :=
  if (Ensured w loads).pendingSpare < MUTATION_HEADROOM then some .reclaimBacklog
  else if w.freeSlots < MUTATION_HEADROOM then some .arenaFull else none

theorem Holds.reclaimed (h : Holds Stores n w l) (loads : Loads) :
    (w.tryReclaim loads).map Prod.snd = .ok (Reclaimed w loads) ∧ Drains w (Reclaimed w loads) := by
  obtain ⟨r, hr, hd⟩ := h.tryReclaim loads
  rw [Reclaimed, hr]
  exact ⟨rfl, hd⟩

theorem Holds.ensured (h : Holds Stores n w l) (loads : Loads) : Drains w (Ensured w loads) := by
  rw [Ensured]
  split_ifs
  · exact (h.reclaimed loads).2
  · exact Drains.refl h.fresh

theorem Holds.ensureHeadroom (h : Holds Stores n w l) (loads : Loads) :
    w.ensureHeadroom loads = .ok (refusedFor w loads, Ensured w loads) := by
  have he : (if w.pendingSpare < MUTATION_HEADROOM then (w.tryReclaim loads).map Prod.snd else .ok w) =
      .ok (Ensured w loads) := by
    rw [Ensured]
    split_ifs
    · exact (h.reclaimed loads).1
    · rfl
  rw [Writer32.ensureHeadroom, he, ok_bind, refusedFor, (h.ensured loads).freeSlots]
  split_ifs <;> rfl

/-- Where every reader is outside, reclaiming empties the pending list. -/
theorem pendingLen_of_outside {loads : Loads} (h : w.allOutside loads = true) :
    (Reclaimed w loads).pendingLen = 0 := by
  rw [Reclaimed, Writer32.tryReclaim]
  split_ifs with hp
  · exact hp
  · show (arena (setArena w.inner _)).pendingLen = 0
    rw [arena_setArena]
    rfl

theorem Holds.backlog_reader {loads : Loads} (h : Holds Stores n w l)
    (hs : (Ensured w loads).pendingSpare < MUTATION_HEADROOM) : ∃ i < n, loads.outside i % 2 = 1 := by
  rw [← h.readers, ← allOutside_eq_false]
  by_contra ho
  rw [Bool.not_eq_false] at ho
  rw [Ensured] at hs
  split_ifs at hs with hlt
  · have hempty := pendingLen_of_outside ho
    obtain ⟨k, hk⟩ := (h.reclaimed loads).2.inner
    have hcap : (arena (Reclaimed w loads).inner).pendingCap = (arena w.inner).pendingCap := by
      rw [hk, arena_setArena]
      rfl
    have hc := h.cap
    rw [Writer32.pendingSpare, Arena.pendingSpare, hcap] at hs
    rw [Writer32.pendingLen, Arena.pendingLen] at hempty
    omega
  · exact hlt hs

theorem room_of_headroom (hp : ¬ w.pendingSpare < MUTATION_HEADROOM) (hf : ¬ w.freeSlots < MUTATION_HEADROOM) :
    Room (arena w.inner) MUTATION_HEADROOM MUTATION_HEADROOM where
  free _ := not_lt.mp hf
  pending _ := by
    have hpos : 0 < MUTATION_HEADROOM := by decide
    rw [Writer32.pendingSpare, Arena.pendingSpare] at hp
    omega

theorem refused_iff {loads : Loads} : (∃ e, refusedFor w loads = some e) ↔
    w.freeSlots < MUTATION_HEADROOM ∨ (Ensured w loads).pendingSpare < MUTATION_HEADROOM := by
  rw [refusedFor]
  split_ifs with hp hf
  · exact ⟨fun _ => .inr hp, fun _ => ⟨_, rfl⟩⟩
  · exact ⟨fun _ => .inl hf, fun _ => ⟨_, rfl⟩⟩
  · refine ⟨?_, fun h => absurd h (not_or.mpr ⟨hf, hp⟩)⟩
    rintro ⟨e, he⟩
    cases he

theorem Holds.backlog_of_refused (h : Holds Stores n w l) {loads : Loads}
    (he : refusedFor w loads = some .reclaimBacklog) : ∃ i < n, loads.outside i % 2 = 1 := by
  rw [refusedFor] at he
  split_ifs at he with hp hf
  · exact h.backlog_reader hp
  · cases he

/-- How one call moves the version, and the version of the snapshot. -/
structure Advances (w w' : Writer32 T) : Prop where
  version : w'.version = w.version ∨ w'.version = w.version + 1 + 1
  snapshot : w'.snapshotVersion = w.snapshotVersion ∨ w'.snapshotVersion = w.version ∨
    w'.snapshotVersion = w'.version
  asserts : w'.asserts = w.asserts

theorem Drains.advances (h : Drains w w') : Advances w w' :=
  ⟨.inl h.version, h.snapshot.imp id .inl, h.asserts⟩

theorem Drains.advances_trans (h : Drains w w') (h' : Advances w' w'') : Advances w w'' where
  version := by rw [← h.version]; exact h'.version
  snapshot := by
    rcases h'.snapshot with hs | hs | hs
    · rw [hs]
      exact h.snapshot.imp id .inl
    · exact .inr (.inl (hs.trans h.version))
    · exact .inr (.inr hs)
  asserts := h'.asserts.trans h.asserts

/-- A bracket that would end in the failing check. -/
def StuckAfter (w : Writer32 T) (loads : Loads) : Prop := Stuck { w with version := w.version + 1 + 1 } loads

/-- What a call leaves that has not been refused. -/
def Served {α : Type} (Stores : T → L → Prop) (n : ℕ) (w : Writer32 T) (stuck : Prop) (out : α) (l' : L)
    (r : Except Trie32.Fault (α × Writer32 T)) : Prop :=
  (stuck ∧ r = .error Trie32.Fault.assertion) ∨
    (¬ stuck ∧ ∃ w', r = .ok (out, w') ∧ Holds Stores n w' l' ∧ Advances w w')

/-- What a call leaves. Refused, it has only reclaimed. -/
def Follows {α β : Type} (Stores : T → L → Prop) (n : ℕ) (w : Writer32 T) (refusal : Option WriteError)
    (stuck : Prop)
    (refused : WriteError → β) (answer : α → β) (out : α) (l' : L)
    (r : Except Trie32.Fault (β × Writer32 T)) : Prop :=
  match refusal with
  | some e => ∃ w', r = .ok (refused e, w') ∧ Drains w w'
  | none => Served Stores n w stuck (answer out) l' r

theorem even_add_two {v : UInt32} (h : v % 2 = 0) : (v + 1 + 1) % 2 = 0 := by
  grind

theorem write_spec {α : Type} {f : T → Except Trie32.Fault (α × T)} {r : α} (hl : Lasting Stores)
    (h : Stands Stores n w l) (hf : f w.inner = .ok (r, c)) (hc : Stores c l')
    (hs : Spent (arena w.inner) (arena c) x y) (loads : Loads) :
    Served Stores n w (StuckAfter w loads) r l' (w.write f loads) := by
  have hbracket : Stands Stores n
      { w with inner := c, root := rootEdge c, len := Container32.len c, version := w.version + 1 + 1 } l' := by
    refine ⟨hc, h.readers, ?_, rfl, rfl, even_add_two h.even, h.sealed_le.trans hs.pending.1⟩
    rw [hs.cap]
    exact h.cap
  -- The check reads none of the words that the mutation has changed.
  have hstuck : StuckAfter w loads ↔
      Stuck { w with inner := c, root := rootEdge c, len := Container32.len c, version :=
        w.version + 1 + 1 } loads :=
    ⟨fun h => ⟨h.asserts, h.sealed, h.inside, h.pinned, h.wrapped⟩,
      fun h => ⟨h.asserts, h.sealed, h.inside, h.pinned, h.wrapped⟩⟩
  have hmoves : ∀ {w'}, Drains
      { w with inner := c, root := rootEdge c, len := Container32.len c, version := w.version + 1 + 1 } w' →
      Advances w w' := fun hd => ⟨.inr hd.version,
    hd.snapshot.imp id fun hv => .inr (hv.trans hd.version.symm), hd.asserts⟩
  rw [Served, hstuck, Writer32.write, hf, ok_bind]
  dsimp only
  split_ifs with hp
  · rcases tryReclaim_spec loads hbracket.even hbracket.sealed_le with ⟨hst, hr⟩ | ⟨hst, r', hr, hd⟩
    · exact .inl ⟨hst, by rw [hr]; rfl⟩
    · exact .inr ⟨hst, r'.2, by rw [hr]; rfl, hd.holds hl hbracket, hmoves hd⟩
  · have hle := hbracket.sealed_le
    have hd := Drains.refl (Fresh.of_unsealed (Nat.le_zero.mp (hle.trans (not_lt.mp hp))))
    refine .inr ⟨fun hst => ?_, _, rfl, hd.holds hl hbracket, hmoves hd⟩
    exact hp (hst.sealed.trans_le hle)

/-- A call that asks for headroom: refused, it has only reclaimed; else it runs, and finds room. -/
theorem guarded_spec {α : Type} {body : Writer32 T → Except Trie32.Fault (α × Writer32 T)} {out : α}
    {stuck : Prop}
    (hl : Lasting Stores) (h : Holds Stores n w l) (env : Env)
    (hbody : ∀ w₁, w₁ = Ensured w env.headroom → Holds Stores n w₁ l →
      Room (arena w₁.inner) MUTATION_HEADROOM MUTATION_HEADROOM → Served Stores n w₁ stuck out l' (body w₁)) :
    Follows Stores n w (refusedFor w env.headroom) stuck .error .ok out l' (w.guarded env body) := by
  have hr := h.ensured env.headroom
  rw [Writer32.guarded, h.ensureHeadroom, ok_bind, refusedFor]
  split_ifs with hp hf
  · exact ⟨_, rfl, hr⟩
  · exact ⟨_, rfl, hr⟩
  · dsimp only
    rcases hbody _ rfl (hr.holds hl h.toStands) (room_of_headroom hp (by rwa [hr.freeSlots])) with
      ⟨hst, hb⟩ | ⟨hst, w', hb, h', hm⟩
    · exact .inl ⟨hst, by rw [hb]; rfl⟩
    · exact .inr ⟨hst, w', by rw [hb]; rfl, h', hr.advances_trans hm⟩

omit [Container32 T] in
theorem Advances.refl (w : Writer32 T) : Advances w w := ⟨.inl rfl, .inl rfl, rfl⟩

theorem Served.still {α : Type} {stuck : Prop} {out : α} {r : Except Trie32.Fault (α × Writer32 T)}
    (hst : ¬ stuck) (hr : r = .ok (out, w)) (h : Holds Stores n w l) : Served Stores n w stuck out l r :=
  .inr ⟨hst, w, hr, h, Advances.refl w⟩

theorem Served.congr {α : Type} {stuck stuck' : Prop} {out : α} {r : Except Trie32.Fault (α × Writer32 T)}
    (hst : stuck ↔ stuck') (h : Served Stores n w stuck out l r) : Served Stores n w stuck' out l r := by
  rwa [← propext hst]

theorem Served.bind {α β : Type} {stuck : Prop} {out : α} {out' : β} {r : Except Trie32.Fault (α × Writer32 T)}
    {g : α × Writer32 T → Except Trie32.Fault (β × Writer32 T)} (h : Served Stores n w stuck out l r)
    (hg : ∀ w', g (out, w') = .ok (out', w')) : Served Stores n w stuck out' l (r >>= g) := by
  rcases h with ⟨hst, rfl⟩ | ⟨hst, w', rfl, h'⟩
  · exact .inl ⟨hst, rfl⟩
  · exact .inr ⟨hst, w', by rw [ok_bind, hg], h'⟩

theorem Follows.answered {α β : Type} {o : Option WriteError} {stuck : Prop} {out : α} {refused : WriteError → β}
    {r : Except Trie32.Fault (Except WriteError α × Writer32 T)} (g : Except WriteError α → β)
    (hg : ∀ e, g (.error e) = refused e) (h : Follows Stores n w o stuck .error .ok out l r) :
    Follows Stores n w o stuck refused id (g (.ok out)) l (answered g r) := by
  cases o with
  | some e =>
    obtain ⟨w', rfl, hd⟩ := h
    exact ⟨w', by rw [← hg]; rfl, hd⟩
  | none =>
    rcases h with ⟨hst, rfl⟩ | ⟨hst, w', rfl, h'⟩
    · exact .inl ⟨hst, rfl⟩
    · exact .inr ⟨hst, w', rfl, h'⟩

/-- The calls of a writer, beside what they do to the reference, which of them ask for headroom, and which
of them open a bracket once they have it. -/
structure Api (T L Op Out : Type) where
  step : Writer32 T → Op × Env → Except Trie32.Fault (Out × Writer32 T)
  refStep : L → Op → Out × L
  asksHeadroom : L → Op → Bool
  opensBracket : L → Op → Bool
  refused : WriteError → Out

namespace Api

variable {Op Out : Type} (api : Api T L Op Out)

def refusal (w : Writer32 T) (l : L) (call : Op × Env) : Option WriteError :=
  if api.asksHeadroom l call.1 then refusedFor w call.2.headroom else none

/-- The call would open a bracket, and a debug build would find behind its sealed prefix a reader that has
stayed in one walk for half a wrap of the version. -/
def Overpinned (w : Writer32 T) (l : L) (call : Op × Env) : Prop :=
  api.opensBracket l call.1 = true ∧ api.refusal w l call = none ∧
    StuckAfter (Ensured w call.2.headroom) call.2.after

/-- An answer to a call: that of the reference, or a refusal that leaves it alone. A backlog is refused
only while a reader is inside a walk. -/
def Answers (readers : ℕ) (l : L) (call : Op × Env) (out : Out) (l' : L) : Prop :=
  (out, l') = api.refStep l call.1 ∨
    ∃ e, out = api.refused e ∧ l' = l ∧ api.asksHeadroom l call.1 = true ∧
      (e = .reclaimBacklog → ∃ i < readers, call.2.headroom.outside i % 2 = 1)

/-- Every call does what the reference does, once it is not refused and does not end in the check. -/
def Serves (Stores : T → L → Prop) : Prop :=
  ∀ {n w l} (op : Op) (env : Env), Holds Stores n w l →
    Follows Stores n w (api.refusal w l (op, env))
      (api.opensBracket l op = true ∧ StuckAfter (Ensured w env.headroom) env.after) api.refused id
      (api.refStep l op).1 (api.refStep l op).2 (api.step w (op, env))

/-- What is known of all runs from one state. -/
structure RunsAs (Stores : T → L → Prop) (n : ℕ) (w₀ : Writer32 T) (l₀ : L)
    (calls : List (Op × Env)) : Prop where
  answers : ∀ outs w, run api.step w₀ calls = .ok (outs, w) →
    ∃ l, Traces (api.Answers n) l₀ calls outs l ∧ Holds Stores n w l
  faults : ∀ f, run api.step w₀ calls = .error f ↔ f = Trie32.Fault.assertion ∧
    ∃ before call after outs w l, calls = before ++ call :: after ∧ run api.step w₀ before = .ok (outs, w) ∧
      Traces (api.Answers n) l₀ before outs l ∧ Holds Stores n w l ∧ api.Overpinned w l call
  completes : w₀.asserts = false ∨ calls.length < 2 ^ 29 → ∃ outs w, run api.step w₀ calls = .ok (outs, w)

variable {api} {call : Op × Env} {out : Out} {calls : List (Op × Env)} {k : ℕ}

theorem Serves.step_error_iff (hs : api.Serves Stores) (h : Holds Stores n w l) {f : Trie32.Fault} :
    api.step w call = .error f ↔ f = Trie32.Fault.assertion ∧ api.Overpinned w l call := by
  have hstep := hs call.1 call.2 h
  rw [Overpinned]
  cases hr : api.refusal w l call with
  | some e =>
    rw [hr] at hstep
    obtain ⟨w', ho, -⟩ := hstep
    rw [show api.step w call = .ok (api.refused e, w') from ho]
    simp only [reduceCtorEq, false_and, and_false]
  | none =>
    rw [hr] at hstep
    rcases hstep with ⟨⟨hb, hst⟩, hf⟩ | ⟨hst, w', ho, -⟩
    · rw [show api.step w call = .error Trie32.Fault.assertion from hf]
      refine ⟨fun he => ⟨(Except.error.inj he).symm, hb, rfl, hst⟩, fun he => by rw [he.1]⟩
    · rw [show api.step w call = .ok ((api.refStep l call.1).1, w') from ho]
      exact ⟨nofun, fun he => absurd ⟨he.2.1, he.2.2.2⟩ hst⟩

theorem Serves.step_answers (hs : api.Serves Stores) (hl : Lasting Stores) (h : Holds Stores n w l)
    (ho : api.step w call = .ok (out, w')) : ∃ l', api.Answers n l call out l' ∧ Holds Stores n w' l' ∧
      Advances w w' := by
  have hstep := hs call.1 call.2 h
  cases hr : api.refusal w l call with
  | some e =>
    rw [hr] at hstep
    obtain ⟨w₁, ho', hd⟩ := hstep
    cases ho.symm.trans ho'
    rw [refusal] at hr
    split_ifs at hr with ha
    refine ⟨l, .inr ⟨e, rfl, rfl, ha, ?_⟩, hd.holds hl h.toStands, hd.advances⟩
    rintro rfl
    exact h.backlog_of_refused hr
  | none =>
    rw [hr] at hstep
    rcases hstep with ⟨-, hf⟩ | ⟨-, w₁, ho', h', hm⟩
    · cases ho.symm.trans hf
    · cases ho.symm.trans ho'
      exact ⟨_, .inl rfl, h', hm⟩

/-- After `k` calls the version has moved by at most two for each of them. -/
def Young (k : ℕ) (w : Writer32 T) : Prop :=
  k < 2 ^ 29 → w.snapshotVersion.toNat ≤ w.version.toNat ∧ w.version.toNat ≤ 2 * k

theorem toNat_add_two {v : UInt32} (hv : v.toNat < 2 ^ 31) : (v + 1 + 1).toNat = v.toNat + 2 := by
  rw [UInt32.toNat_add, UInt32.toNat_add, UInt32.toNat_one]
  omega

omit [Container32 T] in
theorem Advances.young (hm : Advances w w') (h : Young k w) : Young (k + 1) w' := by
  intro hk
  obtain ⟨hle, hv⟩ := h (by omega)
  have hnext : w.version.toNat ≤ w'.version.toNat ∧ w'.version.toNat ≤ 2 * (k + 1) := by
    rcases hm.version with he | he
    · rw [he]
      omega
    · rw [he, toNat_add_two (by omega)]
      omega
  refine ⟨?_, hnext.2⟩
  rcases hm.snapshot with he | he | he
  · rw [he]
    exact hle.trans hnext.1
  · rw [he]
    exact hnext.1
  · rw [he]

theorem Young.not_overpinned (hy : Young k w) (h : Holds Stores n w l) (hk : k + 1 < 2 ^ 29) :
    ¬ api.Overpinned w l call := by
  rintro ⟨-, -, hst⟩
  obtain ⟨hle, hv⟩ := hy (by omega)
  have hd := h.ensured call.2.headroom
  have hs : (Ensured w call.2.headroom).snapshotVersion.toNat ≤ w.version.toNat := by
    rcases hd.snapshot with he | he
    · rwa [he]
    · rw [he]
  have hw : 2 ^ 30 ≤ ((Ensured w call.2.headroom).version + 1 + 1 -
      (Ensured w call.2.headroom).snapshotVersion).toNat :=
    hst.wrapped
  have hadd := toNat_add_two (v := w.version) (by omega)
  rw [hd.version, UInt32.toNat_sub_of_le _ _ (UInt32.le_iff_toNat_le.mpr (by omega)), hadd] at hw
  omega

theorem Serves.runsAs (hs : api.Serves Stores) (hl : Lasting Stores) {w₀ : Writer32 T} {l₀ : L}
    (h : Holds Stores n w₀ l₀) (hv : w₀.version = 0) (hsv : w₀.snapshotVersion = 0) (calls : List (Op × Env)) :
    api.RunsAs Stores n w₀ l₀ calls := by
  have hrun : ∀ {calls : List (Op × Env)} {outs w}, run api.step w₀ calls = .ok (outs, w) → ∃ l,
      Traces (api.Answers n) l₀ calls outs l ∧ Holds Stores n w l ∧ Young calls.length w ∧
        w.asserts = w₀.asserts := by
    intro calls outs w hr
    have hfirst : Young 0 w₀ := by
      intro _
      rw [hv, hsv]
      decide
    have ht := run_ok_traces (R := api.Answers n) (n := 0)
      (I := fun k w l => Holds Stores n w l ∧ Young k w ∧ w.asserts = w₀.asserts)
      (fun k w l call out w' hi ho => by
        obtain ⟨l', ha, h', hm⟩ := hs.step_answers hl hi.1 ho
        exact ⟨l', ha, h', Advances.young hm hi.2.1, hm.asserts.trans hi.2.2⟩) ⟨h, hfirst, rfl⟩ hr
    rwa [Nat.zero_add] at ht
  have hfault : ∀ f, run api.step w₀ calls = .error f ↔ f = Trie32.Fault.assertion ∧
      ∃ before call after outs w l, calls = before ++ call :: after ∧ run api.step w₀ before = .ok (outs, w) ∧
        Traces (api.Answers n) l₀ before outs l ∧ Holds Stores n w l ∧ api.Overpinned w l call := by
    intro f
    rw [run_error_iff]
    constructor
    · rintro ⟨before, call, after, outs, w, he, hb, hf⟩
      obtain ⟨l, ht, h', -⟩ := hrun hb
      obtain ⟨rfl, ho⟩ := (hs.step_error_iff h').mp hf
      exact ⟨rfl, before, call, after, outs, w, l, he, hb, ht, h', ho⟩
    · rintro ⟨rfl, before, call, after, outs, w, l, he, hb, -, h', ho⟩
      exact ⟨before, call, after, outs, w, he, hb, (hs.step_error_iff h').mpr ⟨rfl, ho⟩⟩
  refine ⟨fun outs w hr => ?_, hfault, fun hshort => ?_⟩
  · obtain ⟨l, ht, h', -⟩ := hrun hr
    exact ⟨l, ht, h'⟩
  · cases hr : run api.step w₀ calls with
    | ok r => exact ⟨r.1, r.2, rfl⟩
    | error f =>
      obtain ⟨-, before, call, after, outs, w, l, rfl, hb, -, h', ho⟩ := (hfault f).mp hr
      obtain ⟨l', -, -, hy, ha⟩ := hrun hb
      rcases hshort with hrel | hshort
      · have hasserts := (h'.ensured call.2.headroom).asserts.symm.trans ho.2.2.asserts
        rw [ha, hrel] at hasserts
        cases hasserts
      · rw [List.length_append, List.length_cons] at hshort
        exact absurd ho (hy.not_overpinned h' (by omega))

/-- A call is refused exactly when it asks for headroom and one of the two reserves is short; it leaves the
nodes, and the words that readers see, as they were. -/
theorem Serves.refuses (hs : api.Serves Stores) (hne : ∀ l op e, (api.refStep l op).1 ≠ api.refused e)
    (h : Holds Stores n w l) (call : Op × Env) :
    ((∃ e w', api.step w call = .ok (api.refused e, w')) ↔ api.asksHeadroom l call.1 = true ∧
      (w.freeSlots < MUTATION_HEADROOM ∨ (Ensured w call.2.headroom).pendingSpare < MUTATION_HEADROOM)) ∧
    ∀ e w', api.step w call = .ok (api.refused e, w') → Drains w w' := by
  have hstep := hs call.1 call.2 h
  rw [← refused_iff]
  cases hr : api.refusal w l call with
  | some e =>
    rw [hr] at hstep
    obtain ⟨w₁, ho, hd⟩ := hstep
    rw [refusal] at hr
    split_ifs at hr with ha
    refine ⟨⟨fun _ => ⟨ha, e, hr⟩, fun _ => ⟨e, w₁, ho⟩⟩, fun e' w' ho' => ?_⟩
    rw [(Prod.mk.inj (Except.ok.inj (ho'.symm.trans ho))).2]
    exact hd
  | none =>
    rw [hr] at hstep
    have hno : ∀ e w', api.step w call ≠ .ok (api.refused e, w') := by
      intro e w' ho
      rcases hstep with ⟨-, hf⟩ | ⟨-, w₁, ho', -⟩
      · cases ho.symm.trans hf
      · exact hne l call.1 e (congrArg Prod.fst (Except.ok.inj (ho'.symm.trans ho)))
    refine ⟨⟨?_, ?_⟩, fun e w' ho => absurd ho (hno e w')⟩
    · rintro ⟨e, w', ho⟩
      exact absurd ho (hno e w')
    · rintro ⟨ha, e, he⟩
      rw [refusal, if_pos ha, he] at hr
      cases hr

end Api

end Expanse.Sync32
