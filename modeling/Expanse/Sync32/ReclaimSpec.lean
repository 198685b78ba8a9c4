import Expanse.Sync32.Reclaim

/-!
# Nothing is dropped under a walk

The invariant says what each place of the writer has already established: in the first loop
no reader passed so far is in a walk that could hold a parked allocation, in the second
none could hold a sealed one, and in the third the snapshot has the counter of every reader
passed that could. A reader's own steps keep all of it, since a walk that begins samples a
version past every parked allocation.
-/

namespace Expanse.Sync32

variable {s s' : State} {r r' : Reader} {p : Parked} {i n cap : ℕ}

/-- The counter is odd inside a walk, and a walk has sampled an even version. -/
structure Reader.Ok (version : ℕ) (r : Reader) : Prop where
  lt : r.walk < WALK
  odd_iff : r.walk % 2 = 1 ↔ r.phase ≠ .outside
  sampled : ∀ v, r.phase = .walking v → v ≤ version ∧ v % 2 = 0

/-- What the loops of `try_reclaim` have established at each place of the writer. -/
def Established (s : State) : Place → Prop
  | .idle => True
  | .bracket => True
  | .outside i => s.pending ≠ [] ∧
    ∀ (j : ℕ) (r : Reader), j < i → s.readers[j]? = some r → ∀ p ∈ s.pending, ¬ r.CouldHold p
  | .elapsed i => 0 < s.sealed ∧
    ∀ (j : ℕ) (r : Reader), j < i → s.readers[j]? = some r → ∀ p ∈ s.pending.take s.sealed, ¬ r.CouldHold p
  | .sealing i => s.sealed = 0 ∧
    ∀ (j : ℕ) (r : Reader), j < i → s.readers[j]? = some r → ∀ p ∈ s.pending, r.CouldHold p →
      s.snapshot[j]? = some r.walk

structure Inv (s : State) : Prop where
  parity : s.version % 2 = 1 ↔ s.place = .bracket
  readers : ∀ r ∈ s.readers, r.Ok s.version
  stamps : ∀ p ∈ s.dropped ++ s.pending, p.unlinked ≤ s.version
  snapshot : s.snapshot.length = s.readers.length
  sealed_le : s.sealed ≤ s.pending.length
  bytes : s.pendingBytes = totalBytes s.pending
  retired : s.retired = (s.dropped ++ s.pending).map Parked.id
  nodup : (s.linked.map Prod.fst ++ s.retired).Nodup
  fresh : ∀ x ∈ s.linked.map Prod.fst ++ s.retired, x < s.fresh
  safe : ∀ p ∈ s.dropped, ∀ r ∈ s.readers, ¬ r.CouldHold p
  held : ∀ r ∈ s.readers, ∀ x ∈ r.held, ∃ v, r.phase = .walking v ∧
    (x ∈ s.linked.map Prod.fst ∨ ∃ p ∈ s.pending, p.id = x ∧ v < p.unlinked)
  covered : ∀ (j : ℕ) (r : Reader), s.readers[j]? = some r → ∀ p ∈ s.pending.take s.sealed, r.CouldHold p →
    s.snapshot[j]? = some r.walk
  established : Established s s.place

theorem inv_new (n cap : ℕ) : Inv (.new n cap) where
  parity := by simp [State.new]
  readers := by
    intro r hr
    rw [List.eq_of_mem_replicate hr]
    exact ⟨by decide, by simp, by simp⟩
  stamps := by simp [State.new]
  snapshot := by simp [State.new]
  sealed_le := by simp [State.new]
  bytes := rfl
  retired := rfl
  nodup := by simp [State.new]
  fresh := by simp [State.new]
  safe := by simp [State.new]
  held := by
    intro r hr x hx
    rw [List.eq_of_mem_replicate hr] at hx
    cases hx
  covered := by simp [State.new]
  established := trivial

/-- What one reader's step may do: its new walk could hold nothing that its walk could not, and as
long as it could hold something its counter stays. -/
structure Moves (s : State) (r r' : Reader) : Prop where
  ok : r'.Ok s.version
  couldHold : ∀ p : Parked, p.unlinked ≤ s.version → r'.CouldHold p →
    r.CouldHold p ∧ r'.walk = r.walk
  held : ∀ x ∈ r'.held, ∃ v, r'.phase = .walking v ∧
    (x ∈ s.linked.map Prod.fst ∨ ∃ p ∈ s.pending, p.id = x ∧ v < p.unlinked)

theorem Inv.stamp (h : Inv s) (hp : p ∈ s.pending) : p.unlinked ≤ s.version :=
  h.stamps p (List.mem_append_right _ hp)

theorem reader_cases {j : ℕ} {q : Reader} (hr : s.readers[i]? = some r)
    (hq : (s.setReader i r').readers[j]? = some q) :
    (j = i ∧ q = r') ∨ (j ≠ i ∧ s.readers[j]? = some q) := by
  have hlt := (List.getElem?_eq_some_iff.mp hr).1
  rw [State.setReader, List.getElem?_set] at hq
  split_ifs at hq with hij
  · cases hq
    exact .inl ⟨hij.symm, rfl⟩
  · exact .inr ⟨fun hji => hij hji.symm, hq⟩

theorem Inv.setReader (h : Inv s) (hr : s.readers[i]? = some r) (hm : Moves s r r') :
    Inv (s.setReader i r') := by
  have hmem := List.mem_of_getElem? hr
  -- a property of every reader with its position, after the step
  have hall : ∀ {P : ℕ → Reader → Prop}, (∀ j q, s.readers[j]? = some q → P j q) → P i r' →
      ∀ j q, (s.setReader i r').readers[j]? = some q → P j q := by
    intro P hP hi j q hq
    rcases reader_cases hr hq with ⟨rfl, rfl⟩ | ⟨-, hq⟩
    · exact hi
    · exact hP j q hq
  have hmemAll : ∀ {P : Reader → Prop}, (∀ q ∈ s.readers, P q) → P r' →
      ∀ q ∈ (s.setReader i r').readers, P q := by
    intro P hP hi q hq
    obtain ⟨j, hj⟩ := List.mem_iff_getElem?.mp hq
    exact hall (P := fun _ q => P q) (fun j q hq => hP q (List.mem_of_getElem? hq)) hi j q hj
  refine
    { parity := h.parity
      readers := hmemAll h.readers hm.ok
      stamps := h.stamps
      snapshot := by rw [State.setReader, List.length_set]; exact h.snapshot
      sealed_le := h.sealed_le
      bytes := h.bytes
      retired := h.retired
      nodup := h.nodup
      fresh := h.fresh
      safe := ?_
      held := hmemAll h.held hm.held
      covered := ?_
      established := ?_ }
  · intro p hp
    refine hmemAll (fun q hq => h.safe p hp q hq) fun hc => ?_
    exact h.safe p hp r hmem (hm.couldHold p (h.stamps p (List.mem_append_left _ hp)) hc).1
  · refine hall h.covered ?_
    intro p hp hc
    obtain ⟨hc', hw⟩ := hm.couldHold p (h.stamp (List.mem_of_mem_take hp)) hc
    rw [hw]
    exact h.covered i r hr p hp hc'
  · have hest := h.established
    show Established (s.setReader i r') s.place
    cases hpl : s.place with
    | idle => trivial
    | bracket => trivial
    | outside k =>
      rw [hpl] at hest
      refine ⟨hest.1, fun j q hj hq => ?_⟩
      revert hj
      refine hall (P := fun j q => j < k → ∀ p ∈ s.pending, ¬ q.CouldHold p)
        (fun j q hq hj => hest.2 j q hj hq) ?_ j q hq
      intro hi p hp hc
      exact hest.2 i r hi hr p hp (hm.couldHold p (h.stamp hp) hc).1
    | elapsed k =>
      rw [hpl] at hest
      refine ⟨hest.1, fun j q hj hq => ?_⟩
      revert hj
      refine hall (P := fun j q => j < k → ∀ p ∈ s.pending.take s.sealed, ¬ q.CouldHold p)
        (fun j q hq hj => hest.2 j q hj hq) ?_ j q hq
      intro hi p hp hc
      exact hest.2 i r hi hr p hp (hm.couldHold p (h.stamp (List.mem_of_mem_take hp)) hc).1
    | sealing k =>
      rw [hpl] at hest
      refine ⟨hest.1, fun j q hj hq => ?_⟩
      revert hj
      refine hall (P := fun j q => j < k → ∀ p ∈ s.pending, q.CouldHold p →
          s.snapshot[j]? = some q.walk) (fun j q hq hj => hest.2 j q hj hq) ?_ j q hq
      intro hi p hp hc
      obtain ⟨hc', hw⟩ := hm.couldHold p (h.stamp hp) hc
      rw [hw]
      exact hest.2 i r hi hr p hp hc'

theorem not_couldHold (h : ∀ v, r.phase ≠ .walking v) : ¬ r.CouldHold p := by
  rintro ⟨v, hv, -⟩
  exact h v hv

theorem inv_pin (h : Inv s) (hs : s.pin i = some s') : Inv s' := by
  unfold State.pin at hs
  split at hs
  · next r hr =>
    split at hs
    · next hph =>
      cases hs
      have hok := h.readers r (List.mem_of_getElem? hr)
      have heven : r.walk % 2 = 0 := by
        have := hok.odd_iff
        simp only [hph, ne_eq, not_true_eq_false, iff_false] at this
        omega
      refine h.setReader hr ⟨⟨Nat.mod_lt _ (by decide), ?_, by simp⟩, ?_, ?_⟩
      · simp only [ne_eq, reduceCtorEq, not_false_eq_true, iff_true]
        rw [Nat.mod_mod_of_dvd _ (by decide)]
        omega
      · intro p _ hc
        exact absurd hc (not_couldHold (by simp))
      · intro x hx
        obtain ⟨v, hv, -⟩ := h.held r (List.mem_of_getElem? hr) x hx
        rw [hph] at hv
        cases hv
    · cases hs
  · cases hs

theorem inv_sample (h : Inv s) (hs : s.sample i = some s') : Inv s' := by
  unfold State.sample at hs
  split at hs
  · next r hr =>
    split at hs
    · next hph =>
      split_ifs at hs with hv
      · cases hs
        have hok := h.readers r (List.mem_of_getElem? hr)
        refine h.setReader hr ⟨⟨hok.lt, ?_, ?_⟩, ?_, ?_⟩
        · rw [hok.odd_iff]
          simp [hph]
        · intro v hw
          cases hw
          exact ⟨le_rfl, hv⟩
        · rintro p hp ⟨v, hw, hlt⟩
          cases hw
          omega
        · intro x hx
          obtain ⟨v, hw, -⟩ := h.held r (List.mem_of_getElem? hr) x hx
          rw [hph] at hw
          cases hw
      · cases hs
        exact h
    · cases hs
  · cases hs

theorem inv_resolve {id : ℕ} (h : Inv s) (hs : s.resolve i id = some s') : Inv s' := by
  unfold State.resolve at hs
  split at hs
  · next r hr =>
    split at hs
    · next v hph =>
      split_ifs at hs with hreach
      cases hs
      have hok := h.readers r (List.mem_of_getElem? hr)
      refine h.setReader hr ⟨⟨hok.lt, hok.odd_iff, hok.sampled⟩, fun p _ hc => ⟨hc, rfl⟩, ?_⟩
      intro x hx
      rcases List.mem_cons.mp hx with rfl | hx
      · exact ⟨v, hph, hreach⟩
      · exact h.held r (List.mem_of_getElem? hr) x hx
    · cases hs
  · cases hs

theorem inv_unpin (h : Inv s) (hs : s.unpin i = some s') : Inv s' := by
  unfold State.unpin at hs
  split at hs
  · next r hr =>
    split at hs
    · cases hs
    · next hph =>
      cases hs
      have hok := h.readers r (List.mem_of_getElem? hr)
      have hodd := hok.odd_iff.mpr hph
      refine h.setReader hr ⟨⟨Nat.mod_lt _ (by decide), ?_, by simp⟩, ?_, by simp⟩
      · simp only [ne_eq, not_true_eq_false, iff_false]
        rw [Nat.mod_mod_of_dvd _ (by decide)]
        omega
      · intro p _ hc
        exact absurd hc (not_couldHold (by simp))
  · cases hs

/-- A step of the writer that leaves the readers and the lists of parked allocations alone. -/
theorem Inv.quiet (h : Inv s) {version sealed : ℕ} {place : Place} (hv : s.version ≤ version)
    (hp : version % 2 = 1 ↔ place = .bracket) (hs : sealed = s.sealed ∨ sealed = 0)
    (he : Established { s with version := version, sealed := sealed, place := place } place) :
    Inv { s with version := version, sealed := sealed, place := place } where
  parity := hp
  readers r hr := by
    have hok := h.readers r hr
    refine ⟨hok.lt, hok.odd_iff, fun v hw => ?_⟩
    obtain ⟨hle, heven⟩ := hok.sampled v hw
    exact ⟨hle.trans hv, heven⟩
  stamps p hp := (h.stamps p hp).trans hv
  snapshot := h.snapshot
  sealed_le := by
    rcases hs with rfl | rfl
    · exact h.sealed_le
    · exact Nat.zero_le _
  bytes := h.bytes
  retired := h.retired
  nodup := h.nodup
  fresh := h.fresh
  safe := h.safe
  held := h.held
  covered j r hr p hp hc := by
    rcases hs with rfl | rfl
    · exact h.covered j r hr p hp hc
    · exact absurd hp (by simp)
  established := he

theorem inv_startReclaim (h : Inv s) {version : ℕ} (hv : s.version ≤ version)
    (heven : version % 2 = 0) : Inv { s with version := version }.startReclaim := by
  unfold State.startReclaim
  split_ifs with hp
  · exact h.quiet hv (by simp [heven]) (.inr rfl) trivial
  · refine h.quiet hv (by simp [heven]) (.inl rfl) ⟨hp, ?_⟩
    intro j r hj
    omega

theorem inv_openBracket (h : Inv s) (hs : s.openBracket = some s') : Inv s' := by
  unfold State.openBracket at hs
  split_ifs at hs with hpl
  cases hs
  have heven : ¬ s.version % 2 = 1 := by
    rw [h.parity, hpl]
    simp
  refine h.quiet (Nat.le_succ _) ?_ (.inl rfl) trivial
  rw [iff_true_right rfl]
  omega

theorem inv_closeBracket (h : Inv s) (hs : s.closeBracket = some s') : Inv s' := by
  unfold State.closeBracket at hs
  split_ifs at hs with hpl
  cases hs
  have hodd := h.parity.mpr hpl
  split_ifs
  · exact inv_startReclaim h (Nat.le_succ _) (by omega)
  · refine h.quiet (Nat.le_succ _) ?_ (.inl rfl) trivial
    simp only [reduceCtorEq, iff_false]
    omega

theorem inv_tryReclaim (h : Inv s) (hs : s.tryReclaim = some s') : Inv s' := by
  unfold State.tryReclaim at hs
  split_ifs at hs with hpl
  cases hs
  have heven : ¬ s.version % 2 = 1 := by
    rw [h.parity, hpl]
    simp
  exact inv_startReclaim h le_rfl (by omega)

theorem inv_link {bytes : ℕ} (h : Inv s) (hs : s.link bytes = some s') : Inv s' := by
  unfold State.link at hs
  split_ifs at hs with hpl
  cases hs
  refine
    { parity := h.parity
      readers := h.readers
      stamps := h.stamps
      snapshot := h.snapshot
      sealed_le := h.sealed_le
      bytes := h.bytes
      retired := h.retired
      nodup := ?_
      fresh := ?_
      safe := h.safe
      held := ?_
      covered := h.covered
      established := ?_ }
  · refine List.nodup_cons.mpr ⟨fun hm => ?_, h.nodup⟩
    exact absurd (h.fresh _ hm) (lt_irrefl _)
  · intro x hx
    rcases List.mem_cons.mp hx with rfl | hx
    · exact Nat.lt_succ_self _
    · exact Nat.lt_succ_of_lt (h.fresh x hx)
  · intro r hr x hx
    obtain ⟨v, hv, hreach⟩ := h.held r hr x hx
    exact ⟨v, hv, hreach.imp_left (List.mem_cons_of_mem _)⟩
  · show Established _ s.place
    rw [hpl]
    trivial

theorem inv_retire {id : ℕ} (h : Inv s) (hs : s.retire id = some s') : Inv s' := by
  unfold State.retire at hs
  split_ifs at hs with hpl
  split at hs
  · next x bytes hfind =>
    unfold State.pushPending at hs
    split_ifs at hs with hroom
    cases hs
    obtain ⟨hx, hmem⟩ : x = id ∧ (x, bytes) ∈ s.linked :=
      ⟨by simpa using List.find?_some hfind, List.mem_of_find?_eq_some hfind⟩
    subst hx
    have hkeys : (s.linked.filter (·.1 ≠ x)).map Prod.fst = (s.linked.map Prod.fst).filter (· ≠ x) := by
      rw [List.filter_map]
      rfl
    have hodd := h.parity.mpr hpl
    refine
      { parity := h.parity
        readers := h.readers
        stamps := ?_
        snapshot := h.snapshot
        sealed_le := ?_
        bytes := ?_
        retired := ?_
        nodup := ?_
        fresh := ?_
        safe := h.safe
        held := ?_
        covered := ?_
        established := ?_ }
    · intro p hp
      simp only [List.mem_append, List.mem_singleton] at hp
      rcases hp with hp | hp | rfl
      · exact h.stamps p (List.mem_append_left _ hp)
      · exact h.stamp hp
      · exact le_rfl
    · simp only [List.length_append, List.length_singleton]
      have := h.sealed_le
      omega
    · show s.pendingBytes + bytes = totalBytes (s.pending ++ [_])
      simp [totalBytes, h.bytes]
    · show s.retired ++ [x] = _
      simp [h.retired]
    · show ((s.linked.filter (·.1 ≠ x)).map Prod.fst ++ (s.retired ++ [x])).Nodup
      rw [hkeys, ← List.append_assoc, List.nodup_append_comm, List.singleton_append, List.nodup_cons]
      have hnd := List.nodup_append'.mp h.nodup
      refine ⟨?_, List.nodup_append'.mpr ⟨hnd.1.filter _, hnd.2.1, ?_⟩⟩
      · rw [List.mem_append, not_or]
        exact ⟨by simp, fun hr => hnd.2.2 (List.mem_map_of_mem hmem) hr⟩
      · exact fun y hy hr => hnd.2.2 (List.mem_of_mem_filter hy) hr
    · intro y hy
      refine h.fresh y ?_
      change y ∈ (s.linked.filter (·.1 ≠ x)).map Prod.fst ++ (s.retired ++ [x]) at hy
      rw [hkeys] at hy
      simp only [List.mem_append, List.mem_filter, List.mem_singleton] at hy
      rw [List.mem_append]
      rcases hy with hy | hy | rfl
      · exact .inl hy.1
      · exact .inr hy
      · exact .inl (List.mem_map_of_mem hmem)
    · -- what a walk holds stays live, or was unlinked after its sample
      intro r hr y hy
      obtain ⟨v, hv, hreach⟩ := h.held r hr y hy
      refine ⟨v, hv, ?_⟩
      rcases hreach with hlive | ⟨p, hp, hid, hlt⟩
      · by_cases hyx : y = x
        · right
          obtain ⟨hle, heven⟩ := (h.readers r hr).sampled v hv
          refine ⟨⟨x, bytes, s.version⟩, by simp, hyx.symm, ?_⟩
          show v < s.version
          omega
        · left
          show y ∈ (s.linked.filter (·.1 ≠ x)).map Prod.fst
          rw [hkeys, List.mem_filter]
          exact ⟨hlive, by simpa using hyx⟩
      · exact .inr ⟨p, List.mem_append_left _ hp, hid, hlt⟩
    · intro j r hr p hp hc
      refine h.covered j r hr p ?_ hc
      change p ∈ (s.pending ++ [_]).take s.sealed at hp
      rwa [List.take_append_of_le_length h.sealed_le] at hp
    · show Established _ s.place
      rw [hpl]
      trivial
  · cases hs

/-- The writer is at a load of `try_reclaim`, so no bracket is open. -/
theorem Inv.even (h : Inv s) (hpl : s.place ≠ .bracket) : s.version % 2 = 0 := by
  have := h.parity.not.mpr hpl
  omega

theorem Inv.drop (h : Inv s) (hpl : s.place ≠ .bracket) {m : ℕ}
    (hfree : ∀ (j : ℕ) (r : Reader), s.readers[j]? = some r →
      ∀ p ∈ s.pending.take m, ¬ r.CouldHold p) :
    Inv { s with
      pending := s.pending.drop m
      pendingBytes := s.pendingBytes - totalBytes (s.pending.take m)
      dropped := s.dropped ++ s.pending.take m
      sealed := 0
      place := .idle } where
  parity := by simp [h.even hpl]
  readers := h.readers
  stamps := by
    show ∀ p ∈ (s.dropped ++ s.pending.take m) ++ s.pending.drop m, _
    rw [List.append_assoc, List.take_append_drop]
    exact h.stamps
  snapshot := h.snapshot
  sealed_le := Nat.zero_le _
  bytes := by
    have hsum : totalBytes s.pending = totalBytes (s.pending.take m) + totalBytes (s.pending.drop m) := by
      rw [totalBytes, totalBytes, totalBytes, ← List.sum_append, ← List.map_append,
        List.take_append_drop]
    show s.pendingBytes - totalBytes (s.pending.take m) = totalBytes (s.pending.drop m)
    rw [h.bytes, hsum, Nat.add_sub_cancel_left]
  retired := by
    show s.retired = ((s.dropped ++ s.pending.take m) ++ s.pending.drop m).map Parked.id
    rw [List.append_assoc, List.take_append_drop]
    exact h.retired
  nodup := h.nodup
  fresh := h.fresh
  safe := by
    intro p hp r hr
    rcases List.mem_append.mp hp with hp | hp
    · exact h.safe p hp r hr
    · obtain ⟨j, hj⟩ := List.mem_iff_getElem?.mp hr
      exact hfree j r hj p hp
  held := by
    intro r hr x hx
    obtain ⟨v, hv, hreach⟩ := h.held r hr x hx
    refine ⟨v, hv, hreach.imp_right ?_⟩
    rintro ⟨p, hp, hid, hlt⟩
    refine ⟨p, ?_, hid, hlt⟩
    rw [← List.take_append_drop m s.pending, List.mem_append] at hp
    obtain ⟨j, hj⟩ := List.mem_iff_getElem?.mp hr
    exact hp.resolve_left fun hp => hfree j r hj p hp ⟨v, hv, hlt⟩
  covered := by simp
  established := trivial

theorem inv_reseal (h : Inv s) (hpl : s.place ≠ .bracket) : Inv s.reseal := by
  unfold State.reseal
  have heven := h.even hpl
  split_ifs with hc
  · refine h.quiet le_rfl (by simp [heven]) (.inl rfl) ⟨hc.2, ?_⟩
    intro j r hj
    omega
  · exact h.quiet le_rfl (by simp [heven]) (.inl rfl) trivial

theorem not_couldHold_of_even (h : r.Ok s.version) (heven : r.walk % 2 = 0) : ¬ r.CouldHold p := by
  apply not_couldHold
  intro v hv
  have := h.odd_iff.mpr (by simp [hv])
  omega

theorem couldHold_odd (h : r.Ok s.version) (hc : r.CouldHold p) : r.walk % 2 = 1 := by
  obtain ⟨v, hv, -⟩ := hc
  exact h.odd_iff.mpr (by simp [hv])

theorem inv_advance_outside (h : Inv s) (hpl : s.place = .outside i) (hs : s.advance = some s') :
    Inv s' := by
  have hest := h.established
  have hne : s.place ≠ .bracket := by simp [hpl]
  rw [hpl] at hest
  simp only [State.advance, hpl] at hs
  split at hs
  · next r hr =>
    split_ifs at hs with heven hsealed
    · cases hs
      refine h.quiet le_rfl (by simp [h.even hne]) (.inl rfl) ⟨hest.1, ?_⟩
      intro j q hj hq
      rcases Nat.lt_or_eq_of_le (Nat.lt_succ_iff.mp hj) with hlt | rfl
      · exact hest.2 j q hlt hq
      · cases hr.symm.trans hq
        intro p _
        exact not_couldHold_of_even (h.readers r (List.mem_of_getElem? hr)) heven
    · cases hs
      refine h.quiet le_rfl (by simp [h.even hne]) (.inl rfl) ⟨hsealed, ?_⟩
      intro j q hj
      omega
    · cases hs
      exact inv_reseal h hne
  · next hnone =>
    cases hs
    -- every reader has been seen outside since the last bracket
    have hlen := List.getElem?_eq_none_iff.mp hnone
    have hdrop := h.drop hne (m := s.pending.length) (by
      intro j r hr p hp
      have hj := (List.getElem?_eq_some_iff.mp hr).1
      exact hest.2 j r (by omega) hr p (List.mem_of_mem_take hp))
    simpa [State.drainPending, h.bytes] using hdrop

theorem inv_advance_elapsed (h : Inv s) (hpl : s.place = .elapsed i) (hs : s.advance = some s') :
    Inv s' := by
  have hest := h.established
  have hne : s.place ≠ .bracket := by simp [hpl]
  rw [hpl] at hest
  simp only [State.advance, hpl] at hs
  split at hs
  · next r snap hr hsnap =>
    split_ifs at hs with hstill
    · cases hs
      exact inv_reseal h hne
    · cases hs
      refine h.quiet le_rfl (by simp [h.even hne]) (.inl rfl) ⟨hest.1, ?_⟩
      intro j q hj hq
      rcases Nat.lt_or_eq_of_le (Nat.lt_succ_iff.mp hj) with hlt | rfl
      · exact hest.2 j q hlt hq
      · cases hr.symm.trans hq
        intro p hp hc
        -- a walk from before the snapshot still has the counter that the snapshot took
        have hcov := h.covered j r hr p hp hc
        rw [hsnap, Option.some.injEq] at hcov
        have hodd := couldHold_odd (h.readers r (List.mem_of_getElem? hr)) hc
        exact hstill ⟨by rw [hcov]; exact hodd, hcov.symm⟩
  · next hnone =>
    cases hs
    have hlen : s.readers.length ≤ i := by
      by_contra hlt
      have hi : i < s.readers.length := by omega
      have hi' : i < s.snapshot.length := by rw [h.snapshot]; exact hi
      exact hnone _ _ (List.getElem?_eq_getElem hi) (List.getElem?_eq_getElem hi')
    have hdrop := h.drop hne (m := s.sealed) (by
      intro j r hr p hp
      have hj := (List.getElem?_eq_some_iff.mp hr).1
      exact hest.2 j r (by omega) hr p hp)
    have hre := inv_reseal hdrop (by simp)
    simpa [State.drainPendingPrefix, State.reseal, Nat.min_eq_left h.sealed_le] using hre

theorem inv_advance_sealing (h : Inv s) (hpl : s.place = .sealing i) (hs : s.advance = some s') :
    Inv s' := by
  have hest := h.established
  have hne : s.place ≠ .bracket := by simp [hpl]
  rw [hpl] at hest
  simp only [State.advance, hpl] at hs
  split at hs
  · next r hr =>
    cases hs
    have hi : i < s.snapshot.length := by
      rw [h.snapshot]
      exact (List.getElem?_eq_some_iff.mp hr).1
    refine
      { parity := by simp [h.even hne]
        readers := h.readers
        stamps := h.stamps
        snapshot := by rw [List.length_set]; exact h.snapshot
        sealed_le := h.sealed_le
        bytes := h.bytes
        retired := h.retired
        nodup := h.nodup
        fresh := h.fresh
        safe := h.safe
        held := h.held
        covered := ?_
        established := ⟨hest.1, ?_⟩ }
    · intro j q _ p hp
      rw [hest.1] at hp
      simp at hp
    · intro j q hj hq p hp hc
      show (s.snapshot.set i r.walk)[j]? = _
      rw [List.getElem?_set]
      split_ifs with hij
      · subst hij
        cases hr.symm.trans hq
        rfl
      · exact hest.2 j q (by omega) hq p hp hc
  · next hnone =>
    cases hs
    have hlen := List.getElem?_eq_none_iff.mp hnone
    refine
      { parity := by simp [h.even hne]
        readers := h.readers
        stamps := h.stamps
        snapshot := h.snapshot
        sealed_le := le_rfl
        bytes := h.bytes
        retired := h.retired
        nodup := h.nodup
        fresh := h.fresh
        safe := h.safe
        held := h.held
        covered := ?_
        established := trivial }
    intro j r hr p hp hc
    have hj : j < s.readers.length := (List.getElem?_eq_some_iff.mp hr).1
    exact hest.2 j r (by omega) hr p (List.mem_of_mem_take hp) hc

theorem inv_advance (h : Inv s) (hs : s.advance = some s') : Inv s' := by
  cases hpl : s.place with
  | idle => simp [State.advance, hpl] at hs
  | bracket => simp [State.advance, hpl] at hs
  | outside i => exact inv_advance_outside h hpl hs
  | elapsed i => exact inv_advance_elapsed h hpl hs
  | sealing i => exact inv_advance_sealing h hpl hs

theorem inv_step {a : Action} (h : Inv s) (hs : s.step a = some s') : Inv s' := by
  cases a with
  | pin i => exact inv_pin h hs
  | sample i => exact inv_sample h hs
  | resolve i id => exact inv_resolve h hs
  | unpin i => exact inv_unpin h hs
  | openBracket => exact inv_openBracket h hs
  | link bytes => exact inv_link h hs
  | retire id => exact inv_retire h hs
  | closeBracket => exact inv_closeBracket h hs
  | tryReclaim => exact inv_tryReclaim h hs
  | advance => exact inv_advance h hs

theorem State.Reachable.inv (h : s.Reachable n cap) : Inv s := by
  induction h with
  | new => exact inv_new n cap
  | step _ hs ih => exact inv_step ih hs

/-- With every reader outside, the first loop runs through and drops everything. -/
theorem steps_outside (m : ℕ) (hpl : s.place = .outside i) (hi : i + m = s.readers.length)
    (hout : ∀ r ∈ s.readers, r.walk % 2 = 0) :
    s.steps (List.replicate (m + 1) .advance) =
      some { s.drainPending with sealed := 0, place := .idle } := by
  induction m generalizing s i with
  | zero =>
    have hnone : s.readers[i]? = none := List.getElem?_eq_none (by omega)
    simp [State.steps, State.step, State.advance, hpl, hnone]
  | succ m ih =>
    have hlt : i < s.readers.length := by omega
    have hr := List.getElem?_eq_getElem hlt
    have heven := hout _ (List.getElem_mem hlt)
    rw [List.replicate_succ, State.steps, List.foldlM_cons]
    have hstep : s.step .advance = some { s with place := .outside (i + 1) } := by
      simp [State.step, State.advance, hpl, hr, heven]
    rw [hstep]
    exact ih (s := { s with place := .outside (i + 1) }) rfl (by simp; omega) hout

/-- `try_reclaim` run alone while every reader is outside leaves nothing parked. -/
theorem tryReclaim_drains (hpl : s.place = .idle) (hout : ∀ r ∈ s.readers, r.walk % 2 = 0)
    (hpend : s.pending ≠ []) :
    ∃ s', s.steps (.tryReclaim :: List.replicate (s.readers.length + 1) .advance) = some s' ∧
      s'.pending = [] ∧ s'.dropped = s.dropped ++ s.pending := by
  have hstart : s.step .tryReclaim = some { s with place := .outside 0 } := by
    simp [State.step, State.tryReclaim, State.startReclaim, hpl, hpend]
  refine ⟨{ s.drainPending with sealed := 0, place := .idle }, ?_, rfl, rfl⟩
  rw [State.steps, List.foldlM_cons, hstart]
  exact steps_outside (s := { s with place := .outside 0 }) s.readers.length rfl (by simp) hout

/-- What holds at every moment: no walk could hold what has been dropped, and none has it in
hand; what was retired has been dropped once or is parked once; the sealed part is a part of
the list, and the byte count is that of the list. -/
structure Reclaims (s : State) : Prop where
  unheld : ∀ p ∈ s.dropped, ∀ r ∈ s.readers, ¬ r.CouldHold p
  resolved : ∀ r ∈ s.readers, ∀ x ∈ r.held, x ∉ s.dropped.map Parked.id
  once : s.retired = (s.dropped ++ s.pending).map Parked.id ∧ s.retired.Nodup
  sealed_le : s.sealed ≤ s.pending.length
  bytes : s.pendingBytes = totalBytes s.pending
  drains : s.place = .idle → (∀ r ∈ s.readers, r.phase = .outside) → s.pending ≠ [] →
    ∃ s', s.steps (.tryReclaim :: List.replicate (s.readers.length + 1) .advance) = some s' ∧
      s'.pending = [] ∧ s'.dropped = s.dropped ++ s.pending

/-- In every interleaving of the readers with the writer, reclamation is safe and loses
nothing. -/
theorem reclamation_safe (h : s.Reachable n cap) : Reclaims s := by
  have hinv := h.inv
  have hnd := (List.nodup_append'.mp hinv.nodup)
  refine
    { unheld := hinv.safe
      resolved := ?_
      once := ⟨hinv.retired, hnd.2.1⟩
      sealed_le := hinv.sealed_le
      bytes := hinv.bytes
      drains := ?_ }
  · intro r hr x hx hdrop
    obtain ⟨v, hv, hreach⟩ := hinv.held r hr x hx
    have hret : x ∈ s.retired := by
      rw [hinv.retired, List.map_append]
      exact List.mem_append_left _ hdrop
    rcases hreach with hlive | ⟨p, hp, hid, hlt⟩
    · exact hnd.2.2 hlive hret
    · -- a parked allocation has not been dropped
      have hnd' := hnd.2.1
      rw [hinv.retired, List.map_append] at hnd'
      exact (List.nodup_append'.mp hnd').2.2 hdrop (hid ▸ List.mem_map_of_mem hp)
  · intro hpl hout hpend
    refine tryReclaim_drains hpl (fun r hr => ?_) hpend
    have := (hinv.readers r hr).odd_iff.not.mpr (by simp [hout r hr])
    omega

/-- Two readers around a bracket: the first holds what the bracket retires, so that the writer
seals it; the first leaves, the second enters, and the next call drops it. -/
def graceRun : List Action :=
  [.openBracket, .link 32, .closeBracket, .pin 0, .sample 0, .resolve 0 0, .openBracket, .retire 0,
    .closeBracket, .advance, .advance, .advance, .advance, .pin 1, .sample 1, .unpin 0, .tryReclaim,
    .advance, .advance, .advance, .advance, .advance]

theorem reachable_of_steps {as : List Action} (h : s.Reachable n cap) (hs : s.steps as = some s') :
    s'.Reachable n cap := by
  induction as generalizing s with
  | nil =>
    cases hs
    exact h
  | cons a as ih =>
    rw [State.steps, List.foldlM_cons] at hs
    obtain ⟨s₁, h₁, hrest⟩ := Option.bind_eq_some_iff.mp hs
    exact ih (h.step h₁) hrest

theorem reclamation_safe_grace : ∃ s : State, (State.new 2 300).steps graceRun = some s ∧
    s.dropped = [⟨0, 32, 3⟩] ∧ s.pending = [] ∧ Reclaims s := by
  obtain ⟨s, hs, hd, hp⟩ : ∃ s : State, (State.new 2 300).steps graceRun = some s ∧
      s.dropped = [⟨0, 32, 3⟩] ∧ s.pending = [] := ⟨_, rfl, rfl, rfl⟩
  exact ⟨s, hs, hd, hp, reclamation_safe (reachable_of_steps .new hs)⟩

end Expanse.Sync32
