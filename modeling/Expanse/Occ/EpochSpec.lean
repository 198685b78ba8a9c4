import Expanse.Occ.Epoch

/-!
# No block leaves its bin under a pin

A pin holds the epoch at its own or one past it. A block waits under an epoch no smaller than
that of any pin established before its unlink, and the bin an advance empties holds only
blocks of epochs two behind or more: so no such pin is left when the block is taken.
-/

namespace Expanse.Occ

variable {s t : State} {r r' : Reader} {b : Block} {i : ℕ}

/-- The blocks an epoch load has stamped and no advance has taken. -/
def State.waiting (s : State) : List (ℕ × Block) :=
  s.retiring ++ s.garbage.map fun q => (q.loaded, q.block)

def Established (s : State) : Place → Prop
  | .sampled e => e = s.epoch
  | .scanning e i => e = s.epoch ∧
    ∀ (j : ℕ) (r : Reader), j < i → s.readers[j]? = some r → ∀ e' since, r.phase = .pinned e' since → e' = e
  | .publishing e => e = s.epoch ∧
    ∀ r ∈ s.readers, ∀ e' since, r.phase = .pinned e' since → e' = e
  | .published e => s.epoch = e + 1
  | .draining e _ _ => s.epoch = e + 1
  | .taking e _ _ => s.epoch = e + 1
  | .releasing e _ _ _ => s.epoch = e + 1
  | _ => True

theorem established_congr {place : Place} (he : t.epoch = s.epoch) (hr : t.readers = s.readers)
    (h : Established s place) : Established t place := by
  have hsame : Established t place = Established s place := by
    unfold Established
    rw [he, hr]
  rwa [hsame]

structure Inv (s : State) : Prop where
  stored : ∀ r ∈ s.readers, ∀ e, r.phase = .stored e → r.slot = some e
  pinned : ∀ r ∈ s.readers, ∀ e since, r.phase = .pinned e since →
    r.slot = some e ∧ e ≤ s.epoch ∧ s.epoch ≤ e + 1
  place : Established s s.place
  stamps : ∀ b ∈ s.unlinked ++ s.retiring.map Prod.snd ++ s.pushed, b.unlinked < s.clock
  nodup : ((s.unlinked ++ s.retiring.map Prod.snd ++ s.pushed).map Block.unlinked).Nodup
  loaded : ∀ p ∈ s.waiting, p.1 ≤ s.epoch ∧
    ∀ r ∈ s.readers, ∀ e since, r.phase = .pinned e since → since ≤ p.2.unlinked → e ≤ p.1
  bins : ∀ q ∈ s.garbage, q.bin = q.loaded % BINS ∧ q.stripe < s.stripeBound
  conserved : s.pushed.Perm (s.garbage.map Binned.block ++ s.left)
  settled : s.left.Perm (s.place.taken ++ s.carry ++ s.released)
  safe : ∀ b ∈ s.left, ∀ r ∈ s.readers, ¬ r.Guards b

theorem inv_new : Inv .new where
  stored := by simp [State.new]
  pinned := by simp [State.new]
  place := trivial
  stamps := by simp [State.new]
  nodup := by simp [State.new]
  loaded := by simp [State.new, State.waiting]
  bins := by simp [State.new]
  conserved := .refl _
  settled := .refl _
  safe := by simp [State.new]

theorem Inv.lt_of_left (h : Inv s) (hb : b ∈ s.left) : b.unlinked < s.clock :=
  h.stamps b (List.mem_append_right _ (h.conserved.mem_iff.mpr (List.mem_append_right _ hb)))

theorem Inv.lt_of_waiting (h : Inv s) {p : ℕ × Block} (hp : p ∈ s.waiting) :
    p.2.unlinked < s.clock := by
  rcases List.mem_append.mp hp with hp | hp
  · exact h.stamps p.2 (List.mem_append_left _ (List.mem_append_right _ (List.mem_map_of_mem hp)))
  · obtain ⟨q, hq, rfl⟩ := List.mem_map.mp hp
    exact h.stamps q.block (List.mem_append_right _ (h.conserved.mem_iff.mpr
      (List.mem_append_left _ (List.mem_map_of_mem hq))))

/-- A step of one reader: a pin it establishes is at the current epoch and moment. -/
theorem Inv.setReader (h : Inv s) (hst : ∀ e, r.phase = .stored e → r.slot = some e)
    (hpin : ∀ e since, r.phase = .pinned e since → r.slot = some e ∧ e = s.epoch ∧ since = s.clock) :
    Inv (s.setReader i r) where
  stored q hq e hphase := by
    rcases List.mem_or_eq_of_mem_set hq with hq | rfl
    · exact h.stored q hq e hphase
    · exact hst e hphase
  pinned q hq e since hphase := by
    rcases List.mem_or_eq_of_mem_set hq with hq | rfl
    · exact h.pinned q hq e since hphase
    · obtain ⟨hslot, rfl, -⟩ := hpin e since hphase
      exact ⟨hslot, le_rfl, Nat.le_succ _⟩
  place := by
    have hp := h.place
    change Established (s.setReader i r) s.place
    revert hp
    cases s.place with
    | scanning e k =>
      rintro ⟨rfl, hscan⟩
      refine ⟨rfl, fun j q hj hq e' since hphase => ?_⟩
      rw [State.setReader, List.getElem?_set] at hq
      split at hq
      · split at hq
        · cases hq
          exact (hpin e' since hphase).2.1
        · cases hq
      · exact hscan j q hj hq e' since hphase
    | publishing e =>
      rintro ⟨rfl, hall⟩
      refine ⟨rfl, fun q hq e' since hphase => ?_⟩
      rcases List.mem_or_eq_of_mem_set hq with hq | rfl
      · exact hall q hq e' since hphase
      · exact (hpin e' since hphase).2.1
    | _ => exact id
  stamps := h.stamps
  nodup := h.nodup
  loaded p hp := by
    refine ⟨(h.loaded p hp).1, fun q hq e since hphase hle => ?_⟩
    rcases List.mem_or_eq_of_mem_set hq with hq | rfl
    · exact (h.loaded p hp).2 q hq e since hphase hle
    · obtain ⟨-, -, rfl⟩ := hpin e since hphase
      exact absurd (h.lt_of_waiting hp) (Nat.not_lt.mpr hle)
  bins := h.bins
  conserved := h.conserved
  settled := h.settled
  safe b hb q hq := by
    rcases List.mem_or_eq_of_mem_set hq with hq | rfl
    · exact h.safe b hb q hq
    · rintro ⟨e, since, hphase, hle⟩
      obtain ⟨-, -, rfl⟩ := hpin e since hphase
      exact absurd (h.lt_of_left hb) (Nat.not_lt.mpr hle)

theorem inv_pin (h : Inv s) (hs : s.pin i = some t) : Inv t := by
  unfold State.pin at hs
  split at hs
  · case h_1 r hr =>
    split at hs
    · cases hs
      exact h.setReader (by simp) (by simp)
    · cases hs
      exact h.setReader (by simp) (by simp)
    · case h_3 e hphase =>
      split at hs
      · case isTrue he =>
        cases hs
        refine h.setReader (by simp) fun e' since heq => ?_
        cases heq
        exact ⟨h.stored r (List.mem_of_getElem? hr) e hphase, he.symm, rfl⟩
      · cases hs
        exact h.setReader (by simp) (by simp)
    · cases hs
  · cases hs

theorem inv_unpin (h : Inv s) (hs : s.unpin i = some t) : Inv t := by
  unfold State.unpin at hs
  split at hs
  · split at hs
    · cases hs
      exact h.setReader (by simp) (by simp)
    · cases hs
  · cases hs

theorem inv_deregister (h : Inv s) (hs : s.deregister i = some t) : Inv t := by
  unfold State.deregister at hs
  split at hs
  · split at hs
    · cases hs
      exact h.setReader (by simp) (by simp)
    · cases hs
  · cases hs

theorem inv_register (h : Inv s) (hs : s.register = some t) : Inv t := by
  unfold State.register at hs
  split at hs
  · case isTrue hfree =>
    cases hs
    have hnew : ∀ r ∈ s.readers ++ [⟨none, .outside⟩],
        r ∈ s.readers ∨ r = (⟨none, .outside⟩ : Reader) := fun r hr => by simpa using hr
    refine ⟨fun r hr e hphase => ?_, fun r hr e since hphase => ?_, ?_, h.stamps, h.nodup,
      fun p hp => ⟨(h.loaded p hp).1, fun r hr e since hphase hle => ?_⟩, h.bins, h.conserved,
      h.settled, fun b hb r hr hguard => ?_⟩
    · rcases hnew r hr with hr | rfl
      · exact h.stored r hr e hphase
      · cases hphase
    · rcases hnew r hr with hr | rfl
      · exact h.pinned r hr e since hphase
      · cases hphase
    · have hp := h.place
      revert hp hfree
      unfold State.registryFree
      cases s.place with
      | scanning e k => simp
      | publishing e =>
        rintro - ⟨rfl, hall⟩
        refine ⟨rfl, fun r hr e' since hphase => ?_⟩
        rcases hnew r hr with hr | rfl
        · exact hall r hr e' since hphase
        · cases hphase
      | _ => exact fun _ => id
    · rcases hnew r hr with hr | rfl
      · exact (h.loaded p hp).2 r hr e since hphase hle
      · cases hphase
    · rcases hnew r hr with hr | rfl
      · exact h.safe b hb r hr hguard
      · obtain ⟨e, since, hphase, -⟩ := hguard
        cases hphase
  · cases hs

theorem Inv.move (h : Inv s) {place : Place} (hplace : Established s place)
    (htaken : place.taken = s.place.taken) : Inv { s with place := place } where
  stored := h.stored
  pinned := h.pinned
  place := established_congr rfl rfl hplace
  stamps := h.stamps
  nodup := h.nodup
  loaded := h.loaded
  bins := h.bins
  conserved := h.conserved
  settled := by
    change s.left.Perm (place.taken ++ s.carry ++ s.released)
    rw [htaken]
    exact h.settled
  safe := h.safe

theorem inv_unlink (h : Inv s) (g : Garbage) : Inv (s.unlink g) := by
  refine ⟨h.stored, h.pinned, ?_, fun b hb => ?_, ?_, h.loaded, h.bins, h.conserved, h.settled, h.safe⟩
  · exact established_congr rfl rfl h.place
  · rcases List.mem_cons.mp hb with rfl | hb
    · exact Nat.lt_succ_self _
    · exact Nat.lt_succ_of_lt (h.stamps b hb)
  · refine List.nodup_cons.mpr ⟨fun hmem => ?_, h.nodup⟩
    obtain ⟨b, hb, heq⟩ := List.mem_map.mp hmem
    have := h.stamps b hb
    simp only at heq
    omega

/-- A step that moves blocks between the unlinked, the loaded and the pushed ones. -/
theorem Inv.reown (h : Inv s) (l : List Block)
    (hperm : (s.unlinked ++ s.retiring.map Prod.snd ++ s.pushed).Perm l) :
    (∀ b ∈ l, b.unlinked < s.clock) ∧ (l.map Block.unlinked).Nodup :=
  ⟨fun b hb => h.stamps b (hperm.mem_iff.mpr hb), ((hperm.map _).nodup_iff).mp h.nodup⟩

theorem inv_retireLoad (h : Inv s) (hs : s.retireLoad b = some t) : Inv t := by
  unfold State.retireLoad at hs
  split at hs
  · case isTrue hb =>
    cases hs
    have hperm : (s.unlinked ++ s.retiring.map Prod.snd ++ s.pushed).Perm
        (s.unlinked.erase b ++ b :: s.retiring.map Prod.snd ++ s.pushed) := by
      refine List.Perm.append_right _ (((List.perm_cons_erase hb).append_right _).trans ?_)
      exact List.perm_middle.symm
    obtain ⟨hstamps, hnodup⟩ := h.reown _ hperm
    refine ⟨h.stored, h.pinned, ?_, hstamps, hnodup, fun p hp => ?_, h.bins, h.conserved, h.settled, h.safe⟩
    · exact established_congr rfl rfl h.place
    · rcases List.mem_cons.mp hp with rfl | hp
      · exact ⟨le_rfl, fun r hr e since hphase _ => (h.pinned r hr e since hphase).2.1⟩
      · exact h.loaded p hp
  · cases hs

theorem inv_raiseStripeBound (h : Inv s) (slot : ℕ) : Inv (s.raiseStripeBound slot) :=
  ⟨h.stored, h.pinned, established_congr rfl rfl h.place, h.stamps, h.nodup, h.loaded,
    fun q hq => ⟨(h.bins q hq).1, lt_of_lt_of_le (h.bins q hq).2 (le_max_left _ _)⟩, h.conserved,
    h.settled, h.safe⟩

theorem inv_retirePush {p : ℕ × Block} {stripe : ℕ} (h : Inv s) (hs : s.retirePush p stripe = some t) :
    Inv t := by
  unfold State.retirePush at hs
  split at hs
  · case isTrue hguard =>
    cases hs
    have hp := hguard.1
    have hperm : (s.unlinked ++ s.retiring.map Prod.snd ++ s.pushed).Perm
        (s.unlinked ++ (s.retiring.erase p).map Prod.snd ++ (s.pushed ++ [p.2])) := by
      have herase := (List.perm_cons_erase hp).map Prod.snd
      rw [← Multiset.coe_eq_coe] at herase ⊢
      simp only [← Multiset.coe_add, herase, List.map_cons, ← Multiset.cons_coe,
        ← Multiset.singleton_add]
      simp only [Multiset.coe_nil, add_zero]
      abel
    obtain ⟨hstamps, hnodup⟩ := h.reown _ hperm
    refine ⟨h.stored, h.pinned, established_congr rfl rfl h.place, hstamps, hnodup, fun q hq => ?_,
      fun q hq => ?_, ?_, h.settled, h.safe⟩
    · refine h.loaded q ?_
      simp only [State.waiting, List.mem_append, List.mem_map, List.mem_cons, List.not_mem_nil,
        or_false] at hq ⊢
      rcases hq with hq | ⟨x, hx | rfl, rfl⟩
      · exact .inl (List.mem_of_mem_erase hq)
      · exact .inr ⟨x, hx, rfl⟩
      · exact .inl hp
    · rcases List.mem_append.mp hq with hq | hq
      · exact h.bins q hq
      · rw [List.mem_singleton.mp hq]
        exact ⟨rfl, hguard.2⟩
    · have hc := h.conserved.append_right [p.2]
      refine hc.trans ?_
      simp only [List.map_append, List.map_cons, List.map_nil, List.append_assoc]
      exact (List.perm_append_comm).append_left _
  · cases hs

theorem inv_popFreelist {stripe cls : ℕ} (h : Inv s) (hs : s.popFreelist stripe cls = some t) : Inv t := by
  unfold State.popFreelist at hs
  split at hs
  · case h_1 f hf =>
    cases hs
    refine ⟨h.stored, h.pinned, established_congr rfl rfl h.place, h.stamps, h.nodup, h.loaded, h.bins,
      h.conserved, h.settled.trans (List.Perm.append_left _ ?_), h.safe⟩
    have herase := (List.perm_cons_erase (List.mem_of_find?_eq_some hf)).map Prod.snd
    rw [← Multiset.coe_eq_coe] at herase ⊢
    simp only [State.released, ← Multiset.coe_add, herase, List.map_cons, ← Multiset.cons_coe,
      ← Multiset.singleton_add]
    simp only [Multiset.coe_nil, add_zero]
    abel
  · cases hs

theorem inv_tryLock (h : Inv s) (hs : s.tryLock = some t) : Inv t := by
  unfold State.tryLock at hs
  split at hs
  · case isTrue hidle =>
    cases hs
    exact h.move trivial (by rw [hidle]; rfl)
  · cases hs

theorem inv_freeCarried (h : Inv s) (hs : s.freeCarried = some t) : Inv t := by
  unfold State.freeCarried at hs
  split at hs
  · split at hs
    · case h_1 b hb =>
      cases hs
      refine ⟨h.stored, h.pinned, established_congr rfl rfl h.place, h.stamps, h.nodup, h.loaded, h.bins,
        h.conserved, h.settled.trans ?_, h.safe⟩
      have hsplit := List.dropLast_append_getLast? b hb
      rw [List.append_assoc, List.append_assoc]
      refine List.Perm.append_left _ ?_
      nth_rewrite 1 [← hsplit]
      rw [← Multiset.coe_eq_coe]
      simp only [State.released, ← Multiset.coe_add]
      abel
    · cases hs
  · cases hs

theorem inv_scan {e i : ℕ} (h : Inv s) (hplace : s.place = .scanning e i) {keep : Bool}
    (hs : s.advance keep = some t) : Inv t := by
  have hp := h.place
  rw [hplace] at hp
  obtain ⟨rfl, hscan⟩ := hp
  simp only [State.advance, hplace] at hs
  split at hs
  · case h_1 r hr =>
    split at hs
    · cases hs
      exact h.move trivial (by rw [hplace]; rfl)
    · case isFalse hpass =>
      cases hs
      refine h.move ⟨rfl, fun j q hj hq e' since hphase => ?_⟩ (by rw [hplace]; rfl)
      rcases Nat.lt_succ_iff_lt_or_eq.mp hj with hj | rfl
      · exact hscan j q hj hq e' since hphase
      · rw [hr] at hq
        cases hq
        obtain ⟨hslot, -⟩ := h.pinned r (List.mem_of_getElem? hr) e' since hphase
        rw [hslot] at hpass
        simpa using hpass
  · case h_2 hnone =>
    cases hs
    refine h.move ⟨rfl, fun r hr e' since hphase => ?_⟩ (by rw [hplace]; rfl)
    obtain ⟨j, hj⟩ := List.mem_iff_getElem?.mp hr
    have hlt := (List.getElem?_eq_some_iff.mp hj).1
    have hle := List.getElem?_eq_none_iff.mp hnone
    exact hscan j r (by omega) hj e' since hphase

/-- Every reader that is pinned has been seen at the epoch that is left behind. -/
theorem inv_publish {e : ℕ} (h : Inv s) (hplace : s.place = .publishing e) {keep : Bool}
    (hs : s.advance keep = some t) : Inv t := by
  have hp := h.place
  rw [hplace] at hp
  obtain ⟨rfl, hall⟩ := hp
  simp only [State.advance, hplace, if_true] at hs
  cases hs
  refine ⟨h.stored, fun r hr e since hphase => ?_, rfl, h.stamps, h.nodup, fun p hp => ?_, h.bins,
    h.conserved, ?_, h.safe⟩
  · obtain ⟨hslot, hle, -⟩ := h.pinned r hr e since hphase
    exact ⟨hslot, Nat.le_succ_of_le hle, by rw [hall r hr e since hphase]⟩
  · exact ⟨Nat.le_succ_of_le (h.loaded p hp).1, (h.loaded p hp).2⟩
  · have hset := h.settled
    rw [hplace] at hset
    exact hset

/-- No pin older than its unlink is left when a block is taken: the epoch it was stamped with is
two behind, and a pin that old has ended. -/
theorem unguarded_of_stale {e stripe : ℕ} (h : Inv s) (hepoch : s.epoch = e + 1) {q : Binned}
    (hq : q ∈ s.stale e stripe) (hr : r ∈ s.readers) : ¬ r.Guards q.block := by
  rintro ⟨e', since, hphase, hle⟩
  obtain ⟨hmem, hbin⟩ := List.mem_filter.mp hq
  have hbin := (of_decide_eq_true hbin).1
  have hwait : (q.loaded, q.block) ∈ s.waiting :=
    List.mem_append_right _ (List.mem_map_of_mem hmem)
  obtain ⟨hloaded, hguard⟩ := h.loaded _ hwait
  have hlow := hguard r hr e' since hphase hle
  obtain ⟨-, -, hnear⟩ := h.pinned r hr e' since hphase
  rw [(h.bins q hmem).1, BINS] at hbin
  simp only at hloaded hlow
  omega

theorem inv_take {e stripe bound : ℕ} (h : Inv s) (hplace : s.place = .taking e stripe bound)
    {keep : Bool} (hs : s.advance keep = some t) : Inv t := by
  have hepoch := h.place
  rw [hplace] at hepoch
  simp only [State.advance, hplace] at hs
  cases hs
  have hsplit := List.filter_append_perm
    (fun q : Binned => decide (q.bin = (e + BINS - 1) % BINS ∧ q.stripe = stripe)) s.garbage
  refine ⟨h.stored, h.pinned, hepoch, h.stamps, h.nodup, fun p hp => ?_, fun q hq => ?_, ?_, ?_,
    fun b hb r hr => ?_⟩
  · refine h.loaded p ?_
    simp only [State.waiting, List.mem_append, List.mem_map, List.mem_filter] at hp ⊢
    rcases hp with hp | ⟨q, ⟨hq, -⟩, rfl⟩
    · exact .inl hp
    · exact .inr ⟨q, hq, rfl⟩
  · exact h.bins q (List.mem_of_mem_filter hq)
  · refine h.conserved.trans ?_
    have hblocks := hsplit.map Binned.block
    rw [← Multiset.coe_eq_coe] at hblocks ⊢
    simp only [List.map_append, ← Multiset.coe_add, State.stale, decide_not] at hblocks ⊢
    rw [← hblocks]
    abel
  · have hset := h.settled
    rw [hplace] at hset
    change (s.left ++ _).Perm (_ ++ s.carry ++ s.released)
    rw [← Multiset.coe_eq_coe] at hset ⊢
    simp only [Place.taken, List.nil_append, ← Multiset.coe_add] at hset ⊢
    rw [hset]
    abel
  · rcases List.mem_append.mp hb with hb | hb
    · exact h.safe b hb r hr
    · obtain ⟨q, hq, rfl⟩ := List.mem_map.mp hb
      exact unguarded_of_stale h hepoch hq hr

theorem inv_release {e stripe bound : ℕ} {taken : List Block} (h : Inv s)
    (hplace : s.place = .releasing e stripe bound taken) {keep : Bool}
    (hs : s.advance keep = some t) : Inv t := by
  have hepoch := h.place
  rw [hplace] at hepoch
  have hset := h.settled
  rw [hplace] at hset
  simp only [State.advance, hplace] at hs
  cases taken with
  | nil =>
    cases hs
    exact h.move hepoch (by rw [hplace]; rfl)
  | cons b taken =>
    cases hs
    unfold State.release
    have hsettled : ∀ u : State, u.left = s.left → u.place = .releasing e stripe bound taken →
        (u.carry ++ u.released).Perm (b :: (s.carry ++ s.released)) →
        u.left.Perm (u.place.taken ++ u.carry ++ u.released) := by
      intro u hl hp hperm
      rw [hl, hp, List.append_assoc]
      refine hset.trans (List.Perm.trans ?_ (List.Perm.append_left taken hperm).symm)
      simp only [Place.taken, List.cons_append, List.append_assoc]
      exact List.perm_middle.symm
    split
    · refine ⟨h.stored, h.pinned, hepoch, h.stamps, h.nodup, h.loaded, h.bins, h.conserved,
        hsettled _ rfl rfl ?_, h.safe⟩
      exact List.perm_middle
    · split
      · refine ⟨h.stored, h.pinned, hepoch, h.stamps, h.nodup, h.loaded, h.bins, h.conserved,
          hsettled _ rfl rfl ?_, h.safe⟩
        simp only [List.append_assoc]
        exact List.perm_middle
      · refine ⟨h.stored, h.pinned, hepoch, h.stamps, h.nodup, h.loaded, h.bins, h.conserved,
          hsettled _ rfl rfl ?_, h.safe⟩
        rw [← Multiset.coe_eq_coe]
        simp only [State.released, ← Multiset.coe_add, ← Multiset.cons_coe, ← Multiset.singleton_add,
          Multiset.coe_nil, add_zero]
        abel

theorem inv_advance {keep : Bool} (h : Inv s) (hs : s.advance keep = some t) : Inv t := by
  have hp := h.place
  cases hplace : s.place with
  | idle => simp [State.advance, hplace] at hs
  | entered =>
    simp only [State.advance, hplace] at hs
    cases hs
    exact h.move rfl (by rw [hplace]; rfl)
  | sampled e =>
    rw [hplace] at hp
    simp only [State.advance, hplace] at hs
    cases hs
    exact h.move ⟨hp, fun j _ hj => absurd hj (Nat.not_lt_zero j)⟩ (by rw [hplace]; rfl)
  | scanning e i => exact inv_scan h hplace hs
  | publishing e => exact inv_publish h hplace hs
  | published e =>
    rw [hplace] at hp
    simp only [State.advance, hplace] at hs
    cases hs
    exact h.move hp (by rw [hplace]; rfl)
  | draining e stripe bound =>
    rw [hplace] at hp
    simp only [State.advance, hplace] at hs
    split at hs
    · cases hs
      exact h.move trivial (by rw [hplace]; rfl)
    · split at hs
      · cases hs
        exact h.move hp (by rw [hplace]; rfl)
      · cases hs
        exact h.move hp (by rw [hplace]; rfl)
  | taking e stripe bound => exact inv_take h hplace hs
  | releasing e stripe bound taken => exact inv_release h hplace hs
  | leaving =>
    simp only [State.advance, hplace] at hs
    cases hs
    exact h.move trivial (by rw [hplace]; rfl)

theorem inv_step {a : Action} (h : Inv s) (hs : s.step a = some t) : Inv t := by
  cases a with
  | register => exact inv_register h hs
  | pin i => exact inv_pin h hs
  | unpin i => exact inv_unpin h hs
  | deregister i => exact inv_deregister h hs
  | unlink g =>
    cases hs
    exact inv_unlink h g
  | retireLoad b => exact inv_retireLoad h hs
  | raiseStripeBound slot =>
    cases hs
    exact inv_raiseStripeBound h slot
  | retirePush p stripe => exact inv_retirePush h hs
  | popFreelist stripe cls => exact inv_popFreelist h hs
  | tryLock => exact inv_tryLock h hs
  | freeCarried => exact inv_freeCarried h hs
  | advance keep => exact inv_advance h hs

theorem State.Reachable.inv (h : s.Reachable) : Inv s := by
  induction h with
  | new => exact inv_new
  | step _ hs ih => exact inv_step ih hs

/-- What the end of an advance, and the release of a block, leave alone. -/
structure Framed (s t : State) : Prop where
  epoch : t.epoch = s.epoch
  readers : t.readers = s.readers
  stripeBound : t.stripeBound = s.stripeBound
  garbage : t.garbage = s.garbage

theorem release_frame (s : State) (stripe : ℕ) (keep : Bool) (b : Block) :
    Framed s (s.release stripe keep b) := by
  unfold State.release
  split
  · exact ⟨rfl, rfl, rfl, rfl⟩
  · split <;> exact ⟨rfl, rfl, rfl, rfl⟩

/-- The advances of the epoch that the holder of the lock has before it. -/
def Place.credit : Place → ℕ
  | .entered | .sampled _ | .scanning _ _ | .publishing _ => 1
  | _ => 0

theorem advance_epoch {keep : Bool} (hs : s.advance keep = some t) :
    (t.epoch = s.epoch ∧ t.place.credit ≤ s.place.credit) ∨
    (t.epoch = s.epoch + 1 ∧ s.place = .publishing s.epoch ∧ t.place = .published s.epoch) := by
  cases hplace : s.place with
  | scanning e i =>
    simp only [State.advance, hplace] at hs
    split at hs
    · split at hs
      · cases hs
        exact .inl ⟨rfl, by simp [Place.credit]⟩
      · cases hs
        exact .inl ⟨rfl, le_rfl⟩
    · cases hs
      exact .inl ⟨rfl, le_rfl⟩
  | publishing e =>
    simp only [State.advance, hplace] at hs
    split at hs
    · case isTrue he =>
      cases hs
      exact .inr ⟨by rw [he], by rw [he], by rw [he]⟩
    · cases hs
      exact .inl ⟨rfl, by simp [Place.credit]⟩
  | draining e stripe bound =>
    simp only [State.advance, hplace] at hs
    split at hs
    · cases hs
      exact .inl ⟨rfl, le_rfl⟩
    · split at hs
      · cases hs
        exact .inl ⟨rfl, le_rfl⟩
      · cases hs
        exact .inl ⟨rfl, le_rfl⟩
  | releasing e stripe bound taken =>
    simp only [State.advance, hplace] at hs
    cases taken with
    | nil =>
      cases hs
      exact .inl ⟨rfl, le_rfl⟩
    | cons b taken =>
      cases hs
      exact .inl ⟨(release_frame s stripe keep b).epoch, le_rfl⟩
  | idle => simp [State.advance, hplace] at hs
  | _ =>
    simp only [State.advance, hplace] at hs
    cases hs
    exact .inl ⟨rfl, by simp [Place.credit]⟩

/-- Every other step leaves the epoch and the advancer's place alone, or takes the lock. -/
theorem step_epoch {a : Action} (hs : s.step a = some t) :
    (t.epoch = s.epoch ∧ t.place.credit ≤ s.place.credit + if a = .tryLock then 1 else 0) ∨
    (t.epoch = s.epoch + 1 ∧ s.place = .publishing s.epoch ∧ t.place = .published s.epoch) := by
  cases a with
  | advance keep =>
    rcases advance_epoch hs with ⟨he, hc⟩ | h
    · exact .inl ⟨he, by simpa using hc⟩
    · exact .inr h
  | tryLock =>
    simp only [State.step, State.tryLock] at hs
    split at hs
    · cases hs
      exact .inl ⟨rfl, by simp [Place.credit]⟩
    · cases hs
  | _ =>
    refine .inl ?_
    simp only [State.step, State.register, State.pin, State.unpin, State.deregister, State.unlink,
      State.retireLoad, State.raiseStripeBound, State.retirePush, State.popFreelist,
      State.freeCarried] at hs
    repeat' split at hs
    all_goals first | cases hs; exact ⟨rfl, by simp [State.setReader]⟩ | cases hs

/-- Over any run the epoch rises, and no faster than advances take the lock. -/
theorem steps_epoch {as : List Action} (hs : s.steps as = some t) :
    s.epoch ≤ t.epoch ∧ t.epoch + t.place.credit ≤ s.epoch + s.place.credit + as.count .tryLock := by
  induction as generalizing s with
  | nil =>
    cases hs
    exact ⟨le_rfl, le_rfl⟩
  | cons a as ih =>
    obtain ⟨u, hu, hut⟩ := Option.bind_eq_some_iff.mp hs
    obtain ⟨hle, hcount⟩ := ih hut
    rw [List.count_cons]
    rcases step_epoch hu with ⟨he, hc⟩ | ⟨he, hp, hp'⟩
    · have hbeq : (if (a == Action.tryLock) = true then 1 else 0) = if a = .tryLock then 1 else 0 := by
        simp
      omega
    · rw [hp'] at hcount
      simp only [Place.credit] at hcount
      rw [hp]
      simp only [Place.credit]
      omega

/-- Steps of advances with every other party at rest. -/
def State.Alone : State → State → Prop :=
  Relation.ReflTransGen fun s t => s.tryLock = some t ∨ s.advance false = some t

theorem State.Alone.trans {u : State} (h : s.Alone t) (h' : t.Alone u) : s.Alone u :=
  Relation.ReflTransGen.trans h h'

theorem alone_advance (hs : s.advance false = some t) : s.Alone t :=
  Relation.ReflTransGen.single (.inr hs)

theorem alone_scan {e : ℕ} (n i : ℕ) (hplace : s.place = .scanning e i)
    (hslots : ∀ r ∈ s.readers, r.slot = none) (hn : i + n = s.readers.length) :
    s.Alone { s with place := .publishing e } := by
  induction n generalizing s i with
  | zero =>
    refine alone_advance ?_
    have hnone : s.readers[i]? = none := List.getElem?_eq_none_iff.mpr (by omega)
    simp only [State.advance, hplace, hnone]
  | succ n ih =>
    have hlt : i < s.readers.length := by omega
    have hr : s.readers[i]? = some s.readers[i] := List.getElem?_eq_getElem hlt
    have hstep : s.advance false = some { s with place := .scanning e (i + 1) } := by
      simp only [State.advance, hplace, hr]
      rw [if_neg (by simp [hslots _ (List.getElem_mem hlt)])]
    exact (alone_advance hstep).trans (ih (s := { s with place := .scanning e (i + 1) }) (i + 1) rfl
      hslots (by simp only; omega))

theorem alone_release {e stripe bound : ℕ} {taken : List Block}
    (hplace : s.place = .releasing e stripe bound taken) :
    ∃ t, s.Alone t ∧ Framed s t ∧ t.place = .draining e (stripe + 1) bound := by
  induction taken generalizing s with
  | nil =>
    refine ⟨{ s with place := .draining e (stripe + 1) bound }, alone_advance ?_, ⟨rfl, rfl, rfl, rfl⟩, rfl⟩
    simp only [State.advance, hplace]
  | cons b taken ih =>
    have hstep : s.advance false =
        some { s.release stripe false b with place := .releasing e stripe bound taken } := by
      simp only [State.advance, hplace]
    have hframe := release_frame s stripe false b
    obtain ⟨t, halone, hf, ht⟩ := ih (s := { s.release stripe false b with
      place := .releasing e stripe bound taken }) rfl
    exact ⟨t, (alone_advance hstep).trans halone,
      ⟨hf.epoch.trans hframe.epoch, hf.readers.trans hframe.readers,
        hf.stripeBound.trans hframe.stripeBound, hf.garbage.trans hframe.garbage⟩, ht⟩

theorem alone_drain {e bound : ℕ} (n stripe : ℕ) (hplace : s.place = .draining e stripe bound)
    (hn : stripe + n = bound) :
    ∃ t, s.Alone t ∧ t.place = .leaving ∧ t.epoch = s.epoch ∧ t.readers = s.readers ∧
      t.stripeBound = s.stripeBound ∧ ∀ q ∈ t.garbage, q ∈ s.garbage ∧
        ¬ (q.bin = (e + BINS - 1) % BINS ∧ stripe ≤ q.stripe ∧ q.stripe < bound) := by
  induction n generalizing s stripe with
  | zero =>
    refine ⟨{ s with place := .leaving }, alone_advance ?_, rfl, rfl, rfl, rfl, fun q hq => ⟨hq, by omega⟩⟩
    simp only [State.advance, hplace]
    rw [if_pos (by omega)]
  | succ n ih =>
    by_cases hempty : s.stale e stripe = []
    · have hstep : s.advance false = some { s with place := .draining e (stripe + 1) bound } := by
        simp only [State.advance, hplace]
        rw [if_neg (by omega), if_pos hempty]
      obtain ⟨t, halone, hpl, he, hr, hb, hleft⟩ :=
        ih (s := { s with place := .draining e (stripe + 1) bound }) (stripe + 1) rfl (by omega)
      refine ⟨t, (alone_advance hstep).trans halone, hpl, he, hr, hb, fun q hq => ?_⟩
      obtain ⟨hmem, hnot⟩ := hleft q hq
      refine ⟨hmem, fun ⟨hbin, hle, hlt⟩ => ?_⟩
      rcases Nat.eq_or_lt_of_le hle with rfl | hle
      · have := List.filter_eq_nil_iff.mp hempty q hmem
        simp [hbin] at this
      · exact hnot ⟨hbin, hle, hlt⟩
    · have hstep : s.advance false = some { s with place := .taking e stripe bound } := by
        simp only [State.advance, hplace]
        rw [if_neg (by omega), if_neg hempty]
      obtain ⟨u, halone, hf, hpl⟩ := alone_release (s := { s with
        garbage := s.garbage.filter fun q => ¬ (q.bin = (e + BINS - 1) % BINS ∧ q.stripe = stripe)
        left := s.left ++ (s.stale e stripe).map Binned.block
        place := .releasing e stripe bound ((s.stale e stripe).map Binned.block) }) rfl
      obtain ⟨t, halone', hpl', he, hr, hb, hleft⟩ := ih (stripe + 1) hpl (by omega)
      refine ⟨t, (alone_advance hstep).trans (.trans (alone_advance rfl) (halone.trans halone')), hpl',
        he.trans hf.epoch, hr.trans hf.readers, hb.trans hf.stripeBound, fun q hq => ?_⟩
      obtain ⟨hmem, hnot⟩ := hleft q hq
      rw [hf.garbage] at hmem
      obtain ⟨hmem, hkeep⟩ := List.mem_filter.mp hmem
      refine ⟨hmem, fun ⟨hbin, hle, hlt⟩ => ?_⟩
      rcases Nat.eq_or_lt_of_le hle with rfl | hle
      · simp [hbin] at hkeep
      · exact hnot ⟨hbin, hle, hlt⟩

/-- An advance with no reader pinned moves the epoch and empties the bin two epochs back. -/
theorem alone_tryAdvance (hidle : s.place = .idle) (hslots : ∀ r ∈ s.readers, r.slot = none) :
    ∃ t, s.Alone t ∧ t.place = .idle ∧ t.epoch = s.epoch + 1 ∧ t.readers = s.readers ∧
      t.stripeBound = s.stripeBound ∧ ∀ q ∈ t.garbage, q ∈ s.garbage ∧
        ¬ (q.bin = (s.epoch + BINS - 1) % BINS ∧ q.stripe < s.stripeBound) := by
  have hlock : s.tryLock = some { s with place := .entered } := if_pos hidle
  have henter : s.Alone { s with place := .scanning s.epoch 0 } :=
    (Relation.ReflTransGen.single (.inl hlock)).trans
      ((alone_advance (t := { s with place := .sampled s.epoch }) rfl).trans (alone_advance rfl))
  have hscan : State.Alone { s with place := .scanning s.epoch 0 } { s with place := .publishing s.epoch } :=
    alone_scan s.readers.length 0 rfl hslots (Nat.zero_add _)
  have hpublish : State.advance { s with place := .publishing s.epoch } false =
      some { s with epoch := s.epoch + 1, place := .published s.epoch } := if_pos rfl
  obtain ⟨t, halone, hpl, he, hr, hb, hleft⟩ := alone_drain (s := { s with
    epoch := s.epoch + 1, place := .draining s.epoch 0 s.stripeBound }) s.stripeBound 0 rfl (Nat.zero_add _)
  have hend : t.advance false = some { t with place := .idle } := by
    simp only [State.advance, hpl]
  refine ⟨{ t with place := .idle }, henter.trans (hscan.trans ((alone_advance hpublish).trans
    (.trans (alone_advance rfl) (halone.trans (alone_advance hend))))), rfl, he, hr, hb, fun q hq => ?_⟩
  obtain ⟨hmem, hnot⟩ := hleft q hq
  exact ⟨hmem, fun ⟨hbin, hlt⟩ => hnot ⟨hbin, Nat.zero_le _, hlt⟩⟩

/-- Three advances with no reader pinned empty the bins. -/
theorem alone_drains (h : Inv s) (hidle : s.place = .idle) (hslots : ∀ r ∈ s.readers, r.slot = none) :
    ∃ t, s.Alone t ∧ t.garbage = [] ∧ t.epoch = s.epoch + 3 := by
  obtain ⟨t₁, h₁, hpl₁, he₁, hr₁, hb₁, hg₁⟩ := alone_tryAdvance hidle hslots
  obtain ⟨t₂, h₂, hpl₂, he₂, hr₂, hb₂, hg₂⟩ := alone_tryAdvance hpl₁ (hr₁ ▸ hslots)
  obtain ⟨t₃, h₃, -, he₃, -, -, hg₃⟩ := alone_tryAdvance hpl₂ (hr₂ ▸ hr₁ ▸ hslots)
  refine ⟨t₃, h₁.trans (h₂.trans h₃), List.eq_nil_iff_forall_not_mem.mpr fun q hq => ?_, by omega⟩
  obtain ⟨hq₂, hn₃⟩ := hg₃ q hq
  obtain ⟨hq₁, hn₂⟩ := hg₂ q hq₂
  obtain ⟨hq, hn₁⟩ := hg₁ q hq₁
  obtain ⟨hbin, hstripe⟩ := h.bins q hq
  rw [hb₂, hb₁, he₂, he₁] at hn₃
  rw [hb₁, he₁] at hn₂
  simp only [hstripe, and_true, BINS] at hn₁ hn₂ hn₃ hbin
  omega

/-- What holds at every moment. A block on a freelist or freed is under no pin older than its
unlink; what was pushed is in a bin or has left it, once; the epoch moves by one at the holder
of the lock, and over a run no faster than the lock is taken; and with the lock free and no
slot set, three advances empty the bins. -/
structure Reclaims (s : State) : Prop where
  unguarded : ∀ b ∈ s.released, ∀ r ∈ s.readers, ¬ r.Guards b
  distinct : s.pushed.Nodup
  once : s.pushed.Perm (s.garbage.map Binned.block ++ s.left)
  left : s.left.Perm (s.place.taken ++ s.carry ++ s.released)
  epoch : ∀ a t, s.step a = some t → t.epoch = s.epoch ∨
    (t.epoch = s.epoch + 1 ∧ s.place = .publishing s.epoch ∧ t.place = .published s.epoch)
  advances : ∀ as t, s.steps as = some t →
    s.epoch ≤ t.epoch ∧ t.epoch + t.place.credit ≤ s.epoch + s.place.credit + as.count .tryLock
  drains : s.place = .idle → (∀ r ∈ s.readers, r.slot = none) →
    ∃ t, s.Alone t ∧ t.garbage = [] ∧ t.epoch = s.epoch + 3

/-- Epoch reclamation is safe in every interleaving. -/
theorem epoch_reclamation_safe (h : s.Reachable) : Reclaims s where
  unguarded b hb := h.inv.safe b (h.inv.settled.mem_iff.mpr (List.mem_append_right _ hb))
  distinct := by
    have hnd := h.inv.nodup
    rw [List.map_append] at hnd
    exact List.Nodup.of_map _ (List.nodup_append'.mp hnd).2.1
  once := h.inv.conserved
  left := h.inv.settled
  epoch a t hs := (step_epoch hs).imp And.left id
  advances _ _ := steps_epoch
  drains := alone_drains h.inv

theorem reachable_of_steps {as : List Action} (h : s.Reachable) (hs : s.steps as = some t) :
    t.Reachable := by
  induction as generalizing s with
  | nil =>
    cases hs
    exact h
  | cons a as ih =>
    obtain ⟨u, hu, hut⟩ := Option.bind_eq_some_iff.mp hs
    exact ih (h.step hu) hut

def chunk : Garbage := ⟨0, 4096, 64, by decide⟩

/-- A reader pins, a chunk is unlinked and retired, and the epoch moves once under the pin; the
reader leaves, and the next advance frees the chunk. -/
def pinnedRun : List Action :=
  [.register, .pin 0, .pin 0, .pin 0, .unlink chunk, .retireLoad ⟨chunk, 0⟩, .raiseStripeBound 0,
    .retirePush (0, ⟨chunk, 0⟩) 0, .tryLock] ++ List.replicate 9 (.advance false) ++ [.unpin 0, .tryLock] ++
    List.replicate 12 (.advance false)

theorem epoch_reclamation_safe_pinned : ∃ s : State, State.new.steps pinnedRun = some s ∧
    s.freed = [⟨chunk, 0⟩] ∧ Reclaims s := by
  obtain ⟨s, hs, hf⟩ : ∃ s : State, State.new.steps pinnedRun = some s ∧ s.freed = [⟨chunk, 0⟩] :=
    ⟨_, rfl, rfl⟩
  exact ⟨s, hs, hf, epoch_reclamation_safe (reachable_of_steps .new hs)⟩

end Expanse.Occ
