import Mathlib
import Expanse.Blob.MapSpec

/-!
# What the reclaim rule copies

The counted operations follow the operations and keep a ledger: the live bytes that
compactions triggered by insertions copy, the chunk bytes opened for new records, and the
live bytes dropped by overwriting and removing. Compactions that the caller asks for are
not counted, and neither is what `clear` drops. `credit` is what the rule compares the
live bytes with; it is the potential of the amortised bound.
-/

namespace Expanse.Blob

open SortedAssoc Runs

@[ext] structure Ledger where
  copied : ℕ
  opened : ℕ
  dropped : ℕ
deriving DecidableEq, Repr

namespace Ledger

instance : Zero Ledger := ⟨⟨0, 0, 0⟩⟩

instance : Add Ledger := ⟨fun l l' => ⟨l.copied + l'.copied, l.opened + l'.opened, l.dropped + l'.dropped⟩⟩

@[simp] theorem zero_copied : (0 : Ledger).copied = 0 := rfl
@[simp] theorem zero_opened : (0 : Ledger).opened = 0 := rfl
@[simp] theorem zero_dropped : (0 : Ledger).dropped = 0 := rfl
@[simp] theorem add_copied (l l' : Ledger) : (l + l').copied = l.copied + l'.copied := rfl
@[simp] theorem add_opened (l l' : Ledger) : (l + l').opened = l.opened + l'.opened := rfl
@[simp] theorem add_dropped (l l' : Ledger) : (l + l').dropped = l.dropped + l'.dropped := rfl

end Ledger

namespace BlobMap

variable {m m' : BlobMap} {key : Key} {heap : Heap} {data : List Byte} {slot hotMeta g : ℕ}

/-- The chunk bytes a record opened. -/
def opening (m m' : BlobMap) : Ledger := ⟨0, m'.arena.totalAllocated - m.arena.totalAllocated, 0⟩

def dropping (m m' : BlobMap) : Ledger := ⟨0, 0, m.arena.liveBytes - m'.arena.liveBytes⟩

def copying (m : BlobMap) : Ledger := ⟨m.arena.liveBytes, 0, 0⟩

def reclaimForInsertCounted (heap : Heap) (m : BlobMap) :
    (Except ArenaError Bool × BlobMap) × Ledger :=
  if m.reclaimAtCap = false ∨ m.arena.reclaimAllowed = false then ((.ok false, m), 0)
  else
    match m.compact heap with
    | (.ok _, m') => ((.ok true, m'), copying m)
    | (.error e, m') => ((.error e, { m' with arena := m'.arena.resetReclaimBaseline }), copying m)

def allocAfterReclaimCounted (heap : Heap) (m : BlobMap) (data : List Byte) :
    (Except ArenaError ℕ × BlobMap) × Ledger :=
  match m.reclaimForInsertCounted heap with
  | ((.error e, m), l) => ((.error e, m), l)
  | ((.ok false, m), l) => ((.error .offsetOverflow, m), l)
  | ((.ok true, m), l) =>
    match m.arena.allocBlob (heap .retried) data with
    | .ok (global, arena) => ((.ok global, { m with arena := arena }), l + opening m { m with arena := arena })
    | .error e => ((.error (refusedAfterCompaction e), m), l)

def allocPayloadCounted (heap : Heap) (m : BlobMap) (data : List Byte) :
    (Except ArenaError ℕ × BlobMap) × Ledger :=
  match m.arena.allocBlob (heap .chunk) data with
  | .ok (global, arena) => ((.ok global, { m with arena := arena }), opening m { m with arena := arena })
  | .error .offsetOverflow => m.allocAfterReclaimCounted heap data
  | .error e => ((.error e, m), 0)

def insertCounted (heap : Heap) (m : BlobMap) (key : Key) (data : List Byte) (hotMeta : ℕ) :
    (Except ArenaError Unit × BlobMap) × Ledger :=
  match slotWordValue data hotMeta with
  | some slot => ((.ok (), m.store key slot), dropping m (m.store key slot))
  | none =>
    if hotMeta > ValueSlot.ARENA_META_MAX then ((.error .metaOverflow, m), 0)
    else
      match m.allocPayloadCounted heap data with
      | ((.error e, m), l) => ((.error e, m), l)
      | ((.ok global, m), l) =>
        match slotFromGlobal global hotMeta with
        | .error e => ((.error e, m), l)
        | .ok slot => ((.ok (), m.store key slot), l + dropping m (m.store key slot))

def entry (m : BlobMap) : Op → Ledger
  | .insert heap key data hotMeta => (m.insertCounted heap key data hotMeta).2
  | .compareExchange heap key expected new =>
    if blobValueMatches (m.get key) expected then
      match new with
      | some (data, hotMeta) => (m.insertCounted heap key data hotMeta).2
      | none => dropping m (m.remove key).2
    else 0
  | .remove key => dropping m (m.remove key).2
  | .compareExchangeMeta key expected new => dropping m (m.compareExchangeMeta key expected new).2
  | _ => 0

def ledger (m : BlobMap) : List Op → Ledger
  | [] => 0
  | op :: ops => m.entry op + ledger (m.step op).2 ops

theorem reclaimForInsertCounted_value (heap : Heap) (m : BlobMap) :
    (m.reclaimForInsertCounted heap).1 = m.reclaimForInsert heap := by
  unfold reclaimForInsertCounted reclaimForInsert
  split_ifs
  · rfl
  · cases m.compact heap with
    | mk r m' =>
      cases r with
      | error e => rfl
      | ok stats => rfl

theorem allocAfterReclaimCounted_value (heap : Heap) (m : BlobMap) (data : List Byte) :
    (m.allocAfterReclaimCounted heap data).1 = m.allocAfterReclaim heap data := by
  unfold allocAfterReclaimCounted allocAfterReclaim
  rw [← reclaimForInsertCounted_value]
  obtain ⟨⟨r, m'⟩, l⟩ := m.reclaimForInsertCounted heap
  cases r with
  | error e => rfl
  | ok ran =>
    cases ran with
    | false => rfl
    | true =>
      dsimp only
      cases m'.arena.allocBlob (heap .retried) data with
      | error e => rfl
      | ok p => rfl

theorem allocPayloadCounted_value (heap : Heap) (m : BlobMap) (data : List Byte) :
    (m.allocPayloadCounted heap data).1 = m.allocPayload heap data := by
  unfold allocPayloadCounted allocPayload
  rw [← allocAfterReclaimCounted_value]
  cases m.arena.allocBlob (heap .chunk) data with
  | ok p => rfl
  | error e => cases e <;> rfl

theorem insertCounted_value (heap : Heap) (m : BlobMap) (key : Key) (data : List Byte) (hotMeta : ℕ) :
    (m.insertCounted heap key data hotMeta).1 = m.insert heap key data hotMeta := by
  unfold insertCounted insert
  rw [← allocPayloadCounted_value]
  cases slotWordValue data hotMeta with
  | some slot => rfl
  | none =>
    dsimp only
    split_ifs
    · rfl
    · obtain ⟨⟨r, m'⟩, l⟩ := m.allocPayloadCounted heap data
      cases r with
      | error e => rfl
      | ok g =>
        dsimp only
        cases slotFromGlobal g hotMeta with
        | error e => rfl
        | ok slot => rfl

/-- The chunk bytes grown and the live bytes dropped since the baseline. -/
def credit (m : BlobMap) : ℕ :=
  (m.arena.totalAllocated - m.arena.compactedTotal) + (m.arena.compactedLive - m.arena.liveBytes)

def Pays (m m' : BlobMap) (l : Ledger) : Prop :=
  l.copied + m'.credit ≤ m.credit + l.opened + l.dropped

theorem Pays.refl (m : BlobMap) : Pays m m 0 := Nat.le_of_eq (by simp)

theorem Pays.trans {m'' : BlobMap} {l l' : Ledger} (h : Pays m m' l) (h' : Pays m' m'' l') :
    Pays m m'' (l + l') := by
  rw [Pays, Ledger.add_copied, Ledger.add_opened, Ledger.add_dropped]
  rw [Pays] at h h'
  omega

theorem pays_alloc (hs : m.Sound) (hm : m.Accounted) {granted : Bool} {arena : BlobArena}
    (h : m.arena.allocBlob granted data = .ok (g, arena)) :
    Pays m { m with arena := arena } (opening m { m with arena := arena }) := by
  have hal := BlobArena.allocBlob_spec hs.arena h
  have hlive := Exact.allocated_live hm (fun e he ht => hs.backed.resolves he ht) hal
  have htotal := hal.total
  have hbt := hal.baseTotal
  have hbl := hal.baseLive
  simp only [Pays, credit, opening]
  omega

theorem pays_discharge (m : BlobMap) (index : List (ℕ × ℕ)) (n : ℕ) :
    Pays m { m with index := index, arena := m.arena.withLive (m.arena.liveBytes - n) }
      (dropping m { m with index := index, arena := m.arena.withLive (m.arena.liveBytes - n) }) := by
  simp only [Pays, credit, dropping, BlobArena.withLive]
  omega

theorem pays_store (m : BlobMap) (key : Key) (slot : ℕ) :
    Pays m (m.store key slot) (dropping m (m.store key slot)) := by
  have h := pays_discharge m (put key.val slot m.index) (total (oldSpan m.arena m.index key.val))
  rw [← dischargeKey_eq] at h
  exact h

theorem pays_remove (m : BlobMap) (key : Key) :
    Pays m (m.remove key).2 (dropping m (m.remove key).2) := by
  have h := pays_discharge m (m.remove key).2.index (total (oldSpan m.arena m.index key.val))
  rw [← dischargeKey_eq] at h
  rw [remove_eq]
  exact h

/-- Where the baseline has just been set, nothing is owed. -/
theorem credit_of_baseline (ht : m.arena.compactedTotal = m.arena.totalAllocated)
    (hl : m.arena.compactedLive = m.arena.liveBytes) : m.credit = 0 := by
  rw [credit, ht, hl]
  omega

theorem compact_ok_baseline (heap : Heap) {stats : CompactionStats} (h : (m.compact heap).1 = .ok stats) :
    (m.compact heap).2.arena.compactedTotal = (m.compact heap).2.arena.totalAllocated ∧
      (m.compact heap).2.arena.compactedLive = (m.compact heap).2.arena.liveBytes := by
  unfold compact at h ⊢
  cases hp : m.arena.prepareCompaction heap m.index with
  | error e =>
    rw [hp] at h
    cases h
  | ok p => exact ⟨rfl, rfl⟩

theorem compact_error {e : ArenaError} (h : (m.compact heap).1 = .error e) : (m.compact heap).2 = m := by
  unfold compact at h ⊢
  cases hp : m.arena.prepareCompaction heap m.index with
  | error e => rfl
  | ok p =>
    rw [hp] at h
    cases h

theorem allowed_iff : m.arena.reclaimAllowed = true ↔
    m.arena.liveBytes ≤ m.credit ∧ m.arena.liveBytes * 2 < m.arena.totalAllocated := by
  rw [BlobArena.reclaimAllowed, decide_eq_true_iff, RECLAIM_COPY_PER_GROWTH, Nat.one_mul, credit]

theorem pays_reclaim (heap : Heap) (m : BlobMap) :
    Pays m (m.reclaimForInsertCounted heap).1.2 (m.reclaimForInsertCounted heap).2 := by
  unfold reclaimForInsertCounted
  split_ifs with hoff
  · exact Pays.refl m
  · have hall : m.arena.reclaimAllowed = true := by
      cases h : m.arena.reclaimAllowed with
      | false => exact absurd (.inr h) hoff
      | true => rfl
    have hle := (allowed_iff.mp hall).1
    cases hc : m.compact heap with
    | mk r m' =>
      cases r with
      | ok stats =>
        have hbase := compact_ok_baseline heap (show (m.compact heap).1 = .ok stats by rw [hc])
        rw [hc] at hbase
        have hzero : m'.credit = 0 := credit_of_baseline hbase.1 hbase.2
        simp only [Pays, copying, hzero]
        omega
      | error e =>
        have hzero : credit { m' with arena := m'.arena.resetReclaimBaseline } = 0 := credit_of_baseline rfl rfl
        simp only [Pays, copying, hzero]
        omega

theorem pays_allocAfterReclaim (hs : m.Sound) (hm : m.Accounted) :
    Pays m (m.allocAfterReclaimCounted heap data).1.2 (m.allocAfterReclaimCounted heap data).2 := by
  unfold allocAfterReclaimCounted
  have hp := pays_reclaim heap m
  have hk := reclaimForInsert_kept heap hs
  rw [← reclaimForInsertCounted_value] at hk
  generalize m.reclaimForInsertCounted heap = r at hp hk
  obtain ⟨⟨r, m'⟩, l⟩ := r
  cases r with
  | error e => exact hp
  | ok ran =>
    cases ran with
    | false => exact hp
    | true =>
      dsimp only at hp hk ⊢
      cases hal : m'.arena.allocBlob (heap .retried) data with
      | error e => exact hp
      | ok p => exact hp.trans (pays_alloc hk.sound (hk.accounted hm) hal)

theorem pays_allocPayload (heap : Heap) (data : List Byte) (hs : m.Sound) (hm : m.Accounted) :
    Pays m (m.allocPayloadCounted heap data).1.2 (m.allocPayloadCounted heap data).2 := by
  unfold allocPayloadCounted
  cases hal : m.arena.allocBlob (heap .chunk) data with
  | ok p => exact pays_alloc hs hm hal
  | error e =>
    cases e with
    | offsetOverflow => exact pays_allocAfterReclaim hs hm
    | allocationFailed => exact Pays.refl m
    | arenaFull => exact Pays.refl m
    | metaOverflow => exact Pays.refl m
    | noMetaField => exact Pays.refl m
    | invalidOffset => exact Pays.refl m
    | generationMismatch => exact Pays.refl m
    | corruptedHeader => exact Pays.refl m
    | unsupportedFormatVersion found supported => exact Pays.refl m

theorem pays_insert (heap : Heap) (key : Key) (data : List Byte) (hotMeta : ℕ) (hs : m.Sound)
    (hm : m.Accounted) :
    Pays m (m.insertCounted heap key data hotMeta).1.2 (m.insertCounted heap key data hotMeta).2 := by
  unfold insertCounted
  cases slotWordValue data hotMeta with
  | some slot => exact pays_store m key slot
  | none =>
    dsimp only
    split_ifs
    · exact Pays.refl m
    · have hp := pays_allocPayload heap data hs hm
      generalize m.allocPayloadCounted heap data = r at hp
      obtain ⟨⟨r, m'⟩, l⟩ := r
      cases r with
      | error e => exact hp
      | ok g =>
        dsimp only at hp ⊢
        cases slotFromGlobal g hotMeta with
        | error e => exact hp
        | ok slot => exact hp.trans (pays_store m' key slot)

theorem compareExchangeMeta_arena (m : BlobMap) (key : Key) (expected new : Option ℕ) :
    ∃ index n, (m.compareExchangeMeta key expected new).2 =
      { m with index := index, arena := m.arena.withLive (m.arena.liveBytes - n) } := by
  have hsame : ∃ index n, m = { m with index := index, arena := m.arena.withLive (m.arena.liveBytes - n) } :=
    ⟨m.index, 0, rfl⟩
  unfold compareExchangeMeta
  dsimp only
  split_ifs with hne hmax
  · exact hsame
  · exact hsame
  · cases m.index.lookup key.val with
    | none =>
      cases new with
      | none => exact hsame
      | some n => exact hsame
    | some raw =>
      cases new with
      | none => exact ⟨del key.val m.index, discharge m.arena raw, by rw [← recordDeletedSlot_eq]⟩
      | some n =>
        dsimp only
        split_ifs with ht hzero
        · cases ValueSlot.withArenaMetaMeta raw n with
          | none => exact hsame
          | some slot => exact ⟨_, 0, rfl⟩
        · exact hsame
        · exact hsame

theorem pays_step (hs : m.Sound) (hm : m.Accounted) (op : Op) : Pays m (m.step op).2 (m.entry op) := by
  cases op with
  | get key => exact Pays.refl m
  | insert heap key data hotMeta =>
    have h := pays_insert heap key data hotMeta hs hm
    rw [insertCounted_value] at h
    exact h
  | remove key => exact pays_remove m key
  | compareExchange heap key expected new =>
    simp only [step, entry]
    unfold compareExchange
    dsimp only
    cases hmatch : blobValueMatches (m.get key) expected with
    | false => exact Pays.refl m
    | true =>
      rw [if_neg (by simp), if_pos rfl]
      cases new with
      | none => exact pays_remove m key
      | some v =>
        obtain ⟨data, hotMeta⟩ := v
        have h := pays_insert heap key data hotMeta hs hm
        rw [insertCounted_value] at h
        dsimp only
        generalize m.insert heap key data hotMeta = r at h
        obtain ⟨r, m'⟩ := r
        cases r with
        | ok u => exact h
        | error e => exact h
  | compareExchangeMeta key expected new =>
    obtain ⟨index, n, heq⟩ := compareExchangeMeta_arena m key expected new
    simp only [step, entry, heq]
    exact pays_discharge m index n
  | compact heap =>
    simp only [step, entry]
    cases hr : (m.compact heap).1 with
    | ok stats =>
      obtain ⟨ht, hl⟩ := compact_ok_baseline heap hr
      simp only [Pays, credit_of_baseline ht hl, Ledger.zero_copied]
      omega
    | error e =>
      rw [compact_error hr]
      exact Pays.refl m
  | clear =>
    have hzero : m.clear.credit = 0 := credit_of_baseline rfl rfl
    simp only [step, entry, Pays, hzero, Ledger.zero_copied]
    omega
  | setReclaimAtCap on => exact Pays.refl m

theorem pays_run (hs : m.Sound) (hm : m.Accounted) (ops : List Op) :
    Pays m (refRun step m ops).2 (m.ledger ops) := by
  induction ops generalizing m with
  | nil => exact Pays.refl m
  | cons op ops ih =>
    have hp := step_proceeds hs op
    exact (pays_step hs hm op).trans (ih hp.sound (hp.accounted hm))

/-- Nothing has grown and no live byte has gone since the baseline. -/
structure Rested (m : BlobMap) : Prop where
  total : m.arena.totalAllocated = m.arena.compactedTotal
  live : m.arena.compactedLive ≤ m.arena.liveBytes
  empty : m.arena.liveBytes = 0 → m.arena.totalAllocated = 0

theorem Rested.not_allowed (h : m.Rested) : m.arena.reclaimAllowed = false := by
  have ht := h.total
  have hl := h.live
  have he := h.empty
  rw [Bool.eq_false_iff]
  intro hall
  obtain ⟨hle, hhalf⟩ := allowed_iff.mp hall
  rw [credit] at hle
  omega

theorem compact_rested (hs : m.Sound) {stats : CompactionStats} (h : (m.compact heap).1 = .ok stats) :
    (m.compact heap).2.Rested := by
  obtain ⟨ht, hl⟩ := compact_ok_baseline heap h
  refine ⟨ht.symm, hl.le, fun hzero => ?_⟩
  unfold compact at h hzero ⊢
  cases hp : m.arena.prepareCompaction heap m.index with
  | error e =>
    rw [hp] at h
    cases h
  | ok p =>
    rw [hp] at hzero
    have hc := prepareCompaction_spec hs.arena hs.backed hp
    have hlive : p.newArena.liveBytes = 0 := hzero
    refine hc.empty ?_
    cases hk : p.rewrites with
    | nil => rfl
    | cons e rest =>
      have he : e ∈ p.rewrites := by rw [hk]; exact List.mem_cons_self
      obtain ⟨e₀, -, hm⟩ := hc.of_mem_kept he
      obtain ⟨d, hd⟩ := hc.resolves e he hm.tag_eq
      rw [hc.exact.live, List.nil_append, hk, spans_cons, total_append, spanOf, if_pos hm.tag_eq, charge,
        hd] at hlive
      simp [Blob.total] at hlive

theorem clear_rested (m : BlobMap) : m.clear.Rested := ⟨rfl, Nat.le_refl _, fun _ => rfl⟩

theorem Rested.withLive (h : m.Rested) (index : List (ℕ × ℕ)) {n : ℕ}
    (hd : (dropping m
      { m with index := index, arena := m.arena.withLive (m.arena.liveBytes - n) }).dropped = 0) :
    Rested { m with index := index, arena := m.arena.withLive (m.arena.liveBytes - n) } := by
  have hl := h.live
  have he := h.empty
  simp only [dropping, BlobArena.withLive] at hd
  have hsame : m.arena.liveBytes - n = m.arena.liveBytes := by omega
  refine ⟨h.total, ?_, ?_⟩
  · simp only [BlobArena.withLive]
    omega
  · simp only [BlobArena.withLive]
    intro hzero
    exact he (by omega)

theorem Rested.store (h : m.Rested) (key : Key) (slot : ℕ) (hd : (dropping m (m.store key slot)).dropped = 0) :
    (m.store key slot).Rested := by
  have heq : m.store key slot = { m with
      index := put key.val slot m.index
      arena := m.arena.withLive (m.arena.liveBytes - Blob.total (oldSpan m.arena m.index key.val)) } := by
    rw [← dischargeKey_eq]
    rfl
  rw [heq] at hd ⊢
  exact h.withLive _ hd

theorem Rested.remove (h : m.Rested) (key : Key) (hd : (dropping m (m.remove key).2).dropped = 0) :
    (m.remove key).2.Rested := by
  rw [remove_eq, dischargeKey_eq] at hd ⊢
  exact h.withLive _ hd

theorem Rested.alloc (h : m.Rested) (hs : m.Sound) (hm : m.Accounted) {granted : Bool} {arena : BlobArena}
    (hal : m.arena.allocBlob granted data = .ok (g, arena))
    (ho : (opening m { m with arena := arena }).opened = 0) : Rested { m with arena := arena } := by
  have hal := BlobArena.allocBlob_spec hs.arena hal
  have hlive := Exact.allocated_live hm (fun e he ht => hs.backed.resolves he ht) hal
  have ht := h.total
  have hl := h.live
  have hge := hal.total
  have hbt := hal.baseTotal
  have hbl := hal.baseLive
  simp only [opening] at ho
  refine ⟨?_, ?_, ?_⟩
  · dsimp only
    omega
  · dsimp only
    omega
  · dsimp only
    omega

/-- An insertion on a rested map compacts nothing. -/
theorem Rested.insert (h : m.Rested) (hs : m.Sound) (hm : m.Accounted)
    (ho : (m.insertCounted heap key data hotMeta).2.opened = 0)
    (hd : (m.insertCounted heap key data hotMeta).2.dropped = 0) :
    (m.insertCounted heap key data hotMeta).1.2.Rested := by
  have hoff : m.reclaimAtCap = false ∨ m.arena.reclaimAllowed = false := .inr h.not_allowed
  unfold insertCounted at ho hd ⊢
  cases hw : slotWordValue data hotMeta with
  | some slot =>
    rw [hw] at hd
    exact h.store key slot hd
  | none =>
    rw [hw] at ho hd
    dsimp only at ho hd ⊢
    split_ifs at ho hd ⊢ with hmax
    · exact h
    · unfold allocPayloadCounted allocAfterReclaimCounted reclaimForInsertCounted at ho hd ⊢
      rw [if_pos hoff] at ho hd ⊢
      cases hal : m.arena.allocBlob (heap .chunk) data with
      | error e => cases e <;> exact h
      | ok p =>
        rw [hal] at ho hd
        dsimp only at ho hd ⊢
        have hopen : (opening m { m with arena := p.2 }).opened = 0 := by
          cases hsl : slotFromGlobal p.1 hotMeta with
          | error e =>
            rw [hsl] at ho
            exact ho
          | ok slot =>
            rw [hsl, Ledger.add_opened] at ho
            exact (Nat.add_eq_zero_iff.mp ho).1
        have hr := h.alloc hs hm hal hopen
        cases hsl : slotFromGlobal p.1 hotMeta with
        | error e => exact hr
        | ok slot =>
          rw [hsl, Ledger.add_dropped] at hd
          exact hr.store key slot (Nat.add_eq_zero_iff.mp hd).2

theorem Rested.step (h : m.Rested) (hs : m.Sound) (hm : m.Accounted) (op : Op)
    (ho : (m.entry op).opened = 0) (hd : (m.entry op).dropped = 0) : (m.step op).2.Rested := by
  cases op with
  | get key => exact h
  | insert heap key data hotMeta =>
    have hr := h.insert hs hm ho hd
    rw [insertCounted_value] at hr
    exact hr
  | remove key => exact h.remove key hd
  | compareExchange heap key expected new =>
    simp only [BlobMap.step, entry] at ho hd ⊢
    unfold compareExchange
    dsimp only
    cases hmatch : blobValueMatches (m.get key) expected with
    | false => exact h
    | true =>
      rw [hmatch, if_pos rfl] at ho hd
      rw [if_neg (by simp)]
      cases new with
      | none => exact h.remove key hd
      | some v =>
        obtain ⟨data, hotMeta⟩ := v
        have hr := h.insert hs hm ho hd
        rw [insertCounted_value] at hr
        dsimp only
        generalize m.insert heap key data hotMeta = r at hr
        obtain ⟨r, m'⟩ := r
        cases r with
        | ok u => exact hr
        | error e => exact hr
  | compareExchangeMeta key expected new =>
    obtain ⟨index, n, heq⟩ := compareExchangeMeta_arena m key expected new
    simp only [BlobMap.step, entry, heq] at hd ⊢
    exact h.withLive index hd
  | compact heap =>
    simp only [BlobMap.step]
    cases hr : (m.compact heap).1 with
    | ok stats => exact compact_rested hs hr
    | error e =>
      rw [compact_error hr]
      exact h
  | clear => exact clear_rested m
  | setReclaimAtCap on => exact ⟨h.total, h.live, h.empty⟩

/-- The reclaim rule stays off until a chunk is opened or a live byte dropped. -/
def Quiet (m : BlobMap) : Prop :=
  ∀ ops, (m.ledger ops).opened = 0 → (m.ledger ops).dropped = 0 →
    (refRun BlobMap.step m ops).2.arena.reclaimAllowed = false

theorem Rested.quiet (h : m.Rested) (hs : m.Sound) (hm : m.Accounted) : m.Quiet := by
  intro ops
  induction ops generalizing m with
  | nil => exact fun _ _ => h.not_allowed
  | cons op ops ih =>
    intro ho hd
    rw [ledger, Ledger.add_opened, Nat.add_eq_zero_iff] at ho
    rw [ledger, Ledger.add_dropped, Nat.add_eq_zero_iff] at hd
    have hp := step_proceeds hs op
    exact ih (h.step hs hm op ho.1 hd.1) hp.sound (hp.accounted hm) ho.2 hd.2

/-- What an insertion copies: nothing, or the live bytes, under half the chunk bytes. -/
theorem insert_copied (heap : Heap) (m : BlobMap) (key : Key) (data : List Byte) (hotMeta : ℕ) :
    (m.insertCounted heap key data hotMeta).2.copied = 0 ∨
      (m.insertCounted heap key data hotMeta).2.copied = m.arena.liveBytes ∧
        2 * m.arena.liveBytes < m.arena.totalAllocated := by
  have hreclaim : (m.reclaimForInsertCounted heap).2.copied = 0 ∨
      (m.reclaimForInsertCounted heap).2.copied = m.arena.liveBytes ∧
        2 * m.arena.liveBytes < m.arena.totalAllocated := by
    unfold reclaimForInsertCounted
    split_ifs with hoff
    · exact .inl rfl
    · have hall : m.arena.reclaimAllowed = true := by
        cases h : m.arena.reclaimAllowed with
        | false => exact absurd (.inr h) hoff
        | true => rfl
      have hhalf := (allowed_iff.mp hall).2
      cases m.compact heap with
      | mk r m' => cases r <;> exact .inr ⟨rfl, by omega⟩
  have hafter : (m.allocAfterReclaimCounted heap data).2.copied = (m.reclaimForInsertCounted heap).2.copied := by
    unfold allocAfterReclaimCounted
    generalize m.reclaimForInsertCounted heap = r
    obtain ⟨⟨r, m'⟩, l⟩ := r
    cases r with
    | error e => rfl
    | ok ran =>
      cases ran with
      | false => rfl
      | true =>
        dsimp only
        cases m'.arena.allocBlob (heap .retried) data with
        | error e => rfl
        | ok p => exact Nat.add_zero _
  have hpayload : (m.allocPayloadCounted heap data).2.copied = 0 ∨
      (m.allocPayloadCounted heap data).2.copied = (m.reclaimForInsertCounted heap).2.copied := by
    unfold allocPayloadCounted
    cases m.arena.allocBlob (heap .chunk) data with
    | ok p => exact .inl rfl
    | error e =>
      cases e with
      | offsetOverflow => exact .inr hafter
      | allocationFailed => exact .inl rfl
      | arenaFull => exact .inl rfl
      | metaOverflow => exact .inl rfl
      | noMetaField => exact .inl rfl
      | invalidOffset => exact .inl rfl
      | generationMismatch => exact .inl rfl
      | corruptedHeader => exact .inl rfl
      | unsupportedFormatVersion found supported => exact .inl rfl
  have hinsert : (m.insertCounted heap key data hotMeta).2.copied = 0 ∨
      (m.insertCounted heap key data hotMeta).2.copied = (m.allocPayloadCounted heap data).2.copied := by
    unfold insertCounted
    cases slotWordValue data hotMeta with
    | some slot => exact .inl rfl
    | none =>
      dsimp only
      split_ifs
      · exact .inl rfl
      · generalize m.allocPayloadCounted heap data = r
        obtain ⟨⟨r, m'⟩, l⟩ := r
        cases r with
        | error e => exact .inr rfl
        | ok g =>
          dsimp only
          cases slotFromGlobal g hotMeta with
          | error e => exact .inr rfl
          | ok slot => exact .inr (Nat.add_zero _)
  rcases hinsert with h | h
  · exact .inl h
  · rcases hpayload with h' | h'
    · exact .inl (h.trans h')
    · rw [h, h']
      exact hreclaim

theorem compact_copies (hs : m.Sound) (hm : m.Accounted) {stats : CompactionStats}
    (h : (m.compact heap).1 = .ok stats) : stats.liveBytesAfter = m.arena.liveBytes := by
  unfold compact at h
  cases hp : m.arena.prepareCompaction heap m.index with
  | error e =>
    rw [hp] at h
    cases h
  | ok p =>
    rw [hp] at h
    obtain rfl := Except.ok.inj h
    have hc := prepareCompaction_spec hs.arena hs.backed hp
    have hlive := Exact.live hm
    rw [List.nil_append] at hlive
    show p.newArena.liveBytes = m.arena.liveBytes
    rw [hc.total_eq fun e he => (mem_arenaEntries.mp he).2, spans_arenaEntries, hlive]

theorem reclaim_error_rested {e : ArenaError} (h : (m.reclaimForInsert heap).1 = .error e)
    (hpos : 0 < m.arena.liveBytes) : (m.reclaimForInsert heap).2.Rested := by
  unfold reclaimForInsert at h ⊢
  split_ifs at h ⊢ with hoff
  have herr : ∀ e, (m.compact heap).1 = .error e → (m.compact heap).2 = m := fun e he => compact_error he
  generalize m.compact heap = r at h herr
  obtain ⟨r, m'⟩ := r
  cases r with
  | ok stats => cases h
  | error e' =>
    have hm' : m' = m := herr e' rfl
    subst hm'
    refine ⟨rfl, Nat.le_refl _, fun hzero => ?_⟩
    have hzero : m'.arena.liveBytes = 0 := hzero
    omega

end BlobMap

end Expanse.Blob
