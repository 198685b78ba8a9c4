import Mathlib.Logic.Function.Basic
import Expanse.Library.Runs
import Expanse.Store.SlotInv

/-!
# `ExpanseMap`

The public operations of the map on 64-bit keys and values, and their runs. The
reference is a partial function. Two kinds of steps leave it: a stale hit, as for
the set, and an insert that reaches a full narrow `Leaf1`, whose promotion to a
bitmap leaf indexes out of bounds.
-/

namespace Expanse

open Radix SortedAssoc Edge Runs

abbrev ExpanseMap : Type := Store UInt64

namespace ExpanseMap

open Store

def insert (s : ExpanseMap) (key val : UInt64) : Except Fault (Option UInt64 × ExpanseMap) :=
  match insertInner .map false s key.toNat val with
  | .ok o => .ok (o.old, o.store)
  | .error f => .error f

def get (s : ExpanseMap) (key : UInt64) : Option UInt64 := s.find key.toNat

def remove (s : ExpanseMap) (key : UInt64) : Except Fault (Option UInt64 × ExpanseMap) :=
  removeInner .map s key.toNat

/-- `update`: two descents, a lookup and then an insert or a removal. -/
def update (s : ExpanseMap) (key : UInt64) (f : Option UInt64 → Option UInt64) :
    Except Fault (Option UInt64 × ExpanseMap) :=
  let old := get s key
  match f old with
  | some v =>
    match insert s key v with
    | .ok (_, s') => .ok (old, s')
    | .error e => .error e
  | none =>
    if old.isSome then
      match remove s key with
      | .ok (_, s') => .ok (old, s')
      | .error e => .error e
    else .ok (old, s)

/-- The operations. A slot is stored through right after it is handed out: always by `insSlot`,
and by `getValueSlot` when there is a value to store. `flush` stands for the reads that flush the
insert path first. -/
inductive Op where
  | insert (key val : UInt64)
  | get (key : UInt64)
  | remove (key : UInt64)
  | insSlot (key val : UInt64)
  | getValueSlot (key : UInt64) (val : Option UInt64)
  | update (key : UInt64) (f : Option UInt64 → Option UInt64)
  | clear
  | flush

/-- The answers. A slot is observed through the key and the value it addresses. -/
inductive Out where
  | value (v : Option UInt64)
  | slot (a : Option (Option (ℕ × UInt64)))
  | unit
deriving DecidableEq

def answer : Except Fault (Option UInt64 × ExpanseMap) → Except Fault (Out × ExpanseMap)
  | .ok (old, s) => .ok (.value old, s)
  | .error f => .error f

def step (s : ExpanseMap) : Op → Except Fault (Out × ExpanseMap)
  | .insert key val => answer (insert s key val)
  | .get key => .ok (.value (get s key), s)
  | .remove key => answer (remove s key)
  | .insSlot key val =>
    match s.insSlot key.toNat with
    | .ok o => .ok (.slot (some (o.store.entryAt o.addr)), o.store.writeAt o.addr val)
    | .error f => .error f
  | .getValueSlot key val =>
    match s.getValueSlot key.toNat with
    | some a => .ok (.slot (some (s.entryAt a)), val.elim s (s.writeAt a))
    | none => .ok (.slot none, s)
  | .update key f => answer (update s key f)
  | .clear => .ok (.unit, s.clear)
  | .flush => .ok (.unit, s.flushPath)

/-- The reference: a partial function on words. -/
def refStep (m : UInt64 → Option UInt64) : Op → Out × (UInt64 → Option UInt64)
  | .insert key val => (.value (m key), Function.update m key (some val))
  | .get key => (.value (m key), m)
  | .remove key => (.value (m key), Function.update m key none)
  | .insSlot key val =>
    (.slot (some (some (key.toNat, (m key).getD 0))), Function.update m key (some val))
  | .getValueSlot key val =>
    (.slot ((m key).map fun v => some (key.toNat, v)),
      Function.update m key ((m key).map fun v => val.getD v))
  | .update key f => (.value (m key), Function.update m key (f (m key)))
  | .clear => (.unit, fun _ => none)
  | .flush => (.unit, m)

/-- The map stores the bindings of `m`. -/
def Holds (s : ExpanseMap) (m : UInt64 → Option UInt64) : Prop :=
  ∀ k v, m k = some v ↔ (k.toNat, v) ∈ s.items

variable {lo : ℕ → ℕ → ℕ} {s s' : ExpanseMap} {m : UInt64 → Option UInt64} {key val : UInt64}

theorem Holds.of_updated (hm : Holds s m) (h : Updated key.toNat val s.items s'.items) :
    Holds s' (Function.update m key (some val)) := by
  intro k v
  rw [h k.toNat v]
  by_cases hk : k = key
  · subst hk
    simp [eq_comm]
  · have hne : k.toNat ≠ key.toNat := fun he => hk (UInt64.toNat_inj.mp he)
    rw [Function.update_of_ne hk, hm k v]
    simp [hne]

theorem Holds.of_erased (hm : Holds s m) (h : Erased key.toNat s.items s'.items) :
    Holds s' (Function.update m key none) := by
  intro k v
  rw [h k.toNat v]
  by_cases hk : k = key
  · subst hk
    simp
  · have hne : k.toNat ≠ key.toNat := fun he => hk (UInt64.toNat_inj.mp he)
    rw [Function.update_of_ne hk, hm k v]
    simp [hne]

theorem Holds.value_eq {old : Option UInt64} (hm : Holds s m)
    (h : ∀ v, old = some v ↔ (key.toNat, v) ∈ s.items) : old = m key := by
  ext v
  rw [h v, hm key v]

theorem get_eq (h : Inv .map lo s) (hm : Holds s m) (key : UInt64) : get s key = m key :=
  hm.value_eq fun _ => find_spec h (toNat_lt key)

theorem holds_new : Holds (Store.new : ExpanseMap) fun _ => none := by
  intro k v
  simp [items, Store.new]

/-- Inserts that do not bind their key: stale hits and panics. -/
def FaultyInsert (s : ExpanseMap) (key : UInt64) : Prop :=
  Stale s key.toNat ∨ PanicsAt s key.toNat

/-- The operations that leave the reference. -/
def FaultyOp (s : ExpanseMap) : Op → Prop
  | .insert key _ => FaultyInsert s key
  | .insSlot key _ => FaultyInsert s key
  | .getValueSlot key _ => Stale s key.toNat
  | .update key f => (f (get s key)).isSome ∧ FaultyInsert s key
  | _ => False

theorem insert_refines (h : Inv .map (fun _ _ => 0) s) (hm : Holds s m)
    (hf : ¬ FaultyInsert s key) (val : UInt64) :
    ∃ s', insert s key val = .ok (m key, s') ∧ Inv .map (fun _ _ => 0) s' ∧
      Holds s' (Function.update m key (some val)) := by
  rw [FaultyInsert, not_or] at hf
  obtain ⟨o, ho, hi⟩ := insertInner_spec false val h (toNat_lt key) hf.1
    (cleanAt_of_safe hf.2) admits_zero (by simp)
  exact ⟨o.store, by simp only [insert, ho, hm.value_eq hi.old], hi.inv, hm.of_updated hi.content⟩

theorem remove_refines (h : Inv .map (fun _ _ => 0) s) (hm : Holds s m) (key : UInt64) :
    ∃ s', remove s key = .ok (m key, s') ∧ Inv .map (fun _ _ => 0) s' ∧
      Holds s' (Function.update m key none) := by
  obtain ⟨old, s', hr, hsp⟩ := removeInner_spec h (toNat_lt key) admitsNarrow_zero
  exact ⟨s', by rw [remove, hr, hm.value_eq hsp.old], hsp.inv, hm.of_erased hsp.content⟩

theorem insSlot_refines (h : Inv .map (fun _ _ => 0) s) (hm : Holds s m)
    (hf : ¬ FaultyInsert s key) (val : UInt64) :
    ∃ s', step s (.insSlot key val) = .ok (.slot (some (some (key.toNat, (m key).getD 0))), s') ∧
      Inv .map (fun _ _ => 0) s' ∧ Holds s' (Function.update m key (some val)) := by
  rw [FaultyInsert, not_or] at hf
  obtain ⟨o, ho, hi⟩ := insSlot_spec h (toNat_lt key) hf.1 (cleanAt_of_safe hf.2) admits_zero
  have haddr := hi.addr rfl
  have hold := hm.value_eq hi.old
  obtain ⟨hinv, hup, -⟩ := writeAt_spec hi.inv haddr val
  refine ⟨o.store.writeAt o.addr val, ?_, hinv, ?_⟩
  · simp only [step, ho, haddr, hold]
    rfl
  · have := (hm.of_updated hi.content).of_updated hup
    rwa [Function.update_idem] at this

theorem getValueSlot_refines (h : Inv .map lo s) (hm : Holds s m) (hst : ¬ Stale s key.toNat)
    (val : Option UInt64) :
    ∃ s', step s (.getValueSlot key val) =
        .ok (.slot ((m key).map fun v => some (key.toNat, v)), s') ∧ Inv .map lo s' ∧
      Holds s' (Function.update m key ((m key).map fun v => val.getD v)) := by
  have hslot := getValueSlot_eq h (toNat_lt key) hst
  cases hv : m key with
  | none =>
    have hnone : s.getSlotPtr key.toNat = none := by
      apply getSlotPtr_of_not_mem h (toNat_lt key)
      intro v hmem
      rw [← hm, hv] at hmem
      cases hmem
    refine ⟨s, by simp only [step, hslot, hnone]; rfl, h, ?_⟩
    rw [Option.map_none, ← hv, Function.update_eq_self]
    exact hm
  | some v =>
    obtain ⟨a, ha, hat⟩ := getSlotPtr_of_mem h (toNat_lt key) ((hm key v).mp hv)
    refine ⟨val.elim s (s.writeAt a), by simp only [step, hslot, ha, hat]; rfl, ?_⟩
    cases val with
    | none =>
      refine ⟨h, ?_⟩
      simp only [Option.map_some, Option.getD_none, Option.elim_none]
      rw [← hv, Function.update_eq_self]
      exact hm
    | some w =>
      obtain ⟨hinv, hup, -⟩ := writeAt_spec h hat w
      exact ⟨hinv, hm.of_updated hup⟩

theorem update_refines (h : Inv .map (fun _ _ => 0) s) (hm : Holds s m)
    {f : Option UInt64 → Option UInt64} (hf : ¬ FaultyOp s (.update key f)) :
    ∃ s', update s key f = .ok (m key, s') ∧ Inv .map (fun _ _ => 0) s' ∧
      Holds s' (Function.update m key (f (m key))) := by
  have hget := get_eq h hm key
  simp only [FaultyOp, hget] at hf
  cases hv : f (m key) with
  | some v =>
    obtain ⟨s', hs', hinv, hm'⟩ := insert_refines h hm (fun hx => hf ⟨by rw [hv]; rfl, hx⟩) v
    exact ⟨s', by simp only [update, hget, hv, hs'], hinv, hm'⟩
  | none =>
    cases hk : m key with
    | some v =>
      obtain ⟨s', hs', hinv, hm'⟩ := remove_refines h hm key
      rw [hk] at hv hs'
      exact ⟨s', by simp only [update, hget, hk, hv, hs', Option.isSome_some, if_true], hinv, hm'⟩
    | none =>
      rw [hk] at hv
      refine ⟨s, by simp [update, hget, hk, hv], h, ?_⟩
      rw [← hk, Function.update_eq_self]
      exact hm

theorem step_refines (h : Inv .map (fun _ _ => 0) s) (hm : Holds s m) (op : Op)
    (hf : ¬ FaultyOp s op) :
    ∃ s', step s op = .ok ((refStep m op).1, s') ∧ Inv .map (fun _ _ => 0) s' ∧
      Holds s' (refStep m op).2 := by
  cases op with
  | insert key val =>
    obtain ⟨s', hs', hr⟩ := insert_refines h hm hf val
    exact ⟨s', by simp only [step, hs', answer, refStep], hr⟩
  | get key => exact ⟨s, by rw [step, get_eq h hm, refStep], h, hm⟩
  | remove key =>
    obtain ⟨s', hs', hr⟩ := remove_refines h hm key
    exact ⟨s', by simp only [step, hs', answer, refStep], hr⟩
  | insSlot key val => exact insSlot_refines h hm hf val
  | getValueSlot key val => exact getValueSlot_refines h hm hf val
  | update key f =>
    obtain ⟨s', hs', hr⟩ := update_refines h hm hf
    exact ⟨s', by simp only [step, hs', answer, refStep], hr⟩
  | clear =>
    refine ⟨_, rfl, inv_clear.1, ?_⟩
    intro k v
    simp [refStep, items, Store.clear]
  | flush =>
    obtain ⟨hinv, hitems⟩ := inv_flushPath h
    refine ⟨_, rfl, hinv, ?_⟩
    intro k v
    rw [hitems]
    exact hm k v

/-- Every run without stale hits and without inserts into a full narrow `Leaf1` answers as a partial
function, and leaves its bindings stored. -/
theorem run_answers_as_function (ops : List Op)
    (h : Along step (fun s op => ¬ FaultyOp s op) Store.new ops) :
    ∃ s', run step Store.new ops = .ok ((refRun refStep (fun _ => none) ops).1, s') ∧
      Holds s' (refRun refStep (fun _ => none) ops).2 := by
  obtain ⟨s', hr, -, hm⟩ := run_refines
    (R := fun s m => Inv .map (fun _ _ => 0) s ∧ Holds s m)
    (fun s m op hs hf => step_refines hs.1 hs.2 op hf) ⟨inv_new, holds_new⟩ h
  exact ⟨s', hr, hm⟩

instance (s : ExpanseMap) (key : UInt64) : Decidable (FaultyInsert s key) :=
  inferInstanceAs (Decidable (_ ∨ _))

instance (s : ExpanseMap) : ∀ op, Decidable (FaultyOp s op)
  | .insert key _ => inferInstanceAs (Decidable (FaultyInsert s key))
  | .get _ => .isFalse id
  | .remove _ => .isFalse id
  | .insSlot key _ => inferInstanceAs (Decidable (FaultyInsert s key))
  | .getValueSlot key _ => inferInstanceAs (Decidable (Stale s key.toNat))
  | .update key f => inferInstanceAs (Decidable ((f (get s key)).isSome ∧ FaultyInsert s key))
  | .clear => .isFalse id
  | .flush => .isFalse id

/-- Inserts that promote the root leaf, arm the path and go through it; slots, updates and a removal
after them. -/
def warmOps : List Op :=
  (List.range 40).map (fun i => .insert (UInt64.ofNat i) 7) ++
    [.insSlot 39 5, .insSlot 40 6, .getValueSlot 40 (some 8), .getValueSlot 99 none,
      .update 40 (Option.map (· + 1)), .get 40, .update 3 fun _ => none, .remove 39, .get 3]

theorem run_answers_as_function_warm :
    ∃ s', run step Store.new warmOps = .ok ((refRun refStep (fun _ => none) warmOps).1, s') ∧
      Holds s' (refRun refStep (fun _ => none) warmOps).2 :=
  run_answers_as_function warmOps (by decide +kernel)

/-- Keys that fill one leaf and part at their second byte: the last of them caches the path. -/
def cascadeOps : List Op :=
  (List.range 16).map (fun i => .insert (0xAA00000000000000 + UInt64.ofNat i) 1) ++
    (List.range 17).map fun i => .insert (0xAA00000000000100 + UInt64.ofNat i) 1

/-- A bitmap leaf that skips a non-zero byte, demoted to a narrow `Leaf1` and filled again past its
capacity. -/
def refillOps : List Op :=
  (List.range 33).map (fun i => .insert (0xAA00000000000100 + UInt64.ofNat i) 1) ++
    (List.range 20).map (fun i => .insert (0xBB00000000000000 + UInt64.ofNat i) 1) ++
    (List.range 13).map (fun i => .remove (0xAA00000000000100 + UInt64.ofNat i)) ++
    (List.range 6).map (fun i => .insert (0xAA00000000000100 + UInt64.ofNat i) 1)

/-- After the cascade an insert of `0x120` lands under the bits of the leaf the path caches; and the
refill does not return. -/
theorem run_loses_binding_after_cascade :
    (¬ ∀ ops, ∃ s', run step Store.new ops = .ok ((refRun refStep (fun _ => none) ops).1, s')) ∧
      ¬ ∀ ops, ∃ r, run step Store.new ops = .ok r := by
  constructor
  · intro h
    obtain ⟨s', hr⟩ := h (cascadeOps ++ [.insert 0x120 5, .get 0x120])
    have hout : ((run step Store.new (cascadeOps ++
        [.insert 0x120 5, .get 0x120])).toOption.map Prod.fst).bind List.getLast? =
        some (.value none) := by
      decide +kernel
    have href : (refRun refStep (fun _ => none) (cascadeOps ++
        [.insert 0x120 5, .get 0x120])).1.getLast? = some (.value (some 5)) := by
      decide +kernel
    rw [hr] at hout
    simp only [Except.toOption, Option.map_some, Option.bind_some, href] at hout
    cases hout
  · intro h
    obtain ⟨r, hr⟩ := h refillOps
    have hnone : (run step Store.new refillOps).toOption.isNone = true := by
      decide +kernel
    rw [hr] at hnone
    cases hnone

theorem answer_ok {r : Except Fault (Option UInt64 × ExpanseMap)} {out : Out}
    (h : answer r = .ok (out, s')) : ∃ old, r = .ok (old, s') := by
  cases r with
  | error f => cases h
  | ok r =>
    obtain ⟨old, s₁⟩ := r
    cases h
    exact ⟨old, rfl⟩

theorem insert_ok {out : Option UInt64} (hs : insert s key val = .ok (out, s')) :
    ∃ o, insertInner .map false s key.toNat val = .ok o ∧ o.store = s' := by
  cases ho : insertInner .map false s key.toNat val with
  | error f => simp [insert, ho] at hs
  | ok o =>
    simp only [insert, ho, Except.ok.injEq, Prod.mk.injEq] at hs
    exact ⟨o, rfl, hs.2⟩

theorem update_ok {old : Option UInt64} {f : Option UInt64 → Option UInt64}
    (hs : update s key f = .ok (old, s')) :
    (∃ v out, f (get s key) = some v ∧ insert s key v = .ok (out, s')) ∨
      (∃ out, remove s key = .ok (out, s')) ∨ s = s' := by
  simp only [update] at hs
  cases hv : f (get s key) with
  | some v =>
    cases hi : insert s key v with
    | error e => simp [hv, hi] at hs
    | ok r =>
      simp only [hv, hi, Except.ok.injEq, Prod.mk.injEq] at hs
      exact .inl ⟨v, r.1, rfl, by rw [hi, ← hs.2]⟩
  | none =>
    simp only [hv] at hs
    split_ifs at hs
    · cases hr : remove s key with
      | error e => simp [hr] at hs
      | ok r =>
        simp only [hr, Except.ok.injEq, Prod.mk.injEq] at hs
        exact .inr (.inl ⟨r.1, by rw [← hs.2]⟩)
    · cases hs
      exact .inr (.inr rfl)

theorem insert_inv {out : Option UInt64} (h : Inv .map lo s)
    (hfit : ¬ SplitsAt .map lo false s key.toNat val) (ha : Admits .map lo)
    (hs : insert s key val = .ok (out, s')) : Inv .map lo s' := by
  obtain ⟨o, ho, rfl⟩ := insert_ok hs
  obtain ⟨k, hi, -⟩ := insertInner_of_ok h (toNat_lt key) hfit ha (by simp) ho
  exact hi.inv

theorem remove_inv {out : Option UInt64} (h : Inv .map lo s) (hn : AdmitsNarrow .map lo)
    (hs : remove s key = .ok (out, s')) : Inv .map lo s' := by
  obtain ⟨old, s₁, hr, hsp⟩ := removeInner_spec h (toNat_lt key) hn
  rw [remove, hr] at hs
  cases hs
  exact hsp.inv

/-- The operation inserts and splits a leaf that is too small for its new slot. -/
def SplittingOp (lo : ℕ → ℕ → ℕ) (s : ExpanseMap) : Op → Prop
  | .insert key val => SplitsAt .map lo false s key.toNat val
  | .insSlot key _ => SplitsAt .map lo true s key.toNat default
  | .update key f => ∃ v, f (get s key) = some v ∧ SplitsAt .map lo false s key.toNat v
  | _ => False

instance (lo : ℕ → ℕ → ℕ) (s : ExpanseMap) : ∀ op, Decidable (SplittingOp lo s op)
  | .insert key val => inferInstanceAs (Decidable (SplitsAt .map lo false s key.toNat val))
  | .insSlot key _ => inferInstanceAs (Decidable (SplitsAt .map lo true s key.toNat default))
  | .update key f =>
    inferInstanceAs (Decidable (∃ v, f (get s key) = some v ∧ SplitsAt .map lo false s key.toNat v))
  | .get _ => .isFalse id
  | .remove _ => .isFalse id
  | .getValueSlot _ _ => .isFalse id
  | .clear => .isFalse id
  | .flush => .isFalse id

theorem not_splittingOp_zero (s : ExpanseMap) (op : Op) : ¬ SplittingOp (fun _ _ => 0) s op := by
  cases op with
  | insert key val => exact not_splitsAt_zero
  | insSlot key val => exact not_splitsAt_zero
  | update key f =>
    rintro ⟨v, -, hsp⟩
    exact not_splitsAt_zero hsp
  | _ => exact id

/-- Every step that returns keeps the invariant, also a stale hit. -/
theorem step_inv {op : Op} {out : Out} (h : Inv .map lo s) (hfit : ¬ SplittingOp lo s op)
    (hadm : Admits .map lo) (hn : AdmitsNarrow .map lo) (hs : step s op = .ok (out, s')) :
    Inv .map lo s' := by
  cases op with
  | insert key val =>
    obtain ⟨old, hi⟩ := answer_ok hs
    exact insert_inv h hfit hadm hi
  | get key =>
    cases hs
    exact h
  | remove key =>
    obtain ⟨old, hr⟩ := answer_ok hs
    exact remove_inv h hn hr
  | insSlot key val =>
    cases ho : s.insSlot key.toNat with
    | error f => simp [step, ho] at hs
    | ok o =>
      obtain ⟨k, hi, -⟩ := insSlot_of_ok h (toNat_lt key) hfit hadm ho
      simp only [step, ho, Except.ok.injEq, Prod.mk.injEq] at hs
      rw [← hs.2]
      exact (writeAt_spec hi.inv (hi.addr rfl) val).1
  | getValueSlot key val =>
    cases ha : s.getValueSlot key.toNat with
    | none =>
      simp only [step, ha, Except.ok.injEq, Prod.mk.injEq] at hs
      rw [← hs.2]
      exact h
    | some a =>
      obtain ⟨k, v, hat⟩ := entryAt_getValueSlot h (toNat_lt key) ha
      simp only [step, ha, Except.ok.injEq, Prod.mk.injEq] at hs
      rw [← hs.2]
      cases val with
      | none => exact h
      | some w => exact (writeAt_spec h hat w).1
  | update key f =>
    obtain ⟨old, hu⟩ := answer_ok hs
    rcases update_ok hu with ⟨v, out, hv, hi⟩ | ⟨out, hr⟩ | rfl
    · exact insert_inv h (fun hsp => hfit ⟨v, hv, hsp⟩) hadm hi
    · exact remove_inv h hn hr
    · exact h
  | clear =>
    cases hs
    exact inv_clear.1
  | flush =>
    cases hs
    exact (inv_flushPath h).1

def Reachable (s : ExpanseMap) : Prop := ∃ ops outs, run step Store.new ops = .ok (outs, s)

theorem Reachable.inv (h : Reachable s) : Inv .map (fun _ _ => 0) s := by
  obtain ⟨ops, outs, hr⟩ := h
  exact run_ok_invariant (fun s op _ _ hs hstep => step_inv hs (not_splittingOp_zero s op) admits_zero
    admitsNarrow_zero hstep) inv_new hr

/-- The run of `warmOps` stores the keys up to 40 except 3 and 39. -/
theorem warmOps_run : ∃ outs s, run step Store.new warmOps = .ok (outs, s) ∧
    s.items.map Prod.fst = ((List.range 41).erase 3).erase 39 := by
  have hrun : ((run step Store.new warmOps).toOption.map fun r => r.2.items.map Prod.fst) =
      some (((List.range 41).erase 3).erase 39) := by
    decide +kernel
  cases hr : run step Store.new warmOps with
  | error f => simp [hr, Except.toOption] at hrun
  | ok r =>
    simp only [hr, Except.toOption, Option.map_some, Option.some.injEq] at hrun
    exact ⟨r.1, r.2, rfl, hrun⟩

/-- The operations that unmake a faithful path. -/
def TruncatingOp (s : ExpanseMap) : Op → Prop
  | .insert key val => Truncates .map s key.toNat val
  | .insSlot key _ => Truncates .map s key.toNat default
  | .update key f => ∃ v, f (get s key) = some v ∧ Truncates .map s key.toNat v
  | _ => False

theorem insert_faithful {out : Option UInt64} (h : Inv .map (fun _ _ => 0) s) (hf : Faithful s)
    (ht : ¬ Truncates .map s key.toNat val) (hs : insert s key val = .ok (out, s')) :
    Faithful s' := by
  obtain ⟨o, ho, rfl⟩ := insert_ok hs
  obtain ⟨k, hi, hk⟩ := insertInner_of_ok h (toNat_lt key) not_splitsAt_zero admits_zero (by simp) ho
  rw [hk hf.not_stale] at hi
  exact hi.faithful hf ht

theorem remove_faithful {out : Option UInt64} (h : Inv .map (fun _ _ => 0) s)
    (hs : remove s key = .ok (out, s')) : Faithful s' := by
  obtain ⟨old, s₁, hr, hsp⟩ := removeInner_spec h (toNat_lt key) admitsNarrow_zero
  rw [remove, hr] at hs
  cases hs
  exact faithful_of_cold hsp.cold

theorem step_faithful {op : Op} {out : Out} (h : Inv .map (fun _ _ => 0) s) (hf : Faithful s)
    (ht : ¬ TruncatingOp s op) (hs : step s op = .ok (out, s')) : Faithful s' := by
  cases op with
  | insert key val =>
    obtain ⟨old, hi⟩ := answer_ok hs
    exact insert_faithful h hf ht hi
  | get key =>
    cases hs
    exact hf
  | remove key =>
    obtain ⟨old, hr⟩ := answer_ok hs
    exact remove_faithful h hr
  | insSlot key val =>
    cases ho : s.insSlot key.toNat with
    | error f => simp [step, ho] at hs
    | ok o =>
      obtain ⟨k, hi, hk⟩ := insSlot_of_ok h (toNat_lt key) not_splitsAt_zero admits_zero ho
      rw [hk hf.not_stale] at hi
      simp only [step, ho, Except.ok.injEq, Prod.mk.injEq] at hs
      rw [← hs.2]
      exact (hi.faithful hf ht).writeAt hi.inv (hi.addr rfl) val
  | getValueSlot key val =>
    cases ha : s.getValueSlot key.toNat with
    | none =>
      simp only [step, ha, Except.ok.injEq, Prod.mk.injEq] at hs
      rw [← hs.2]
      exact hf
    | some a =>
      obtain ⟨k, v, hat⟩ := entryAt_getValueSlot h (toNat_lt key) ha
      simp only [step, ha, Except.ok.injEq, Prod.mk.injEq] at hs
      rw [← hs.2]
      cases val with
      | none => exact hf
      | some w => exact hf.writeAt h hat w
  | update key f =>
    obtain ⟨old, hu⟩ := answer_ok hs
    rcases update_ok hu with ⟨v, out, hv, hi⟩ | ⟨out, hr⟩ | rfl
    · exact insert_faithful h hf (fun htr => ht ⟨v, hv, htr⟩) hi
    · exact remove_faithful h hr
    · exact hf
  | clear =>
    cases hs
    exact faithful_of_cold rfl
  | flush =>
    cases hs
    exact hf.flushPath h

/-- The path is only a shortcut. `get_value_slot` answers what the descent answers: a slot exactly
for the stored keys, and the key's own; `insert` and `ins_slot` are seen to do what they do with a
cleared path. -/
structure SlotsAgree (s : ExpanseMap) : Prop where
  slot_eq : ∀ key : UInt64, s.getValueSlot key.toNat = s.getSlotPtr key.toNat
  slot_iff : ∀ key : UInt64, (s.getValueSlot key.toNat).isSome ↔ ∃ v, (key.toNat, v) ∈ s.items
  slot_key : ∀ (key : UInt64) a, s.getValueSlot key.toNat = some a →
    ∃ v, s.entryAt a = some (key.toNat, v)
  insert_seen : ∀ key val : UInt64, (insertInner .map false s key.toNat val).map Outcome.seen =
    (insertInner .map false s.clearPath key.toNat val).map Outcome.seen
  insSlot_seen : ∀ key : UInt64, (s.insSlot key.toNat).map Outcome.seen =
    (s.clearPath.insSlot key.toNat).map Outcome.seen

theorem slotsAgree_of_faithful (h : Inv .map (fun _ _ => 0) s) (hf : Faithful s) :
    SlotsAgree s := by
  have hslot : ∀ key : UInt64, s.getValueSlot key.toNat = s.getSlotPtr key.toNat :=
    fun key => getValueSlot_eq h (toNat_lt key) hf.not_stale
  refine ⟨hslot, ?_, ?_, fun key val => hf.insertInner_seen h (toNat_lt key) false val,
    fun key => hf.insSlot_seen h (toNat_lt key)⟩
  · intro key
    rw [hslot]
    constructor
    · intro ha
      by_contra hm
      push Not at hm
      rw [getSlotPtr_of_not_mem h (toNat_lt key) hm] at ha
      cases ha
    · rintro ⟨v, hv⟩
      obtain ⟨a, ha, -⟩ := getSlotPtr_of_mem h (toNat_lt key) hv
      rw [ha]
      rfl
  · intro key a ha
    rw [hslot] at ha
    by_cases hm : ∃ v, (key.toNat, v) ∈ s.items
    · obtain ⟨v, hv⟩ := hm
      obtain ⟨a', ha', hat⟩ := getSlotPtr_of_mem h (toNat_lt key) hv
      rw [ha] at ha'
      cases ha'
      exact ⟨v, hat⟩
    · push Not at hm
      rw [getSlotPtr_of_not_mem h (toNat_lt key) hm] at ha
      cases ha

/-- The path is only a shortcut in every state that a run reaches without truncating. -/
theorem run_slotsAgree (ops : List Op)
    (h : Along step (fun s op => ¬ TruncatingOp s op) Store.new ops) {outs : List Out}
    (hr : run step Store.new ops = .ok (outs, s)) : SlotsAgree s := by
  obtain ⟨hinv, hf⟩ := run_invariant
    (I := fun s : ExpanseMap => Inv .map (fun _ _ => 0) s ∧ Faithful s)
    (fun s op out s' hs ht hstep => ⟨step_inv hs.1 (not_splittingOp_zero s op) admits_zero
      admitsNarrow_zero hstep, step_faithful hs.1 hs.2 ht hstep⟩)
    ⟨inv_new, faithful_of_cold rfl⟩ h hr
  exact slotsAgree_of_faithful hinv hf

instance (s : ExpanseMap) : ∀ op, Decidable (TruncatingOp s op)
  | .insert key val => inferInstanceAs (Decidable (Truncates .map s key.toNat val))
  | .get _ => .isFalse id
  | .remove _ => .isFalse id
  | .insSlot key _ => inferInstanceAs (Decidable (Truncates .map s key.toNat default))
  | .getValueSlot _ _ => .isFalse id
  | .update key f =>
    decidable_of_iff ((f (get s key)).any fun v => decide (Truncates .map s key.toNat v)) (by
      cases hv : f (get s key) <;> simp [TruncatingOp, hv])
  | .clear => .isFalse id
  | .flush => .isFalse id

theorem run_slotsAgree_warm : ∃ outs s, run step Store.new warmOps = .ok (outs, s) ∧ SlotsAgree s := by
  obtain ⟨outs, s, hr, -⟩ := warmOps_run
  exact ⟨outs, s, hr, run_slotsAgree warmOps (by decide +kernel) hr⟩

/-- After the cascade `get_value_slot` hands out a slot for an absent key. -/
theorem run_slot_of_other_key_after_cascade :
    ¬ ∀ ops outs s, run step Store.new ops = .ok (outs, s) → SlotsAgree s := by
  intro h
  have hrun : ((run step Store.new cascadeOps).toOption.map fun r =>
      ((r.2.getValueSlot 0x105).isSome, (r.2.getSlotPtr 0x105).isSome)) = some (true, false) := by
    decide +kernel
  cases hr : run step Store.new cascadeOps with
  | error f => simp [hr, Except.toOption] at hrun
  | ok r =>
    obtain ⟨outs, s⟩ := r
    have heq : s.getValueSlot 0x105 = s.getSlotPtr 0x105 := (h _ outs s hr).slot_eq 0x105
    simp only [hr, Except.toOption, Option.map_some, Option.some.injEq, Prod.mk.injEq, heq] at hrun
    rw [hrun.1] at hrun
    cases hrun.2

end ExpanseMap

end Expanse
