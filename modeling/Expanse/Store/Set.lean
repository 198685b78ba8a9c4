import Mathlib.Data.Finset.Card
import Mathlib.Data.Fintype.Basic
import Expanse.Library.Runs
import Expanse.Store.Faithful

/-!
# `ExpanseSet`

The public operations of the set on 64-bit keys, and their runs. The reference is
a finite set of words. Every run refines it in which no insert is a stale hit: an
insert whose upper bits equal those the path caches, while the cached leaf lies
under other bits.
-/

namespace Expanse

open Radix SortedAssoc Edge Runs

abbrev ExpanseSet : Type := Store Unit

namespace ExpanseSet

open Store

def insert (s : ExpanseSet) (key : UInt64) : Except Fault (Bool × ExpanseSet) :=
  match insertInner .set false s key.toNat () with
  | .ok o => .ok (o.old.isNone, o.store)
  | .error f => .error f

def remove (s : ExpanseSet) (key : UInt64) : Except Fault (Bool × ExpanseSet) :=
  match removeInner .set s key.toNat with
  | .ok (old, s') => .ok (old.isSome, s')
  | .error f => .error f

def contains (s : ExpanseSet) (key : UInt64) : Bool := (s.find key.toNat).isSome

/-- The operations; `flush` stands for the reads that flush the insert path first. -/
inductive Op where
  | insert (key : UInt64)
  | remove (key : UInt64)
  | clear
  | contains (key : UInt64)
  | len
  | flush
deriving DecidableEq

inductive Out where
  | bool (b : Bool)
  | count (n : ℕ)
  | unit
deriving DecidableEq

def step (s : ExpanseSet) : Op → Except Fault (Out × ExpanseSet)
  | .insert key =>
    match insert s key with
    | .ok (b, s') => .ok (.bool b, s')
    | .error f => .error f
  | .remove key =>
    match remove s key with
    | .ok (b, s') => .ok (.bool b, s')
    | .error f => .error f
  | .clear => .ok (.unit, s.clear)
  | .contains key => .ok (.bool (contains s key), s)
  | .len => .ok (.count s.len, s)
  | .flush => .ok (.unit, s.flushPath)

/-- The reference: a finite set of words. -/
def refStep (S : Finset UInt64) : Op → Out × Finset UInt64
  | .insert key => (.bool (key ∉ S), Insert.insert key S)
  | .remove key => (.bool (key ∈ S), S.erase key)
  | .clear => (.unit, ∅)
  | .contains key => (.bool (key ∈ S), S)
  | .len => (.count S.card, S)
  | .flush => (.unit, S)

/-- The set stores the words of `S`. -/
def Holds (s : ExpanseSet) (S : Finset UInt64) : Prop := ∀ k : UInt64, k ∈ S ↔ (k.toNat, ()) ∈ s.items

variable {lo : ℕ → ℕ → ℕ} {s : ExpanseSet} {S : Finset UInt64}

theorem exists_word {k : ℕ} (h : k < 256 ^ 8) : ∃ w : UInt64, w.toNat = k :=
  ⟨UInt64.ofNat k, by
    rw [UInt64.toNat_ofNat']
    exact Nat.mod_eq_of_lt (lt_of_lt_of_eq h (by norm_num))⟩

theorem Holds.card (hS : Holds s S) (h : Inv .set lo s) : S.card = s.items.length := by
  have himage : S.image UInt64.toNat = (s.items.map Prod.fst).toFinset := by
    ext k
    simp only [Finset.mem_image, List.mem_toFinset, List.mem_map, Prod.exists, exists_and_right,
      exists_eq_right]
    constructor
    · rintro ⟨w, hw, rfl⟩
      exact ⟨(), (hS w).mp hw⟩
    · rintro ⟨⟨⟩, hm⟩
      obtain ⟨w, rfl⟩ := exists_word (h.bound hm)
      exact ⟨w, (hS w).mpr hm, rfl⟩
  have hinj : Function.Injective UInt64.toNat := fun a b hab => UInt64.toNat_inj.mp hab
  rw [← Finset.card_image_of_injective S hinj, himage,
    List.toFinset_card_of_nodup h.sorted.nodup_keys, List.length_map]

/-- The operation that reaches the defect: an insert through a path cached for other bits. -/
def StaleOp (s : ExpanseSet) : Op → Prop
  | .insert key => Stale s key.toNat
  | _ => False

/-- What an insert needs of the tree beyond the invariant. -/
def CleanOp (lo : ℕ → ℕ → ℕ) (s : ExpanseSet) : Op → Prop
  | .insert key => CleanAt .set lo s key.toNat
  | _ => True

theorem insert_refines (h : Inv .set lo s) (hS : Holds s S) (key : UInt64)
    (hst : ¬ Stale s key.toNat) (hc : CleanAt .set lo s key.toNat) (ha : Admits .set lo) :
    ∃ s', insert s key = .ok (decide (key ∉ S), s') ∧ Inv .set lo s' ∧
      Holds s' (Insert.insert key S) := by
  obtain ⟨o, ho, hi⟩ := insertInner_spec false () h (toNat_lt key) hst hc ha
    (fun _ _ => rfl)
  have hold : o.old.isNone = decide (key ∉ S) := by
    have := hi.old ()
    rw [← hS] at this
    cases hv : o.old with
    | none => simp [hv] at this ⊢; exact this
    | some v => simp [hv] at this ⊢; exact this
  refine ⟨o.store, by simp only [insert, ho, hold], hi.inv, ?_⟩
  intro k
  rw [Finset.mem_insert, hS, hi.content k.toNat ()]
  by_cases hk : k = key
  · simp [hk]
  · have hne : k.toNat ≠ key.toNat := fun he => hk (UInt64.toNat_inj.mp he)
    simp [hk, hne]

theorem remove_refines (h : Inv .set lo s) (hS : Holds s S) (key : UInt64)
    (ha : AdmitsNarrow .set lo) :
    ∃ s', remove s key = .ok (decide (key ∈ S), s') ∧ Inv .set lo s' ∧
      Holds s' (S.erase key) ∧ s'.path = none := by
  obtain ⟨out, s', hr, hsp⟩ := removeInner_spec h (toNat_lt key) ha
  have hold : out.isSome = decide (key ∈ S) := by
    have := hsp.old ()
    rw [← hS] at this
    cases out with
    | none => simp at this ⊢; exact this
    | some v => simp at this ⊢; exact this
  refine ⟨s', by simp only [remove, hr, hold], hsp.inv, ?_, hsp.cold⟩
  intro k
  rw [Finset.mem_erase, hS, hsp.content k.toNat ()]
  by_cases hk : k = key
  · simp [hk]
  · have hne : k.toNat ≠ key.toNat := fun he => hk (UInt64.toNat_inj.mp he)
    simp [hk, hne]

theorem step_refines (h : Inv .set lo s) (hS : Holds s S) (op : Op) (hst : ¬ StaleOp s op)
    (hc : CleanOp lo s op) (ha : Admits .set lo) (hn : AdmitsNarrow .set lo) :
    ∃ s', step s op = .ok ((refStep S op).1, s') ∧ Inv .set lo s' ∧ Holds s' (refStep S op).2 := by
  cases op with
  | insert key =>
    obtain ⟨s', hs', hinv, hS'⟩ := insert_refines h hS key hst hc ha
    exact ⟨s', by simp only [step, hs', refStep], hinv, hS'⟩
  | remove key =>
    obtain ⟨s', hs', hinv, hS', -⟩ := remove_refines h hS key hn
    exact ⟨s', by simp only [step, hs', refStep], hinv, hS'⟩
  | clear =>
    refine ⟨_, rfl, inv_clear.1, ?_⟩
    intro k
    simp [refStep, items, Store.clear]
  | contains key =>
    refine ⟨s, ?_, h, hS⟩
    have : contains s key = decide (key ∈ S) := by
      rw [contains, Bool.eq_iff_iff, Option.isSome_iff_exists, decide_eq_true_iff, hS]
      simp only [find_spec h (toNat_lt key)]
      constructor
      · rintro ⟨_, hm⟩
        exact hm
      · exact fun hm => ⟨(), hm⟩
    rw [step, this, refStep]
  | len => exact ⟨s, by rw [step, refStep, hS.card h, len_eq h], h, hS⟩
  | flush =>
    obtain ⟨hinv, hitems⟩ := inv_flushPath h
    refine ⟨_, rfl, hinv, ?_⟩
    intro k
    rw [hitems]
    exact hS k

theorem cleanOp_zero (s : ExpanseSet) (op : Op) : CleanOp (fun _ _ => 0) s op := by
  cases op with
  | insert key => exact fun top _ => clean_zero
  | _ => trivial

theorem holds_new : Holds (Store.new : ExpanseSet) ∅ := by
  intro k
  simp [items, Store.new]

instance (s : ExpanseSet) : ∀ op, Decidable (StaleOp s op)
  | .insert key => inferInstanceAs (Decidable (Stale s key.toNat))
  | .remove _ => .isFalse id
  | .clear => .isFalse id
  | .contains _ => .isFalse id
  | .len => .isFalse id
  | .flush => .isFalse id

/-- Every run without stale hits answers as a finite set of words, and leaves its words stored. -/
theorem run_answers_as_finset (ops : List Op)
    (h : Along step (fun s op => ¬ StaleOp s op) Store.new ops) :
    ∃ s', run step Store.new ops = .ok ((refRun refStep ∅ ops).1, s') ∧
      Holds s' (refRun refStep ∅ ops).2 := by
  obtain ⟨s', hr, -, hS⟩ := run_refines (R := fun s S => Inv .set (fun _ _ => 0) s ∧ Holds s S)
    (fun s S op hs hst => step_refines hs.1 hs.2 op hst (cleanOp_zero s op) admits_zero
      admitsNarrow_zero) ⟨inv_new, holds_new⟩ h
  exact ⟨s', hr, hS⟩

/-- Keys that fill one leaf and part at their second byte: the last of them caches the path. -/
def cascadeKeys : List UInt64 :=
  (List.range 16).map (fun i => 0xAA00000000000000 + UInt64.ofNat i) ++
    (List.range 17).map fun i => 0xAA00000000000100 + UInt64.ofNat i

/-- Inserts that promote the root leaf, arm the path and go through it. -/
def warmOps : List Op :=
  (List.range 40).map (fun i => .insert (UInt64.ofNat i)) ++ [.insert 39, .len, .remove 3, .len]

theorem run_answers_as_finset_warm :
    ∃ s', run step Store.new warmOps = .ok ((refRun refStep ∅ warmOps).1, s') ∧
      Holds s' (refRun refStep ∅ warmOps).2 :=
  run_answers_as_finset warmOps (by decide +kernel)

/-- After the cascade an insert of `0x120` lands under the bits of the leaf the path caches. -/
theorem run_loses_key_after_cascade :
    ¬ ∀ ops, ∃ s', run step Store.new ops = .ok ((refRun refStep ∅ ops).1, s') := by
  intro h
  obtain ⟨s', hr⟩ := h (cascadeKeys.map .insert ++ [.insert 0x120, .contains 0x120])
  have hout : ((run step Store.new (cascadeKeys.map .insert ++
      [.insert 0x120, .contains 0x120])).toOption.map Prod.fst).bind List.getLast? =
      some (.bool false) := by
    decide +kernel
  have href : (refRun refStep ∅ (cascadeKeys.map .insert ++
      [.insert 0x120, .contains 0x120])).1.getLast? = some (.bool true) := by
    decide +kernel
  rw [hr] at hout
  simp only [Except.toOption, Option.map_some, Option.bind_some, href] at hout
  cases hout

/-- The insert splits a leaf that is too small for its new slot. -/
def SplittingOp (lo : ℕ → ℕ → ℕ) (s : ExpanseSet) : Op → Prop
  | .insert key => SplitsAt .set lo false s key.toNat ()
  | _ => False

instance (lo : ℕ → ℕ → ℕ) (s : ExpanseSet) : ∀ op, Decidable (SplittingOp lo s op)
  | .insert key => inferInstanceAs (Decidable (SplitsAt .set lo false s key.toNat ()))
  | .remove _ => .isFalse id
  | .clear => .isFalse id
  | .contains _ => .isFalse id
  | .len => .isFalse id
  | .flush => .isFalse id

theorem not_splittingOp_zero (s : ExpanseSet) (op : Op) : ¬ SplittingOp (fun _ _ => 0) s op := by
  cases op with
  | insert key => exact not_splitsAt_zero
  | _ => exact id

/-- Every step keeps the invariant, also a stale hit. -/
theorem step_inv {op : Op} {out : Out} {s' : ExpanseSet} (h : Inv .set lo s)
    (hfit : ¬ SplittingOp lo s op) (ha : Admits .set lo) (hn : AdmitsNarrow .set lo)
    (hs : step s op = .ok (out, s')) : Inv .set lo s' := by
  cases op with
  | insert key =>
    cases ho : insertInner .set false s key.toNat () with
    | error f => simp [step, insert, ho] at hs
    | ok o =>
      obtain ⟨k, hi, -⟩ := insertInner_of_ok h (toNat_lt key) hfit ha (fun _ _ => rfl) ho
      simp only [step, insert, ho, Except.ok.injEq, Prod.mk.injEq] at hs
      rw [← hs.2]
      exact hi.inv
  | remove key =>
    obtain ⟨old, s₁, hr, hsp⟩ := removeInner_spec h (toNat_lt key) hn
    simp only [step, remove, hr, Except.ok.injEq, Prod.mk.injEq] at hs
    rw [← hs.2]
    exact hsp.inv
  | clear =>
    cases hs
    exact inv_clear.1
  | contains key =>
    cases hs
    exact h
  | len =>
    cases hs
    exact h
  | flush =>
    cases hs
    exact (inv_flushPath h).1

def Reachable (s : ExpanseSet) : Prop := ∃ ops outs, run step Store.new ops = .ok (outs, s)

theorem Reachable.inv (h : Reachable s) : Inv .set (fun _ _ => 0) s := by
  obtain ⟨ops, outs, hr⟩ := h
  exact run_ok_invariant (fun s op _ _ hs hstep => step_inv hs (not_splittingOp_zero s op) admits_zero
    admitsNarrow_zero hstep) inv_new hr

/-- The run of `warmOps` stores the words below 40 except 3. -/
theorem warmOps_run : ∃ outs s, run step Store.new warmOps = .ok (outs, s) ∧
    s.items.map Prod.fst = (List.range 40).erase 3 := by
  have hrun : ((run step Store.new warmOps).toOption.map fun r => r.2.items.map Prod.fst) =
      some ((List.range 40).erase 3) := by
    decide +kernel
  cases hr : run step Store.new warmOps with
  | error f => simp [hr, Except.toOption] at hrun
  | ok r =>
    simp only [hr, Except.toOption, Option.map_some, Option.some.injEq] at hrun
    exact ⟨r.1, r.2, rfl, hrun⟩

/-- The operation that unmakes a faithful path. -/
def TruncatingOp (s : ExpanseSet) : Op → Prop
  | .insert key => Truncates .set s key.toNat ()
  | _ => False

instance (s : ExpanseSet) : ∀ op, Decidable (TruncatingOp s op)
  | .insert key => inferInstanceAs (Decidable (Truncates .set s key.toNat ()))
  | .remove _ => .isFalse id
  | .clear => .isFalse id
  | .contains _ => .isFalse id
  | .len => .isFalse id
  | .flush => .isFalse id

theorem not_staleOp (h : Faithful s) (op : Op) : ¬ StaleOp s op := by
  cases op with
  | insert key => exact h.not_stale
  | _ => exact id

theorem step_faithful {op : Op} {out : Out} {s' : ExpanseSet} (h : Inv .set lo s) (hf : Faithful s)
    (ht : ¬ TruncatingOp s op) (hc : CleanOp lo s op) (ha : Admits .set lo)
    (hn : AdmitsNarrow .set lo) (hs : step s op = .ok (out, s')) : Faithful s' := by
  cases op with
  | insert key =>
    obtain ⟨o, ho, hi⟩ := insertInner_spec false () h (toNat_lt key)
      hf.not_stale hc ha (fun _ _ => rfl)
    simp only [step, insert, ho, Except.ok.injEq, Prod.mk.injEq] at hs
    rw [← hs.2]
    exact hi.faithful hf ht
  | remove key =>
    obtain ⟨old, s₁, hr, hsp⟩ := removeInner_spec h (toNat_lt key) hn
    simp only [step, remove, hr, Except.ok.injEq, Prod.mk.injEq] at hs
    rw [← hs.2]
    exact faithful_of_cold hsp.cold
  | clear =>
    cases hs
    exact faithful_of_cold rfl
  | contains key =>
    cases hs
    exact hf
  | len =>
    cases hs
    exact hf
  | flush =>
    cases hs
    exact hf.flushPath h

/-- The path is only a shortcut: an insert does what it does with a cleared path; the path stores the
upper bits of every key in the cached leaf; and a flush makes the ancestors' populations exact. -/
structure PathAgrees (s : ExpanseSet) : Prop where
  insert_eq : ∀ key, ∃ b s₁ s₂, insert s key = .ok (b, s₁) ∧ insert s.clearPath key = .ok (b, s₂) ∧
    s₁.items = s₂.items
  upper : ∀ w, s.path = some w → ∀ k ∈ cachedKeys s, k / 256 = w.keyPrefix
  flushed : ∀ w top, s.path = some w → s.flushPath.root = .tree top →
    ∀ a ∈ ancestors 8 top w.route, Exact a.1 a.2

theorem pathAgrees_of_faithful (h : Inv .set (fun _ _ => 0) s) (hf : Faithful s) :
    PathAgrees s where
  insert_eq := by
    intro key
    obtain ⟨o, o', ho, ho', hold, hi, -⟩ := hf.insert_eq h (toNat_lt key) (fun _ _ => clean_zero)
      admits_zero (fun _ _ => rfl) false ()
    exact ⟨o.old.isNone, o.store, o'.store, by simp only [insert, ho],
      by simp only [insert, ho', hold], hi⟩
  upper := fun _ hw _ hk => hf.cachedKeys_div h hw hk
  flushed := fun _ _ hw ht _ ha => exact_flushPath h hw ht ha

/-- The path is only a shortcut in every state that a run reaches without truncating. -/
theorem run_pathAgrees (ops : List Op)
    (h : Along step (fun s op => ¬ TruncatingOp s op) Store.new ops) :
    ∃ outs s', run step Store.new ops = .ok (outs, s') ∧ PathAgrees s' := by
  obtain ⟨s', hr, ⟨hinv, -⟩, hf⟩ := run_refines
    (R := fun s S => (Inv .set (fun _ _ => 0) s ∧ Holds s S) ∧ Faithful s)
    (fun s S op hs ht => by
      obtain ⟨s', hs', hinv, hS⟩ := step_refines hs.1.1 hs.1.2 op (not_staleOp hs.2 op)
        (cleanOp_zero s op) admits_zero admitsNarrow_zero
      exact ⟨s', hs', ⟨hinv, hS⟩, step_faithful hs.1.1 hs.2 ht (cleanOp_zero s op) admits_zero
        admitsNarrow_zero hs'⟩) ⟨⟨inv_new, holds_new⟩, faithful_of_cold rfl⟩ h
  exact ⟨_, s', hr, pathAgrees_of_faithful hinv hf⟩

theorem run_pathAgrees_warm :
    ∃ outs s', run step Store.new warmOps = .ok (outs, s') ∧ PathAgrees s' :=
  run_pathAgrees warmOps (by decide +kernel)

/-- After the cascade the path stores one byte of the seven above the cached leaf. -/
theorem run_path_truncated_after_cascade :
    ¬ ∀ ops outs s', run step Store.new ops = .ok (outs, s') → PathAgrees s' := by
  intro h
  have hrun : ((run step Store.new (cascadeKeys.map .insert)).toOption.bind fun r =>
      (r.2.path.map InsertPath.keyPrefix).map fun p =>
        decide (∀ k ∈ r.2.cachedKeys, k / 256 = p)) = some false := by
    decide +kernel
  cases hr : run step Store.new (cascadeKeys.map .insert) with
  | error f => simp [hr, Except.toOption] at hrun
  | ok r =>
    obtain ⟨outs, s'⟩ := r
    cases hp : s'.path with
    | none => simp [hr, hp, Except.toOption] at hrun
    | some w =>
      have hu := (h _ outs s' hr).upper w hp
      simp only [hr, hp, Except.toOption, Option.bind_some, Option.map_some, Option.some.injEq,
        decide_eq_false_iff_not] at hrun
      exact hrun hu

end ExpanseSet

end Expanse
