import Expanse.Set32.AlgebraMany
import Expanse.Trie32.SetRuns

/-!
# The set algebra on the 32-bit engine

The sets of the algebra are those of the engine, with their arenas. A program works on registers
that hold sets: it updates them one by one, merges them, and asks for lengths. Every program
computes what it computes on finite sets of numbers.
-/

namespace Expanse.Set32

open Runs Trie32

def lifted {α : Type} : Except Trie32.Fault α → Except Fault α
  | .ok x => .ok x
  | .error f => .error (.engine f)

/-- The engine. A read that faults would answer nothing; on a set that stores some keys none does
(`first_holds`, `next_holds`, `nextAtOrAfter_holds`, `collect_holds`). -/
abbrev engine : KeySet where
  Set := ExpanseSet32
  new := ExpanseSet32.new
  fromSortedIter keys := lifted (ExpanseSet32.fromSortedIter keys)
  insert s key := lifted (s.insert key)
  len := ExpanseSet32.len
  first s := s.first.toOption.join
  next s key := (s.next key).toOption.join
  nextAtOrAfter s key := (s.nextAtOrAfter key).toOption.join
  iter s := s.collect.toOption.getD []

section Contract

variable {s : ExpanseSet32} {F : Finset ℕ} {k : ℕ}

theorem collect_holds (h : s.Holds F) : s.collect = .ok (asc F) := by
  obtain ⟨t, C, hs, -, hF⟩ := h
  rw [ExpanseSet32.collect_spec hs, hF]

theorem iter_holds (h : s.Holds F) : engine.iter s = asc F := by
  change s.collect.toOption.getD [] = asc F
  rw [collect_holds h]
  rfl

theorem len_holds (h : s.Holds F) : s.len = (asc F).length := by
  obtain ⟨t, C, hs, -, hF⟩ := h
  rw [hs.len, ← hF, ExpanseSet32.keysOf, List.length_map]

theorem first_holds (h : s.Holds F) : s.first = .ok (asc F).head? := by
  obtain ⟨t, C, hs, -, hF⟩ := h
  rw [ExpanseSet32.first, firstEntry_eq hs.stored, ← hF, ExpanseSet32.keysOf, List.head?_map]
  rfl

theorem next_holds (h : s.Holds F) (hk : k < KEYS) : s.next k = .ok (asc (F.filter (k < ·))).head? := by
  obtain ⟨t, C, hs, -, hF⟩ := h
  rw [ExpanseSet32.next, nextEntry_eq hs.stored hk]
  exact congrArg Except.ok (ExpanseSet32.first_key hF (k < ·))

theorem nextAtOrAfter_holds (h : s.Holds F) (hk : k < KEYS) :
    s.nextAtOrAfter k = .ok (asc (F.filter (k ≤ ·))).head? := by
  obtain ⟨t, C, hs, -, hF⟩ := h
  rw [ExpanseSet32.nextAtOrAfter, firstGe_eq hs.stored hk]
  exact congrArg Except.ok (ExpanseSet32.first_key hF (k ≤ ·))

theorem holds_lt (h : s.Holds F) : ∀ x ∈ F, x < KEYS := fun x hx => by
  obtain ⟨t, C, hs, -, hF⟩ := h
  rw [← mem_asc, ← hF] at hx
  exact ExpanseSet32.keysOf_lt hs.ok x hx

/-- A set of the engine that stores some keys keeps the contract, with its keys in ascending order. -/
def contract : engine.Correct where
  Ok s := ∃ F, ExpanseSet32.Holds s F
  keys s := engine.iter s
  new_ok := ⟨∅, ExpanseSet32.holds_new⟩
  keys_new := (iter_holds ExpanseSet32.holds_new).trans (Finset.sort_empty _)
  sorted := by
    rintro s ⟨F, h⟩
    rw [iter_holds h]
    exact asc_sorted F
  lt_keys := by
    rintro s k ⟨F, h⟩ hk
    rw [iter_holds h, mem_asc] at hk
    exact holds_lt h k hk
  fromSortedIter_ok := by
    intro l hl hlt
    obtain ⟨s, hr, hg, -⟩ := ExpanseSet32.fromSortedIter_spec hlt
    have hF := eq_asc (F := l.toFinset) hl fun x => List.mem_toFinset.symm
    have h : s.Holds l.toFinset := hg.holds (ExpanseSet32.putAll_keyed l)
    exact ⟨s, by dsimp only; rw [hr]; rfl, ⟨_, h⟩, (iter_holds h).trans hF.symm⟩
  insert_ok := by
    rintro s k ⟨F, h⟩ hk
    obtain ⟨s', hr, h'⟩ := h.insert hk
    refine ⟨_, s', by dsimp only; rw [hr]; rfl, ⟨_, h'⟩, fun x => ?_⟩
    rw [iter_holds h', iter_holds h, mem_asc, mem_asc, Finset.mem_insert]
  len_eq := by
    rintro s ⟨F, h⟩
    rw [iter_holds h]
    exact len_holds h
  first_eq := by
    rintro s ⟨F, h⟩
    rw [iter_holds h]
    dsimp only
    rw [first_holds h]
    rfl
  next_eq := by
    rintro s k ⟨F, h⟩ hk
    rw [iter_holds h, ← asc_filter]
    dsimp only
    rw [next_holds h hk]
    rfl
  nextAtOrAfter_eq := by
    rintro s k ⟨F, h⟩ hk
    rw [iter_holds h, Merges.fromBound, ← asc_filter]
    dsimp only
    rw [nextAtOrAfter_holds h hk]
    rfl
  iter_eq _ := rfl

theorem contract_set (h : s.Holds F) : contract.set s = F := by
  have hmem : ∀ x, x ∈ contract.set s ↔ x ∈ engine.iter s := fun x => contract.mem_set
  exact Finset.ext fun x => (hmem x).trans (by rw [iter_holds h, mem_asc])

theorem holds_set (h : contract.Ok s) : s.Holds (contract.set s) := by
  obtain ⟨F, hF⟩ := h
  rwa [contract_set hF]

/-- Three operands of which two are the same, with the largest key in each. -/
theorem algebra_exact_at_top : ∃ s t, engine.fromSortedIter [7, 4294967295] = .ok s ∧
    engine.fromSortedIter [4294967295] = .ok t ∧
    (∃ r, engine.intersectionMany 6 [s, t, s] = .ok r ∧ contract.Ok r ∧
      (∀ x, x ∈ contract.set r ↔ [s, t, s] ≠ [] ∧ ∀ u ∈ [s, t, s], x ∈ contract.set u) ∧
      engine.intersectionLenMany 6 [s, t, s] = .ok (contract.set r).card) ∧
    engine.differenceLen 4 s t = .ok (contract.set s \ contract.set t).card := by
  obtain ⟨s, hs, hsok, hskeys⟩ := contract.fromSortedIter_ok (l := [7, 4294967295]) (by decide) (by decide)
  obtain ⟨t, ht, htok, htkeys⟩ := contract.fromSortedIter_ok (l := [4294967295]) (by decide) (by decide)
  have hslen : engine.len s = 2 := by rw [contract.len_eq hsok, hskeys]; rfl
  have htlen : engine.len t = 1 := by rw [contract.len_eq htok, htkeys]; rfl
  have hok : ∀ u ∈ [s, t, s], contract.Ok u := by
    simp only [List.mem_cons, List.not_mem_nil, or_false]
    rintro u (rfl | rfl | rfl)
    · exact hsok
    · exact htok
    · exact hsok
  have hmany := (KeySet.algebra_exact contract).2 [s, t, s] 6 hok (by
    rw [List.map_cons, List.map_cons, List.map_cons, hslen, htlen]
    decide)
  have htwo := (KeySet.algebra_exact contract).1 s t 4 hsok htok (by omega)
  exact ⟨s, t, hs, ht, hmany.1, htwo.2.2.2.2.2.2.1⟩

end Contract

/-- The merges of two sets. -/
inductive Merge where
  | intersection
  | union
  | difference
  | symmetricDifference
deriving DecidableEq

/-- What a program does: an operation on one register, or the algebra on several. -/
inductive Op where
  | on (i : ℕ) (op : ExpanseSet32.Op)
  | merge (kind : Merge) (i j k : ℕ)
  | mergeLen (kind : Merge) (j k : ℕ)
  | intersectionMany (i : ℕ) (js : List ℕ)
  | unionMany (i : ℕ) (js : List ℕ)
  | intersectionLenMany (js : List ℕ)
  | unionLenMany (js : List ℕ)

def Merge.apply : Merge → ℕ → ExpanseSet32 → ExpanseSet32 → Except Fault ExpanseSet32
  | .intersection => engine.intersection
  | .union => engine.union
  | .difference => engine.difference
  | .symmetricDifference => engine.symmetricDifference

def Merge.applyLen : Merge → ℕ → ExpanseSet32 → ExpanseSet32 → Except Fault ℕ
  | .intersection => engine.intersectionLen
  | .union => engine.unionLen
  | .difference => engine.differenceLen
  | .symmetricDifference => engine.symmetricDifferenceLen

abbrev Registers : Type := ℕ → ExpanseSet32

def turns (sets : List ExpanseSet32) : ℕ := (sets.map ExpanseSet32.len).sum + 1

def Registers.put (R : Registers) (i : ℕ) (r : Except Fault ExpanseSet32) :
    Except Fault (ExpanseSet32.Out × Registers) :=
  r.map fun s => (.done, Function.update R i s)

def Registers.answer (R : Registers) (r : Except Fault ℕ) : Except Fault (ExpanseSet32.Out × Registers) :=
  r.map fun n => (.count n, R)

def step (R : Registers) : Op → Except Fault (ExpanseSet32.Out × Registers)
  | .on i op => (lifted ((R i).step op)).map fun r => (r.1, Function.update R i r.2)
  | .merge kind i j k => R.put i (kind.apply (turns [R j, R k]) (R j) (R k))
  | .mergeLen kind j k => R.answer (kind.applyLen (turns [R j, R k]) (R j) (R k))
  | .intersectionMany i js => R.put i (engine.intersectionMany (turns (js.map R)) (js.map R))
  | .unionMany i js => R.put i (engine.unionMany (turns (js.map R)) (js.map R))
  | .intersectionLenMany js => R.answer (engine.intersectionLenMany (turns (js.map R)) (js.map R))
  | .unionLenMany js => R.answer (engine.unionLenMany (turns (js.map R)) (js.map R))

/-! The same on finite sets. -/

def Merge.of : Merge → Finset ℕ → Finset ℕ → Finset ℕ
  | .intersection, F, G => F ∩ G
  | .union, F, G => F ∪ G
  | .difference, F, G => F \ G
  | .symmetricDifference, F, G => symmDiff F G

/-- The intersection of finite sets. That of none is empty. -/
def meet : List (Finset ℕ) → Finset ℕ
  | [] => ∅
  | F :: Fs => F.filter fun x => ∀ G ∈ Fs, x ∈ G

def join (Fs : List (Finset ℕ)) : Finset ℕ := Fs.foldr (· ∪ ·) ∅

def refStep (R : ℕ → Finset ℕ) : Op → ExpanseSet32.Out × (ℕ → Finset ℕ)
  | .on i op => ((ExpanseSet32.refStep (R i) op).1, Function.update R i (ExpanseSet32.refStep (R i) op).2)
  | .merge kind i j k => (.done, Function.update R i (kind.of (R j) (R k)))
  | .mergeLen kind j k => (.count (kind.of (R j) (R k)).card, R)
  | .intersectionMany i js => (.done, Function.update R i (meet (js.map R)))
  | .unionMany i js => (.done, Function.update R i (join (js.map R)))
  | .intersectionLenMany js => (.count (meet (js.map R)).card, R)
  | .unionLenMany js => (.count (join (js.map R)).card, R)

section Programs

variable {R : Registers} {R' : ℕ → Finset ℕ}

/-- Every register stores the keys it should. -/
def Matches (R : Registers) (R' : ℕ → Finset ℕ) : Prop := ∀ i, (R i).Holds (R' i)

theorem Matches.update (h : Matches R R') (i : ℕ) {s : ExpanseSet32} {F : Finset ℕ} (hs : s.Holds F) :
    Matches (Function.update R i s) (Function.update R' i F) := by
  intro j
  by_cases hj : j = i
  · subst hj
    rwa [Function.update_self, Function.update_self]
  · rw [Function.update_of_ne hj, Function.update_of_ne hj]
    exact h j

theorem Matches.put (h : Matches R R') (i : ℕ) {r : Except Fault ExpanseSet32} {s : ExpanseSet32} {F : Finset ℕ}
    (hr : r = .ok s) (hs : s.Holds F) :
    ∃ Q, R.put i r = .ok (.done, Q) ∧ Matches Q (Function.update R' i F) :=
  ⟨_, by rw [hr]; rfl, h.update i hs⟩

theorem turns_pair (s t : ExpanseSet32) : s.len + t.len < turns [s, t] := by simp [turns]

theorem merge_holds (kind : Merge) {s t : ExpanseSet32} {F G : Finset ℕ} (hs : s.Holds F) (ht : t.Holds G) :
    ∃ r, kind.apply (turns [s, t]) s t = .ok r ∧ r.Holds (kind.of F G) := by
  have hfuel := turns_pair s t
  have hF := contract_set hs
  have hG := contract_set ht
  cases kind with
  | intersection =>
    obtain ⟨r, hr, hok, hset⟩ := contract.intersection_spec ⟨F, hs⟩ ⟨G, ht⟩ hfuel
    exact ⟨r, hr, by rw [Merge.of, ← hF, ← hG, ← hset]; exact holds_set hok⟩
  | union =>
    obtain ⟨r, hr, hok, hset⟩ := contract.union_spec ⟨F, hs⟩ ⟨G, ht⟩ hfuel
    exact ⟨r, hr, by rw [Merge.of, ← hF, ← hG, ← hset]; exact holds_set hok⟩
  | difference =>
    obtain ⟨r, hr, hok, hset⟩ := contract.difference_spec ⟨F, hs⟩ ⟨G, ht⟩ hfuel
    exact ⟨r, hr, by rw [Merge.of, ← hF, ← hG, ← hset]; exact holds_set hok⟩
  | symmetricDifference =>
    obtain ⟨r, hr, hok, hset⟩ := contract.symmetricDifference_spec ⟨F, hs⟩ ⟨G, ht⟩ hfuel
    exact ⟨r, hr, by rw [Merge.of, ← hF, ← hG, ← hset]; exact holds_set hok⟩

theorem mergeLen_holds (kind : Merge) {s t : ExpanseSet32} {F G : Finset ℕ} (hs : s.Holds F) (ht : t.Holds G) :
    kind.applyLen (turns [s, t]) s t = .ok (kind.of F G).card := by
  have hfuel := turns_pair s t
  rw [← contract_set hs, ← contract_set ht]
  cases kind with
  | intersection => exact contract.intersectionLen_eq ⟨F, hs⟩ ⟨G, ht⟩ hfuel
  | union => exact contract.unionLen_eq ⟨F, hs⟩ ⟨G, ht⟩ hfuel
  | difference => exact contract.differenceLen_eq ⟨F, hs⟩ ⟨G, ht⟩ hfuel
  | symmetricDifference => exact contract.symmetricDifferenceLen_eq ⟨F, hs⟩ ⟨G, ht⟩ hfuel

theorem Matches.ok (h : Matches R R') (js : List ℕ) : ∀ s ∈ js.map R, contract.Ok s := fun s hs => by
  obtain ⟨j, -, rfl⟩ := List.mem_map.mp hs
  exact ⟨R' j, h j⟩

theorem mem_meet (h : Matches R R') (js : List ℕ) (x : ℕ) :
    x ∈ meet (js.map R') ↔ contract.Common (js.map R) x := by
  have hset : ∀ j, contract.set (R j) = R' j := fun j => contract_set (h j)
  cases js with
  | nil => simp [meet, KeySet.Correct.Common]
  | cons j js =>
    rw [List.map_cons, meet, Finset.mem_filter, KeySet.Correct.Common]
    simp [hset]

theorem mem_join_iff (Fs : List (Finset ℕ)) (x : ℕ) : x ∈ join Fs ↔ ∃ F ∈ Fs, x ∈ F := by
  induction Fs with
  | nil => simp [join]
  | cons F Fs ih =>
    rw [join, List.foldr_cons, Finset.mem_union, ← join, ih]
    simp

theorem mem_join (h : Matches R R') (js : List ℕ) (x : ℕ) :
    x ∈ join (js.map R') ↔ x ∈ contract.covered (js.map R) := by
  have hset : ∀ j, x ∈ R' j ↔ x ∈ contract.keys (R j) := fun j => by rw [← contract.mem_set, contract_set (h j)]
  rw [mem_join_iff, contract.mem_covered]
  simp [hset]

theorem step_matches (h : Matches R R') (op : Op) :
    ∃ Q, step R op = .ok ((refStep R' op).1, Q) ∧ Matches Q (refStep R' op).2 := by
  have hfuel : ∀ js : List ℕ, ((js.map R).map engine.len).sum < turns (js.map R) := fun _ => Nat.lt_succ_self _
  cases op with
  | on i op =>
    obtain ⟨s, hr, hs⟩ := (h i).step op
    exact ⟨_, by rw [step, hr]; rfl, h.update i hs⟩
  | merge kind i j k =>
    obtain ⟨r, hr, hs⟩ := merge_holds kind (h j) (h k)
    exact h.put i hr hs
  | mergeLen kind j k => exact ⟨R, by rw [step, mergeLen_holds kind (h j) (h k)]; rfl, h⟩
  | intersectionMany i js =>
    obtain ⟨r, hr, hok, hmem⟩ := contract.intersectionMany_spec (h.ok js) (hfuel js)
    have hset : contract.set r = meet (js.map R') := Finset.ext fun x => by rw [hmem, mem_meet h]
    exact h.put i hr (hset ▸ holds_set hok)
  | unionMany i js =>
    obtain ⟨r, hr, hok, hmem⟩ := contract.unionMany_spec (h.ok js) (hfuel js)
    have hset : contract.set r = join (js.map R') := Finset.ext fun x => by rw [hmem, mem_join h]
    exact h.put i hr (hset ▸ holds_set hok)
  | intersectionLenMany js =>
    have hlen := contract.intersectionLenMany_eq (h.ok js) (hfuel js) (mem_meet h js)
    exact ⟨R, by rw [step, hlen]; rfl, h⟩
  | unionLenMany js =>
    have hlen := contract.unionLenMany_eq (h.ok js) (hfuel js)
    have hset : contract.covered (js.map R) = join (js.map R') := Finset.ext fun x => by rw [mem_join h]
    rw [hset] at hlen
    exact ⟨R, by rw [step, hlen]; rfl, h⟩

/-- Every program over sets that are empty at first answers as on finite sets, and leaves them. -/
theorem programs_exact (ops : List Op) :
    ∃ R, run step (fun _ => ExpanseSet32.new) ops = .ok ((refRun refStep (fun _ => ∅) ops).1, R) ∧
      Matches R (refRun refStep (fun _ => ∅) ops).2 :=
  run_refines (R := Matches) (fun _ _ op h _ => step_matches h op) (fun _ => ExpanseSet32.holds_new)
    (along_trivial _ _ _)

end Programs

end Expanse.Set32
