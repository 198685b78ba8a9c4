import Mathlib.Data.List.Basic

/-!
# Runs of a fallible machine

A machine takes operations one at a time; each answers with an output and a new
state, or faults. `Along` states a condition on every step of a run, at the state
before it. A step-wise simulation carries over to whole runs, and so does a
step-wise invariant. A stream is a machine with one operation that hands out the
head of a list: its runs hand out the list and then nothing.
-/

namespace Expanse.Runs

variable {State Op Out Err Ref : Type}

def run (step : State → Op → Except Err (Out × State)) :
    State → List Op → Except Err (List Out × State)
  | s, [] => .ok ([], s)
  | s, op :: ops =>
    match step s op with
    | .ok (out, s') =>
      match run step s' ops with
      | .ok (outs, s'') => .ok (out :: outs, s'')
      | .error f => .error f
    | .error f => .error f

/-- The same for a machine that never faults. -/
def refRun (ref : Ref → Op → Out × Ref) : Ref → List Op → List Out × Ref
  | a, [] => ([], a)
  | a, op :: ops => ((ref a op).1 :: (refRun ref (ref a op).2 ops).1, (refRun ref (ref a op).2 ops).2)

/-- `P` holds of every operation of the run at the state that takes it. -/
def Along (step : State → Op → Except Err (Out × State)) (P : State → Op → Prop) :
    State → List Op → Prop
  | _, [] => True
  | s, op :: ops => P s op ∧
    match step s op with
    | .ok (_, s') => Along step P s' ops
    | .error _ => True

/-- What `Along` asks after one step. -/
def decidableRest {Q : State → Prop} (hQ : ∀ s, Decidable (Q s)) :
    ∀ r : Except Err (Out × State), Decidable (match r with | .ok (_, s') => Q s' | .error _ => True)
  | .ok (_, s') => hQ s'
  | .error _ => .isTrue trivial

instance decidableAlong (step : State → Op → Except Err (Out × State)) (P : State → Op → Prop)
    [∀ s op, Decidable (P s op)] : ∀ ops s, Decidable (Along step P s ops)
  | [], _ => .isTrue trivial
  | op :: ops, s =>
    @instDecidableAnd _ _ inferInstance (decidableRest (decidableAlong step P ops) (step s op))

variable {step : State → Op → Except Err (Out × State)} {ref : Ref → Op → Out × Ref}
  {P : State → Op → Prop}

theorem run_cons {s : State} {op : Op} {ops : List Op} : run step s (op :: ops) =
    (step s op).bind fun r => (run step r.2 ops).map fun q => (r.1 :: q.1, q.2) := by
  rw [run]
  cases step s op with
  | error f => rfl
  | ok r =>
    obtain ⟨out, s₁⟩ := r
    dsimp only [Except.bind]
    cases run step s₁ ops with
    | error f => rfl
    | ok q => rfl

/-- A run that returns has a first step that returns. -/
theorem run_cons_ok {s s' : State} {op : Op} {ops : List Op} {outs : List Out} :
    run step s (op :: ops) = .ok (outs, s') ↔ ∃ out s₁ outs₁, step s op = .ok (out, s₁) ∧
      run step s₁ ops = .ok (outs₁, s') ∧ outs = out :: outs₁ := by
  rw [run_cons]
  constructor
  · intro h
    cases hs : step s op with
    | error f =>
      rw [hs] at h
      cases h
    | ok r =>
      rw [hs] at h
      cases hr : run step r.2 ops with
      | error f =>
        change (run step r.2 ops).map _ = _ at h
        rw [hr] at h
        cases h
      | ok q =>
        change (run step r.2 ops).map _ = _ at h
        rw [hr] at h
        cases h
        exact ⟨r.1, r.2, q.1, rfl, hr, rfl⟩
  · rintro ⟨out, s₁, outs₁, hs, hr, rfl⟩
    rw [hs]
    change (run step s₁ ops).map _ = _
    rw [hr]
    rfl

theorem run_cons_error {s : State} {op : Op} {ops : List Op} {f : Err} :
    run step s (op :: ops) = .error f ↔ step s op = .error f ∨
      ∃ out s₁, step s op = .ok (out, s₁) ∧ run step s₁ ops = .error f := by
  rw [run_cons]
  cases hs : step s op with
  | error g =>
    constructor
    · intro h
      cases h
      exact .inl rfl
    · rintro (h | ⟨out, s₁, h, -⟩)
      · cases h
        rfl
      · cases h
  | ok r =>
    change (run step r.2 ops).map _ = _ ↔ _
    constructor
    · intro h
      refine .inr ⟨r.1, r.2, rfl, ?_⟩
      cases hr : run step r.2 ops with
      | error g =>
        rw [hr] at h
        cases h
        rfl
      | ok q =>
        rw [hr] at h
        cases h
    · rintro (h | ⟨out, s₁, h, hr⟩)
      · cases h
      · cases h
        rw [hr]
        rfl

theorem refRun_cons (ref : Ref → Op → Out × Ref) (a : Ref) (op : Op) (ops : List Op) :
    refRun ref a (op :: ops) =
      ((ref a op).1 :: (refRun ref (ref a op).2 ops).1, (refRun ref (ref a op).2 ops).2) := rfl

/-- A simulation of single steps is one of whole runs, with the same outputs. -/
theorem run_refines {R : State → Ref → Prop}
    (hstep : ∀ s a op, R s a → P s op →
      ∃ s', step s op = .ok ((ref a op).1, s') ∧ R s' (ref a op).2)
    {s : State} {a : Ref} {ops : List Op} (h : R s a) (hP : Along step P s ops) :
    ∃ s', run step s ops = .ok ((refRun ref a ops).1, s') ∧ R s' (refRun ref a ops).2 := by
  induction ops generalizing s a with
  | nil => exact ⟨s, rfl, h⟩
  | cons op ops ih =>
    obtain ⟨s₁, hs₁, hsim⟩ := hstep s a op h hP.1
    have hP' := hP.2
    rw [hs₁] at hP'
    obtain ⟨s₂, hs₂, hsim'⟩ := ih hsim hP'
    exact ⟨s₂, run_cons_ok.mpr ⟨_, s₁, _, hs₁, hs₂, rfl⟩, hsim'⟩

/-- A simulation of the steps that return is one of the runs that return, with the same outputs. -/
theorem run_simulates {R : State → Ref → Prop}
    (hstep : ∀ s a op out s', R s a → P s op → step s op = .ok (out, s') →
      (ref a op).1 = out ∧ R s' (ref a op).2)
    {s s' : State} {a : Ref} {ops : List Op} {outs : List Out} (h : R s a) (hP : Along step P s ops)
    (hr : run step s ops = .ok (outs, s')) : (refRun ref a ops).1 = outs ∧ R s' (refRun ref a ops).2 := by
  induction ops generalizing s a outs with
  | nil =>
    cases hr
    exact ⟨rfl, h⟩
  | cons op ops ih =>
    obtain ⟨out, s₁, outs₁, hs, hr₁, rfl⟩ := run_cons_ok.mp hr
    obtain ⟨hp, hP'⟩ := hP
    rw [hs] at hP'
    obtain ⟨hout, hsim⟩ := hstep s a op out s₁ h hp hs
    obtain ⟨houts, hsim'⟩ := ih hsim hP' hr₁
    exact ⟨by rw [refRun_cons, hout, houts], hsim'⟩

/-- Two machines that take every step alike, as often as there are operations, run alike. -/
theorem run_lockstep {State' : Type} {step' : State' → Op → Except Err (Out × State')}
    {T : ℕ → State → State' → Prop}
    (hstep : ∀ n s s' op, T (n + 1) s s' →
      ∃ out s₁ s₁', step s op = .ok (out, s₁) ∧ step' s' op = .ok (out, s₁') ∧ T n s₁ s₁')
    {s : State} {s' : State'} {ops : List Op} (h : T ops.length s s') :
    ∃ outs s₁ s₁', run step s ops = .ok (outs, s₁) ∧ run step' s' ops = .ok (outs, s₁') ∧ T 0 s₁ s₁' := by
  induction ops generalizing s s' with
  | nil => exact ⟨[], s, s', rfl, rfl, h⟩
  | cons op ops ih =>
    obtain ⟨out, s₁, s₁', hs, hs', h₁⟩ := hstep ops.length s s' op h
    obtain ⟨outs, s₂, s₂', hr, hr', h₂⟩ := ih h₁
    exact ⟨out :: outs, s₂, s₂', run_cons_ok.mpr ⟨_, _, _, hs, hr, rfl⟩,
      run_cons_ok.mpr ⟨_, _, _, hs', hr', rfl⟩, h₂⟩

/-- An invariant of single steps holds at the end of every run that does not fault. -/
theorem run_invariant {I : State → Prop}
    (hstep : ∀ s op out s', I s → P s op → step s op = .ok (out, s') → I s')
    {s s' : State} {ops : List Op} {outs : List Out} (h : I s) (hP : Along step P s ops)
    (hr : run step s ops = .ok (outs, s')) : I s' := by
  induction ops generalizing s outs with
  | nil =>
    cases hr
    exact h
  | cons op ops ih =>
    obtain ⟨out, s₁, outs₁, hs, hr₁, rfl⟩ := run_cons_ok.mp hr
    obtain ⟨hp, hP'⟩ := hP
    rw [hs] at hP'
    exact ih (hstep s op out s₁ h hp hs) hP' hr₁

theorem along_trivial (step : State → Op → Except Err (Out × State)) (s : State) (ops : List Op) :
    Along step (fun _ _ => True) s ops := by
  induction ops generalizing s with
  | nil => trivial
  | cons op ops ih =>
    refine ⟨trivial, ?_⟩
    cases step s op with
    | error f => trivial
    | ok r => exact ih r.2

theorem run_ok_invariant {I : State → Prop}
    (hstep : ∀ s op out s', I s → step s op = .ok (out, s') → I s')
    {s s' : State} {ops : List Op} {outs : List Out} (h : I s)
    (hr : run step s ops = .ok (outs, s')) : I s' :=
  run_invariant (fun s op out s' hs _ => hstep s op out s' hs) h (along_trivial step s ops) hr

/-- Every answer of a run is one the relation allows, at the state it has reached. -/
inductive Traces (R : Ref → Op → Out → Ref → Prop) : Ref → List Op → List Out → Ref → Prop
  | nil (a : Ref) : Traces R a [] [] a
  | cons {a b c : Ref} {op : Op} {out : Out} {ops : List Op} {outs : List Out} :
    R a op out b → Traces R b ops outs c → Traces R a (op :: ops) (out :: outs) c

/-- A step-wise simulation of a machine that never faults, where the relation judges its answers. -/
theorem refRun_traces {step : State → Op → Out × State} {R : Ref → Op → Out → Ref → Prop}
    {I : State → Ref → Prop}
    (hstep : ∀ s a op, I s a → ∃ b, R a op (step s op).1 b ∧ I (step s op).2 b)
    {s : State} {a : Ref} (ops : List Op) (h : I s a) :
    ∃ b, Traces R a ops (refRun step s ops).1 b ∧ I (refRun step s ops).2 b := by
  induction ops generalizing s a with
  | nil => exact ⟨a, .nil a, h⟩
  | cons op ops ih =>
    obtain ⟨b, hR, hb⟩ := hstep s a op h
    obtain ⟨c, hT, hc⟩ := ih hb
    exact ⟨c, .cons hR hT, hc⟩

theorem run_error_iff {s : State} {ops : List Op} {f : Err} :
    run step s ops = .error f ↔ ∃ before op after outs s', ops = before ++ op :: after ∧
      run step s before = .ok (outs, s') ∧ step s' op = .error f := by
  constructor
  · intro h
    induction ops generalizing s with
    | nil => cases h
    | cons op ops ih =>
      obtain hs | ⟨out, s₁, hs, hr⟩ := run_cons_error.mp h
      · exact ⟨[], op, ops, [], s, rfl, rfl, hs⟩
      · obtain ⟨before, op', after, outs, s', rfl, hb, hf⟩ := ih hr
        exact ⟨op :: before, op', after, out :: outs, s', rfl, run_cons_ok.mpr ⟨out, s₁, outs, hs, hb, rfl⟩, hf⟩
  · rintro ⟨before, op, after, outs, s', rfl, hb, hf⟩
    induction before generalizing s outs with
    | nil =>
      cases hb
      exact run_cons_error.mpr (.inl hf)
    | cons op' before ih =>
      obtain ⟨out, s₁, outs₁, hs, hr, -⟩ := run_cons_ok.mp hb
      exact run_cons_error.mpr (.inr ⟨out, s₁, hs, ih outs₁ hr⟩)

/-- What the calls that do not fault keep, counted, holds at the end of a run that does not. -/
theorem run_ok_traces {R : Ref → Op → Out → Ref → Prop} {I : ℕ → State → Ref → Prop}
    (hstep : ∀ n s a op out s', I n s a → step s op = .ok (out, s') → ∃ b, R a op out b ∧ I (n + 1) s' b)
    {n : ℕ} {s s' : State} {a : Ref} {ops : List Op} {outs : List Out} (h : I n s a)
    (hr : run step s ops = .ok (outs, s')) : ∃ b, Traces R a ops outs b ∧ I (n + ops.length) s' b := by
  induction ops generalizing n s a outs with
  | nil =>
    cases hr
    exact ⟨a, .nil a, h⟩
  | cons op ops ih =>
    obtain ⟨out, s₁, outs₁, hs, hr₁, rfl⟩ := run_cons_ok.mp hr
    obtain ⟨b, hR, hb⟩ := hstep n s a op out s₁ h hs
    obtain ⟨c, hT, hc⟩ := ih hb hr₁
    refine ⟨c, .cons hR hT, ?_⟩
    rwa [List.length_cons, Nat.add_comm ops.length 1, ← Nat.add_assoc]

/-- A loop that takes a step for each item and returns the last state: what every step carries on, the loop
does. -/
theorem each_carries {A X : Type} {act : State → A → Except Err (Out × State)}
    {each : State → List A → Except Err State} {R : State → X → Prop} {next : X → A → X} {Fits : A → Prop}
    (hnil : ∀ s, each s [] = .ok s)
    (hcons : ∀ s a as, each s (a :: as) = (do let (_, s) ← act s a; each s as))
    (hstep : ∀ s x a, Fits a → R s x → ∃ out s', act s a = .ok (out, s') ∧ R s' (next x a))
    {as : List A} (hfit : ∀ a ∈ as, Fits a) {s : State} {x : X} (h : R s x) :
    ∃ s', each s as = .ok s' ∧ R s' (as.foldl next x) := by
  induction as generalizing s x with
  | nil => exact ⟨s, hnil s, h⟩
  | cons a as ih =>
    obtain ⟨out, s₁, hact, h₁⟩ := hstep s x a (hfit a List.mem_cons_self) h
    obtain ⟨s₂, heach, h₂⟩ := ih (fun b hb => hfit b (List.mem_cons_of_mem a hb)) h₁
    refine ⟨s₂, ?_, h₂⟩
    rw [hcons, hact]
    exact heach

section Stream

variable {α : Type} {next : State → Except Err (Option α × State)}

/-- The answers of `n` calls. -/
def calls (next : State → Except Err (Option α × State)) (s : State) (n : ℕ) :
    Except Err (List (Option α)) :=
  (run (fun s (_ : Unit) => next s) s (List.replicate n ())).map Prod.fst

/-- What `n` calls on a list hand out. -/
def drawn (l : List α) (n : ℕ) : List (Option α) := (List.range n).map (l[·]?)

theorem drawn_succ (l : List α) (n : ℕ) : drawn l (n + 1) = l.head? :: drawn l.tail n := by
  rw [drawn, drawn, List.range_succ_eq_map, List.map_cons, List.map_map]
  cases l with
  | nil => simp [Function.comp_def]
  | cons x xs => simp [Function.comp_def]

theorem calls_succ {s s' : State} {out : Option α} (h : next s = .ok (out, s')) (n : ℕ) :
    calls next s (n + 1) = (calls next s' n).map (out :: ·) := by
  rw [calls, calls, List.replicate_succ, run_cons, h]
  change ((run (fun s (_ : Unit) => next s) s' (List.replicate n ())).map _).map _ = _
  cases run (fun s (_ : Unit) => next s) s' (List.replicate n ()) with
  | error f => rfl
  | ok r => rfl

theorem calls_fault {s : State} {f : Err} (h : next s = .error f) (n : ℕ) :
    calls next s (n + 1) = .error f := by
  rw [calls, List.replicate_succ, run_cons, h]
  rfl

/-- What one call of a stream does: it hands out the head and leaves a stream of the tail. -/
theorem calls_uncons {s : State} {l : List α} (h : ∀ n, calls next s n = .ok (drawn l n)) :
    ∃ s', next s = .ok (l.head?, s') ∧ ∀ n, calls next s' n = .ok (drawn l.tail n) := by
  cases hs : next s with
  | error f =>
    have hone := h 1
    rw [calls_fault hs] at hone
    cases hone
  | ok r =>
    obtain ⟨out, s'⟩ := r
    have htail : ∀ n, out = l.head? ∧ calls next s' n = .ok (drawn l.tail n) := by
      intro n
      have hn := h (n + 1)
      rw [calls_succ hs, drawn_succ] at hn
      cases hc : calls next s' n with
      | error f =>
        rw [hc] at hn
        cases hn
      | ok outs =>
        rw [hc] at hn
        obtain ⟨hout, houts⟩ := List.cons.inj (Except.ok.inj hn)
        exact ⟨hout, congrArg Except.ok houts⟩
    exact ⟨s', by rw [(htail 0).1], fun n => (htail n).2⟩

/-- Answers read through a function. -/
theorem calls_map {β : Type} (g : α → β) (s : State) (n : ℕ) :
    calls (fun s => (next s).map fun r => (r.1.map g, r.2)) s n =
      (calls next s n).map (List.map (Option.map g)) := by
  induction n generalizing s with
  | zero => rfl
  | succ n ih =>
    cases hs : next s with
    | error f =>
      rw [calls_fault hs, calls_fault (f := f) (by rw [hs]; rfl)]
      rfl
    | ok r =>
      have hs' : (next s).map (fun r => (r.1.map g, r.2)) = .ok (r.1.map g, r.2) := by
        rw [hs]
        rfl
      rw [calls_succ hs, calls_succ hs', ih]
      cases calls next r.2 n with
      | error f => rfl
      | ok l => rfl

theorem drawn_map {β : Type} (g : α → β) (l : List α) (n : ℕ) :
    (drawn l n).map (Option.map g) = drawn (l.map g) n := by
  simp [drawn, Function.comp_def]

theorem calls_eq (left : State → List α) {I : State → Prop}
    (hstep : ∀ s, I s → ∃ s', next s = .ok ((left s).head?, s') ∧ I s' ∧ left s' = (left s).tail)
    {s : State} (h : I s) (n : ℕ) : calls next s n = .ok (drawn (left s) n) := by
  induction n generalizing s with
  | zero => rfl
  | succ n ih =>
    obtain ⟨s', hs, hI, hl⟩ := hstep s h
    rw [calls_succ hs, ih hI, hl, drawn_succ]
    rfl

/-- Where each step hands out an answer to the head of what is left, all calls together answer
the whole of it. -/
theorem calls_forall₂ {β : Type} {R : State → List β → Prop} {Q : β → α → Prop}
    (hnil : ∀ s, R s [] → ∃ s', next s = .ok (none, s') ∧ R s' [])
    (hcons : ∀ s b l, R s (b :: l) → ∃ x s', next s = .ok (some x, s') ∧ Q b x ∧ R s' l)
    {s : State} {l : List β} (h : R s l) :
    ∃ r, List.Forall₂ Q l r ∧ ∀ n, calls next s n = .ok (drawn r n) := by
  induction l generalizing s with
  | nil =>
    refine ⟨[], .nil, fun n => ?_⟩
    induction n generalizing s with
    | zero => rfl
    | succ n ih =>
      obtain ⟨s', hs, h'⟩ := hnil s h
      rw [calls_succ hs, ih h', drawn_succ]
      rfl
  | cons b l ih =>
    obtain ⟨x, s', hs, hx, h'⟩ := hcons s b l h
    obtain ⟨r, hr, hcalls⟩ := ih h'
    refine ⟨x :: r, .cons hx hr, fun n => ?_⟩
    cases n with
    | zero => rfl
    | succ n =>
      rw [calls_succ hs, hcalls, drawn_succ]
      rfl

/-- Where handing out some element faults, every run that reaches it does. -/
theorem calls_fault_at (left : State → List α) {I : State → Prop} (bad : α → Prop) {f : Err}
    (hstep : ∀ s, I s → (∀ x ∈ (left s).head?, ¬ bad x) →
      ∃ s', next s = .ok ((left s).head?, s') ∧ I s' ∧ left s' = (left s).tail)
    (hbad : ∀ s x, I s → x ∈ (left s).head? → bad x → next s = .error f)
    {s : State} (h : I s) {x : α} (hm : x ∈ left s) (hx : bad x) {n : ℕ} (hn : (left s).length ≤ n) :
    calls next s n = .error f := by
  induction n generalizing s with
  | zero =>
    rw [Nat.le_zero, List.length_eq_zero_iff] at hn
    rw [hn] at hm
    cases hm
  | succ n ih =>
    by_cases hb : ∃ y ∈ (left s).head?, bad y
    · obtain ⟨y, hy, hy'⟩ := hb
      exact calls_fault (hbad s y h hy hy') n
    · have hb' : ∀ y ∈ (left s).head?, ¬ bad y := fun y hy hy' => hb ⟨y, hy, hy'⟩
      obtain ⟨s', hs, hI, hl⟩ := hstep s h hb'
      cases hls : left s with
      | nil =>
        rw [hls] at hm
        cases hm
      | cons y ys =>
        rw [hls] at hm hb' hl hn
        have hm' : x ∈ ys := by
          rcases List.mem_cons.mp hm with rfl | hm
          · exact absurd hx (hb' x rfl)
          · exact hm
        rw [calls_succ hs, ih hI (by rw [hl]; exact hm') (by rw [hl]; simpa using hn)]
        rfl

/-- Call until nothing is handed out, at most `n` times; `e` stands for running out of calls. -/
def drain (e : Err) (next : State → Except Err (Option α × State)) :
    ℕ → State → Except Err (List α)
  | 0, _ => .error e
  | n + 1, s =>
    match next s with
    | .error f => .error f
    | .ok (none, _) => .ok []
    | .ok (some x, s') =>
      match drain e next n s' with
      | .error f => .error f
      | .ok l => .ok (x :: l)

theorem drain_succ (e : Err) (s : State) (n : ℕ) : drain e next (n + 1) s =
    (next s).bind fun r => r.1.elim (.ok []) fun x => (drain e next n r.2).map (x :: ·) := by
  rw [drain]
  cases next s with
  | error f => rfl
  | ok r =>
    obtain ⟨_ | x, s'⟩ := r
    · rfl
    · dsimp only [Except.bind, Option.elim]
      cases drain e next n s' with
      | error f => rfl
      | ok l => rfl

theorem drain_fault (e : Err) {s : State} {f : Err} (h : next s = .error f) (n : ℕ) :
    drain e next (n + 1) s = .error f := by
  rw [drain_succ, h]
  rfl

theorem drain_none (e : Err) {s s' : State} (h : next s = .ok (none, s')) (n : ℕ) :
    drain e next (n + 1) s = .ok [] := by
  rw [drain_succ, h]
  rfl

theorem drain_some (e : Err) {s s' : State} {x : α} (h : next s = .ok (some x, s')) (n : ℕ) :
    drain e next (n + 1) s = (drain e next n s').map (x :: ·) := by
  rw [drain_succ, h]
  rfl

theorem drain_of_calls (e : Err) {s : State} {l : List α} {n : ℕ}
    (h : calls next s n = .ok (drawn l n)) (hn : l.length < n) : drain e next n s = .ok l := by
  induction n generalizing s l with
  | zero => omega
  | succ n ih =>
    cases hs : next s with
    | error f =>
      rw [calls_fault hs] at h
      cases h
    | ok r =>
      obtain ⟨out, s'⟩ := r
      rw [calls_succ hs, drawn_succ] at h
      cases hc : calls next s' n with
      | error f =>
        rw [hc] at h
        cases h
      | ok outs =>
        rw [hc] at h
        have hcons : out :: outs = l.head? :: drawn l.tail n := Except.ok.inj h
        obtain ⟨hout, houts⟩ := List.cons.inj hcons
        rw [hout] at hs
        cases l with
        | nil => exact drain_none e hs n
        | cons x xs =>
          rw [drain_some e hs, ih (houts ▸ hc) (by simpa using hn)]
          rfl

/-- Reading nothing in place of an answer that fails `p` ends the draining there. -/
theorem drain_filter (e : Err) (p : α → Bool) {s : State} {l : List α} {n : ℕ}
    (h : calls next s n = .ok (drawn l n)) (hn : l.length < n) :
    drain e (fun s => (next s).map fun r => (r.1.filter p, r.2)) n s = .ok (l.takeWhile p) := by
  induction n generalizing s l with
  | zero => omega
  | succ n ih =>
    cases hs : next s with
    | error f =>
      rw [calls_fault hs] at h
      cases h
    | ok r =>
      obtain ⟨out, s'⟩ := r
      rw [calls_succ hs, drawn_succ] at h
      cases hc : calls next s' n with
      | error f =>
        rw [hc] at h
        cases h
      | ok outs =>
        rw [hc] at h
        have hcons : out :: outs = l.head? :: drawn l.tail n := Except.ok.inj h
        obtain ⟨hout, houts⟩ := List.cons.inj hcons
        have hs' : (next s).map (fun r => (r.1.filter p, r.2)) = .ok (l.head?.filter p, s') := by
          rw [hs, hout]
          rfl
        cases l with
        | nil => exact drain_none e hs' n
        | cons x xs =>
          rw [List.head?_cons] at hs'
          rw [List.takeWhile_cons]
          cases hp : p x with
          | false =>
            rw [Option.filter_some_neg (by simp [hp])] at hs'
            exact drain_none e hs' n
          | true =>
            rw [Option.filter_some_pos (by simp [hp])] at hs'
            rw [drain_some e hs', ih (houts ▸ hc) (by simpa using hn)]
            rfl

theorem drain_map {β : Type} (e : Err) (g : α → β) (n : ℕ) (s : State) :
    drain e (fun s => (next s).map fun r => (r.1.map g, r.2)) n s =
      (drain e next n s).map (List.map g) := by
  induction n generalizing s with
  | zero => rfl
  | succ n ih =>
    cases hs : next s with
    | error f =>
      rw [drain_fault e hs, drain_fault e (f := f) (by rw [hs]; rfl)]
      rfl
    | ok r =>
      obtain ⟨_ | x, s'⟩ := r
      · have hs' : (next s).map (fun r => (r.1.map g, r.2)) = .ok (none, s') := by
          rw [hs]
          rfl
        rw [drain_none e hs, drain_none e hs']
        rfl
      · have hs' : (next s).map (fun r => (r.1.map g, r.2)) = .ok (some (g x), s') := by
          rw [hs]
          rfl
        rw [drain_some e hs, drain_some e hs', ih]
        cases drain e next n s' with
        | error f => rfl
        | ok l => rfl

theorem drain_fault_at (e : Err) (left : State → List α) {I : State → Prop} (bad : α → Prop) {f : Err}
    (hstep : ∀ s, I s → (∀ x ∈ (left s).head?, ¬ bad x) →
      ∃ s', next s = .ok ((left s).head?, s') ∧ I s' ∧ left s' = (left s).tail)
    (hbad : ∀ s x, I s → x ∈ (left s).head? → bad x → next s = .error f)
    {s : State} (h : I s) {x : α} (hm : x ∈ left s) (hx : bad x) {n : ℕ} (hn : (left s).length ≤ n) :
    drain e next n s = .error f := by
  induction n generalizing s with
  | zero =>
    rw [Nat.le_zero, List.length_eq_zero_iff] at hn
    rw [hn] at hm
    cases hm
  | succ n ih =>
    cases hls : left s with
    | nil =>
      rw [hls] at hm
      cases hm
    | cons y ys =>
      by_cases hy : bad y
      · exact drain_fault e (hbad s y h (by rw [hls]; rfl) hy) n
      · obtain ⟨s', hs, hI, hl⟩ := hstep s h fun z hz => by
          rw [hls] at hz
          cases hz
          exact hy
        rw [hls] at hm hl hn hs
        have hm' : x ∈ ys := by
          rcases List.mem_cons.mp hm with rfl | hm
          · exact absurd hx hy
          · exact hm
        rw [drain_some e hs, ih hI (by rw [hl]; exact hm') (by rw [hl]; simpa using hn)]
        rfl

end Stream

end Expanse.Runs
