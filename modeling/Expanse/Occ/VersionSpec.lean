import Expanse.Occ.Version

/-!
# The law of the version word

An unmarked word is the version the node started from, two for each modification since, and
one while somebody is inside; a marked one stays odd with its top bit set. So the law fails
exactly where the count of an unmarked node reaches the top bit.
-/

namespace Expanse.Occ

variable {s t : Node} {past : List Op} {version : UInt32}

theorem and_obsolete_eq_zero {w : UInt32} : w &&& OBSOLETE = 0 ↔ w.toNat < 2 ^ 31 := by
  have hw : w.toNat < 2 ^ 32 := w.toNat_lt
  have h : (w &&& OBSOLETE).toNat = (w.toNat.testBit 31).toNat * 2 ^ 31 := by
    rw [UInt32.toNat_and]
    exact Nat.and_two_pow w.toNat 31
  rw [← UInt32.toNat_inj, h, Nat.testBit_eq_decide_div_mod_eq]
  by_cases hb : w.toNat / 2 ^ 31 % 2 = 1
  · simp only [hb, decide_true, Bool.toNat_true, UInt32.toNat_zero]
    omega
  · simp only [hb, decide_false, Bool.toNat_false, UInt32.toNat_zero]
    omega

theorem or_obsolete_ne_zero (w : UInt32) : (OBSOLETE ||| w) &&& OBSOLETE ≠ 0 := by
  rw [Ne, and_obsolete_eq_zero, UInt32.toNat_or]
  exact Nat.not_lt.mpr Nat.left_le_or

theorem odd_iff {w : UInt32} : w % 2 = 1 ↔ w.toNat % 2 = 1 := by
  rw [← UInt32.toNat_inj, UInt32.toNat_mod]
  rfl

theorem even_iff {w : UInt32} : w % 2 = 0 ↔ w.toNat % 2 = 0 := by
  rw [← UInt32.toNat_inj, UInt32.toNat_mod]
  rfl

theorem odd_or_obsolete {w : UInt32} (h : w % 2 = 1) : (OBSOLETE ||| w) % 2 = 1 := by
  rw [odd_iff, UInt32.toNat_or, Nat.or_mod_two_eq_one]
  exact .inr (odd_iff.mp h)

theorem odd_versionObsolete (w : UInt32) : versionObsolete w % 2 = 1 := by
  rw [versionObsolete, odd_iff, UInt32.toNat_or, Nat.or_mod_two_eq_one]
  exact .inr rfl

theorem versionTryLock_eq_ok {cur w old new : UInt32} (h : versionTryLock cur w = .ok (old, new)) :
    old = w ∧ new = w + 1 ∧ w % 2 = 0 ∧ w &&& OBSOLETE = 0 := by
  unfold versionTryLock compareExchange at h
  grind

theorem versionTryLock_self {w : UInt32} (heven : w % 2 = 0) (hlow : w &&& OBSOLETE = 0) :
    versionTryLock w w = .ok (w, w + 1) := by
  simp [versionTryLock, compareExchange, heven, hlow]

theorem versionTryLock_error {w : UInt32} (hodd : w % 2 = 1) (cur : UInt32) :
    ∃ e, versionTryLock cur w = .error e := by
  cases h : versionTryLock cur w with
  | error e => exact ⟨e, rfl⟩
  | ok p =>
    obtain ⟨-, -, heven, -⟩ := versionTryLock_eq_ok h
    rw [heven] at hodd
    exact absurd hodd (by decide)

/-- The two attempts differ only in where the value to compare comes from. -/
theorem versionTryLockExpect_eq : versionTryLockExpect = versionTryLock := rfl

/-- The mark of an operation, once in the history, ends the count. -/
theorem modifications_of_marked (h : ∃ op ∈ past, op.marks) (op : Op) :
    modifications (past ++ [op]) = modifications past := by
  rw [modifications, List.takeWhile_append, if_neg]
  · rfl
  · intro hl
    obtain ⟨o, ho, hm⟩ := h
    have hall := List.takeWhile_eq_self_iff.mp
      ((List.takeWhile_prefix fun o : Op => !o.marks).eq_of_length hl)
    simpa [hm] using hall o ho

theorem modifications_of_live (h : ∀ op ∈ past, ¬ op.marks) {op : Op} (hm : ¬ op.marks) :
    modifications (past ++ [op]) = modifications past + if op.modifies then 1 else 0 := by
  have hall : ∀ o ∈ past ++ [op], (!o.marks) = true := by
    simpa [or_imp, forall_and] using ⟨fun o ho => by simpa using h o ho, by simpa using hm⟩
  have hpast : ∀ o ∈ past, (!o.marks) = true := fun o ho => by simpa using h o ho
  rw [modifications, modifications, List.takeWhile_eq_self_iff.mpr hall,
    List.takeWhile_eq_self_iff.mpr hpast, List.countP_append, List.countP_singleton]

theorem counted_fresh (h : version % 2 = 0) : Counted version [] (.fresh version) where
  live _ := by simp [Node.fresh, modifications]
  even := h
  locked old hold := by simp [Node.fresh] at hold
  marked hm := by simp at hm

/-- With nobody inside, an unmarked word is even. -/
theorem Counted.odd_iff (h : Counted version past s) (hlive : ∀ op ∈ past, ¬ op.marks) :
    s.word % 2 = 1 ↔ s.holder.isSome := by
  rw [h.live hlive, Occ.odd_iff, UInt32.toNat_add, UInt32.toNat_add, UInt32.toNat_mul]
  have heven := even_iff.mp h.even
  split
  · simp_all [UInt32.toNat_ofNat]; omega
  · simp_all

theorem live_or_marked (past : List Op) : (∀ op ∈ past, ¬ op.marks) ∨ ∃ op ∈ past, op.marks := by
  by_cases h : ∃ op ∈ past, op.marks
  · exact .inr h
  · exact .inl fun op ho hm => h ⟨op, ho, hm⟩

theorem live_append {op : Op} (h : ∀ o ∈ past, ¬ o.marks) (hm : ¬ op.marks) :
    ∀ o ∈ past ++ [op], ¬ o.marks := by
  intro o ho
  rcases List.mem_append.mp ho with ho | ho
  · exact h o ho
  · rwa [List.mem_singleton.mp ho]

theorem live_of_append {op : Op} (h : ∀ o ∈ past ++ [op], ¬ o.marks) :
    (∀ o ∈ past, ¬ o.marks) ∧ ¬ op.marks :=
  ⟨fun o ho => h o (List.mem_append_left _ ho), h op (by simp)⟩

theorem marked_of_append {op : Op} (h : ∃ o ∈ past ++ [op], o.marks) (hm : ¬ op.marks) :
    ∃ o ∈ past, o.marks := by
  obtain ⟨o, ho, hmark⟩ := h
  rcases List.mem_append.mp ho with ho | ho
  · exact ⟨o, ho, hmark⟩
  · exact absurd (List.mem_singleton.mp ho ▸ hmark) hm

/-- An even word belongs to an unmarked node nobody is inside. -/
theorem Counted.of_even (h : Counted version past s) (heven : s.word % 2 = 0) :
    (∀ op ∈ past, ¬ op.marks) ∧ s.holder = none := by
  have hne : s.word % 2 ≠ 1 := by rw [heven]; decide
  have hlive : ∀ op ∈ past, ¬ op.marks :=
    (live_or_marked past).resolve_right fun hm => hne (h.marked hm).1
  exact ⟨hlive, Option.not_isSome_iff_eq_none.mp fun hs => hne ((h.odd_iff hlive).mpr hs)⟩

theorem Counted.odd_of_holder (h : Counted version past s) (hold : s.holder.isSome) :
    s.word % 2 = 1 := by
  rcases live_or_marked past with hlive | hm
  · exact (h.odd_iff hlive).mpr hold
  · exact (h.marked hm).1

/-- An operation that neither marks nor modifies and leaves the state alone. -/
theorem Counted.idle (h : Counted version past s) {op : Op} (hmark : ¬ op.marks)
    (hmod : ¬ op.modifies) : Counted version (past ++ [op]) s where
  live hl := by
    obtain ⟨hlive, -⟩ := live_of_append hl
    rw [modifications_of_live hlive hmark, if_neg hmod]
    exact h.live hlive
  even := h.even
  locked old hold := by
    obtain ⟨hsampled, hlow, hword⟩ := h.locked old hold
    exact ⟨hsampled, hlow, fun hl => hword (live_of_append hl).1⟩
  marked hm := h.marked (marked_of_append hm hmark)

/-- Somebody enters a node at an even word. -/
theorem Counted.enter (h : Counted version past s) {op : Op} (hmark : ¬ op.marks)
    (hmod : ¬ op.modifies) (heven : s.word % 2 = 0) {holder : Holder}
    (hlow : ∀ old, holder = .locked old → old = s.word ∧ s.word &&& OBSOLETE = 0) :
    Counted version (past ++ [op]) ⟨s.word + 1, some holder, s.word⟩ where
  live hl := by
    obtain ⟨hlive, hnone⟩ := h.of_even heven
    rw [modifications_of_live hlive hmark, if_neg hmod, h.live hlive, hnone]
    simp
  even := h.even
  locked old hold := by
    obtain ⟨rfl, hl⟩ := hlow old (Option.some_inj.mp hold)
    exact ⟨rfl, hl, fun _ => rfl⟩
  marked hm := by
    obtain ⟨o, ho, hmk⟩ := marked_of_append hm hmark
    exact absurd hmk ((h.of_even heven).1 o ho)

theorem counted_locking (h : Counted version past s) {op : Op} (hmark : ¬ op.marks)
    (hmod : ¬ op.modifies) (cur : UInt32) :
    Counted version (past ++ [op]) (s.locking (versionTryLock cur s.word)) := by
  cases hr : versionTryLock cur s.word with
  | error e => exact h.idle hmark hmod
  | ok p =>
    obtain ⟨old, new⟩ := p
    obtain ⟨rfl, rfl, heven, hlow⟩ := versionTryLock_eq_ok hr
    refine h.enter hmark hmod heven fun old hold => ?_
    cases hold
    exact ⟨rfl, hlow⟩

/-- A bracket never sees a marked node, and leaves the word two higher than it was. -/
theorem counted_versionEnd (h : Counted version past s) (hold : s.holder = some .bracket) :
    Counted version (past ++ [.versionEnd]) ⟨versionEnd s.word, none, s.sampled⟩ where
  live hl := by
    obtain ⟨hlive, hmark⟩ := live_of_append hl
    rw [modifications_of_live hlive hmark, if_pos (by rfl), versionEnd, h.live hlive, hold]
    simp
    rw [UInt32.mul_add, UInt32.mul_one, UInt32.add_assoc, UInt32.add_assoc]
    rfl
  even := h.even
  locked old hold := by simp at hold
  marked hm := absurd hold (h.marked (marked_of_append hm (by simp [Op.marks]))).2.2

/-- The word under a lock of an unmarked node has its top bit clear. -/
theorem Counted.low_of_locked (h : Counted version past s) {old : UInt32}
    (hold : s.holder = some (.locked old)) (hlive : ∀ op ∈ past, ¬ op.marks) :
    s.word &&& OBSOLETE = 0 := by
  obtain ⟨-, hlow, hword⟩ := h.locked old hold
  have hodd := Occ.odd_iff.mp (h.odd_of_holder (by simp [hold]))
  have hlt := and_obsolete_eq_zero.mp hlow
  rw [and_obsolete_eq_zero]
  rw [hword hlive, UInt32.toNat_add] at hodd ⊢
  simp only [UInt32.reduceToNat] at *
  omega

theorem counted_versionUnlock (h : Counted version past s) {old : UInt32} {modified : Bool}
    (hold : s.holder = some (.locked old)) :
    Counted version (past ++ [.versionUnlock modified])
      ⟨versionUnlock s.word old modified, none, s.sampled⟩ where
  live hl := by
    obtain ⟨hlive, hmark⟩ := live_of_append hl
    obtain ⟨-, -, hword⟩ := h.locked old hold
    have hnum := h.live hlive
    rw [hword hlive, hold] at hnum
    rw [modifications_of_live hlive hmark, versionUnlock,
      if_neg (not_not.mpr (h.low_of_locked hold hlive))]
    have hold : old = version + 2 * UInt32.ofNat (modifications past) := by
      simpa using hnum
    cases modified <;> simp [Op.modifies, hold]
    rw [UInt32.mul_add, UInt32.mul_one, UInt32.add_assoc]
  even := h.even
  locked old hold := by simp at hold
  marked hm := by
    obtain ⟨hodd, htop, -⟩ := h.marked (marked_of_append hm (by simp [Op.marks]))
    simp [versionUnlock, hodd, htop]

theorem counted_step (h : Counted version past s) {op : Op} (hs : s.step op = some t) :
    Counted version (past ++ [op]) t := by
  cases op with
  | versionBegin =>
    simp only [Node.step] at hs
    split at hs
    · case isTrue heven =>
      cases hs
      exact h.enter (by simp [Op.marks]) (by simp [Op.modifies]) heven (by simp)
    · cases hs
  | versionEnd =>
    simp only [Node.step] at hs
    split at hs
    · case isTrue hold =>
      cases hs
      exact counted_versionEnd h hold
    · cases hs
  | versionTryLock cur =>
    cases hs
    exact counted_locking h (by simp [Op.marks]) (by simp [Op.modifies]) cur
  | versionTryLockExpect expected =>
    cases hs
    exact counted_locking h (by simp [Op.marks]) (by simp [Op.modifies]) expected
  | versionUnlock modified =>
    simp only [Node.step] at hs
    split at hs
    · case h_1 old hold =>
      cases hs
      exact counted_versionUnlock h hold
    · cases hs
  | versionObsolete =>
    simp only [Node.step] at hs
    split at hs
    · case isTrue hguard =>
      cases hs
      obtain ⟨hlive, hnone⟩ := h.of_even hguard.2
      refine ⟨fun hl => absurd rfl (live_of_append hl).2, h.even, fun old hold => ?_, fun _ => ?_⟩
      · simp [hnone] at hold
      · refine ⟨odd_versionObsolete s.word, ?_, by simp [hnone]⟩
        rw [versionObsolete, UInt32.or_assoc]
        exact or_obsolete_ne_zero _
    · cases hs
  | versionObsoleteLocked =>
    simp only [Node.step] at hs
    split at hs
    · case h_1 old hold =>
      cases hs
      refine ⟨fun hl => absurd rfl (live_of_append hl).2, h.even, fun old hold => ?_, fun _ => ?_⟩
      · obtain ⟨hsampled, hlow, -⟩ := h.locked old hold
        exact ⟨hsampled, hlow, fun hl => absurd rfl (live_of_append hl).2⟩
      · exact ⟨odd_or_obsolete (h.odd_of_holder (by simp [hold])), or_obsolete_ne_zero _,
          by simp [hold]⟩
    · cases hs

theorem counted_steps (h : Counted version past s) {ops : List Op} (hs : s.steps ops = some t) :
    Counted version (past ++ ops) t := by
  induction ops generalizing s past with
  | nil =>
    cases hs
    simpa using h
  | cons op ops ih =>
    obtain ⟨u, hu, hut⟩ := Option.bind_eq_some_iff.mp hs
    simpa using ih (counted_step h hu) hut

theorem steps_append (s : Node) (xs ys : List Op) :
    s.steps (xs ++ ys) = (s.steps xs).bind (·.steps ys) := by
  induction xs generalizing s with
  | nil => rfl
  | cons op xs ih =>
    simp only [List.cons_append, Node.steps, Option.bind_assoc, ih]

/-- The law holds at a state exactly when an unmarked node nobody is inside has its top
bit clear. -/
theorem Counted.law_iff (h : Counted version past s) :
    Law past s ↔ (s.holder = none → (∀ op ∈ past, ¬ op.marks) → s.word &&& OBSOLETE = 0) := by
  constructor
  · intro hl hnone hlive
    exact (versionTryLock_eq_ok (hl.lockable hnone hlive).1).2.2.2
  · intro hlow
    refine ⟨?_, fun hnone hlive => ?_, fun hm => ?_, fun old hold hlive => ?_⟩
    · rcases live_or_marked past with hlive | hm
      · rw [h.odd_iff hlive]
        refine ⟨.inl, fun ho => ho.resolve_right ?_⟩
        rintro ⟨op, hop, hmark⟩
        exact hlive op hop hmark
      · exact ⟨fun _ => .inr hm, fun _ => (h.marked hm).1⟩
    · have heven : s.word % 2 = 0 := by
        have hne := (h.odd_iff hlive).not.mpr (by simp [hnone])
        rw [Occ.odd_iff] at hne
        exact even_iff.mpr (by omega)
      rw [versionTryLockExpect_eq]
      exact ⟨versionTryLock_self heven (hlow hnone hlive),
        versionTryLock_self heven (hlow hnone hlive)⟩
    · have hodd := (h.marked hm).1
      rw [versionTryLockExpect_eq]
      exact ⟨hodd, fun cur => ⟨versionTryLock_error hodd cur, versionTryLock_error hodd cur⟩⟩
    · rw [versionUnlock, if_neg (not_not.mpr (h.low_of_locked hold hlive))]
      exact (h.locked old hold).1

theorem modifications_mono (xs ys : List Op) : modifications xs ≤ modifications (xs ++ ys) := by
  rw [modifications, modifications, List.takeWhile_append]
  split
  · case isTrue h =>
    rw [(List.takeWhile_prefix fun o : Op => !o.marks).eq_of_length h, List.countP_append]
    exact Nat.le_add_right _ _
  · exact le_rfl

/-- While the count stays below the top bit, an unmarked word nobody holds is the count. -/
theorem Counted.toNat_eq (h : Counted version past s) (hnone : s.holder = none)
    (hlive : ∀ op ∈ past, ¬ op.marks) (hlt : version.toNat + 2 * modifications past < 2 ^ 32) :
    s.word.toNat = version.toNat + 2 * modifications past := by
  rw [h.live hlive, hnone, UInt32.toNat_add, UInt32.toNat_add, UInt32.toNat_mul, UInt32.toNat_ofNat]
  simp
  omega

theorem lawful_of_lt {ops : List Op} (heven : version % 2 = 0)
    (hlt : version.toNat + 2 * modifications ops < 2 ^ 31) : Lawful (.fresh version) ops := by
  rintro past rest s rfl hs
  have hc : Counted version past s := by simpa using counted_steps (counted_fresh heven) hs
  have hle := modifications_mono past rest
  refine hc.law_iff.mpr fun hnone hlive => and_obsolete_eq_zero.mpr ?_
  rw [hc.toNat_eq hnone hlive (by omega)]
  omega

theorem modifications_of_marks {op : Op} (hm : op.marks) :
    modifications (past ++ [op]) = modifications past := by
  rw [modifications, modifications, List.takeWhile_append]
  split
  · case isTrue h =>
    rw [(List.takeWhile_prefix fun o : Op => !o.marks).eq_of_length h]
    simp [hm]
  · rfl

theorem holder_of_modifies {op : Op} (hs : s.step op = some t) (hm : op.modifies) :
    t.holder = none := by
  cases op with
  | versionEnd =>
    simp only [Node.step] at hs
    split at hs <;> cases hs
    rfl
  | versionUnlock modified =>
    simp only [Node.step] at hs
    split at hs <;> cases hs
    rfl
  | _ => simp [Op.modifies] at hm

theorem Lawful.init {start : Node} {op : Op} (h : Lawful start (past ++ [op])) : Lawful start past := by
  rintro p rest s rfl hs
  exact h p (rest ++ [op]) s (by simp) hs

theorem lt_of_lawful {ops : List Op} (heven : version % 2 = 0)
    (hs : (Node.fresh version).steps ops = some s) (h : Lawful (.fresh version) ops) :
    version.toNat + 2 * modifications ops < 2 ^ 31 := by
  induction ops using List.reverseRecOn generalizing s with
  | nil =>
    have hlaw := (counted_fresh heven).law_iff.mp (h [] [] _ rfl rfl) rfl (by simp)
    exact and_obsolete_eq_zero.mp hlaw
  | append_singleton ops op ih =>
    rw [steps_append] at hs
    obtain ⟨r, hr, hrs⟩ := Option.bind_eq_some_iff.mp hs
    have hrs : r.step op = some s := by
      obtain ⟨u, hu, hus⟩ := Option.bind_eq_some_iff.mp hrs
      rw [hu, ← hus]
      rfl
    have hprev := ih hr h.init
    have hc : Counted version ops r := by simpa using counted_steps (counted_fresh heven) hr
    have hc' := counted_step hc hrs
    rcases live_or_marked ops with hlive | hm
    · by_cases hmark : op.marks
      · rwa [modifications_of_marks hmark]
      · have hcount := modifications_of_live hlive hmark
        by_cases hmod : op.modifies
        · rw [hcount, if_pos hmod]
          have hnone := holder_of_modifies hrs hmod
          have hlive' := live_append hlive hmark
          have hlow := hc'.law_iff.mp
            (h _ [] s (by simp) (by rw [steps_append]; exact hs)) hnone hlive'
          rw [if_pos hmod] at hcount
          have hnum := hc'.toNat_eq hnone hlive' (by omega)
          rw [and_obsolete_eq_zero] at hlow
          omega
        · rwa [hcount, if_neg hmod]
    · rwa [modifications_of_marked hm]

/-- The word of a node obeys the law at every state of a run exactly when the modifications
of the run do not reach the top bit. -/
theorem version_lawful_iff {version : UInt32} {ops : List Op} {s : Node} (heven : version % 2 = 0)
    (hs : (Node.fresh version).steps ops = some s) :
    Lawful (.fresh version) ops ↔ version.toNat + 2 * modifications ops < 2 ^ 31 :=
  ⟨lt_of_lawful heven hs, lawful_of_lt heven⟩

theorem version_lawful_iff_one : Lawful (.fresh 0) [.versionTryLock 0, .versionUnlock true] ↔
    (0 : UInt32).toNat + 2 * modifications [.versionTryLock 0, .versionUnlock true] < 2 ^ 31 :=
  version_lawful_iff (s := ⟨2, none, 0⟩) (by decide) (by decide)

/-- The operations of `n` bracketed modifications. -/
def brackets (n : ℕ) : List Op := (List.replicate n [.versionBegin, .versionEnd]).flatten

theorem steps_brackets (n : ℕ) (s : Node) (heven : s.word % 2 = 0) (hnone : s.holder = none) :
    ∃ t, s.steps (brackets n) = some t := by
  induction n generalizing s with
  | zero => exact ⟨s, rfl⟩
  | succ n ih =>
    have hstep : s.steps [.versionBegin, .versionEnd] = some ⟨s.word + 1 + 1, none, s.word⟩ := by
      simp [Node.steps, Node.step, heven, versionBegin, versionEnd]
    have heven' : (s.word + 1 + 1) % 2 = 0 := by
      rw [even_iff] at heven ⊢
      simp [UInt32.toNat_add]
      omega
    obtain ⟨t, ht⟩ := ih ⟨s.word + 1 + 1, none, s.word⟩ heven' rfl
    refine ⟨t, ?_⟩
    rw [brackets, List.replicate_succ, List.flatten_cons, steps_append, hstep]
    exact ht

theorem modifications_bracket (ops : List Op) :
    modifications ([.versionBegin, .versionEnd] ++ ops) = modifications ops + 1 := by
  have hb : Op.versionBegin.marks = false := rfl
  have he : Op.versionEnd.marks = false := rfl
  have hb' : Op.versionBegin.modifies = false := rfl
  have he' : Op.versionEnd.modifies = true := rfl
  simp [modifications, hb, he, hb', he']

theorem modifications_brackets (n : ℕ) : modifications (brackets n) = n := by
  induction n with
  | zero => rfl
  | succ n ih =>
    rw [brackets, List.replicate_succ, List.flatten_cons, modifications_bracket]
    exact congrArg (· + 1) ih

/-- After `2 ^ 30` modifications the count of a node nobody is inside reads as the mark. -/
theorem not_every_run_lawful : ¬ ∀ (version : UInt32) (ops : List Op) (s : Node),
    version % 2 = 0 → (Node.fresh version).steps ops = some s → Lawful (.fresh version) ops := by
  intro hall
  obtain ⟨t, ht⟩ := steps_brackets (2 ^ 30) (.fresh 0) (by decide) rfl
  have hlt := lt_of_lawful (by decide) ht (hall 0 _ t (by decide) ht)
  rw [modifications_brackets] at hlt
  exact absurd hlt (by decide)

end Expanse.Occ
