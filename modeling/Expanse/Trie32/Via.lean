import Expanse.Trie32.RefineInsert

/-!
# Insertion through the finger

The finger answers an insertion below the last bitmap leaf without a descent. It edits the leaf
and bumps the counts of the branches above it, the nearest first, which is what the descent
does on its way back.
-/

namespace Expanse.Trie32

open Radix SortedAssoc

variable {fl : Flavour} {kb rem key val fuel h : ℕ} {e : Edge32} {C F : Cells} {a a' : Arena} {f g : Finger}
  {anc : List Edge32}

/-- The count of one ancestor; the digit is unused without a child. -/
def bumpCount (a : Arena) (e : Edge32) : Except Fault Arena :=
  match e with
  | .branch form h => branchCommit a form h 0 none 1
  | _ => .error .wrongNode

/-- `map_insert_via_finger_mode`: `none` is a miss, and the inner option is the value before. -/
def insertViaFinger (shared : Bool) (a : Arena) (key val : ℕ) (f : Finger) :
    Except Fault (Option (Option ℕ × Arena)) :=
  if shared = true ∨ f.valid = false ∨ f.pre ≠ key / 256 then .ok none
  else do
    let (old, a) ← mapBitmapInsertAt false a f.leaf (key % 256) val
    match old with
    | some prev => pure (some (some prev, a))
    | none =>
      let a ← f.ancestors.foldlM bumpCount a
      pure (some (none, a))

/-- What `Leads` says, read off the arena. -/
def PathAt (a : Arena) : ℕ → Edge32 → ℕ → ℕ → List Edge32 → Prop
  | 0, _, _, _, _ => False
  | 1, e, _, h, anc => e = .mapBitmap h ∧ anc = []
  | kb + 2, e, rem, h, anc => ∃ form hb c anc', e = .branch form hb ∧ anc = anc' ++ [e] ∧
      branchChild a form hb (digitAt rem (kb + 2)) = .ok (some c) ∧
      PathAt a (kb + 1) c (childRem rem (kb + 2)) h anc'

theorem Leads.pathAt (hp : Leads .map C kb e rem h anc) (ho : Owned a (C + F)) : PathAt a kb e rem h anc := by
  induction kb generalizing e rem anc with
  | zero => exact hp
  | succ kb ih =>
    cases kb with
    | zero =>
      obtain ⟨he, hanc, -⟩ := hp
      exact ⟨he, hanc⟩
    | succ kb =>
      obtain ⟨form, hb, count, es, c, anc', he, hanc, hm, hk, hcap, hc, hp⟩ := hp
      refine ⟨form, hb, c, anc', he, hanc, ?_, ih hp⟩
      obtain ⟨rest, hrest⟩ := Multiset.exists_cons_of_mem hm
      obtain ⟨es₁, es₂, rfl, -⟩ := exists_cut_of_mem hk.sorted hc
      rw [hrest, cells_branch] at ho
      exact branchChild_cut ho hk hcap

/-- The path depends on the digits above the last one. -/
theorem Leads.congr {rem' : ℕ} (hp : Leads fl C kb e rem h anc) (hr : rem' / 256 = rem / 256) :
    Leads fl C kb e rem' h anc := by
  induction kb generalizing e rem rem' anc with
  | zero => exact hp
  | succ kb ih =>
    cases kb with
    | zero => exact hp
    | succ kb =>
      obtain ⟨form, hb, count, es, c, anc', he, hanc, hm, hk, hcap, hc, hp⟩ := hp
      have hdig : digitAt rem' (kb + 2) = digitAt rem (kb + 2) := by
        rw [digitAt, digitAt, digit, digit, show kb + 2 - 1 = kb + 1 from rfl, Nat.pow_succ, Nat.mul_comm,
          ← Nat.div_div_eq_div_mul, ← Nat.div_div_eq_div_mul, hr]
      have hlow : childRem rem' (kb + 2) / 256 = childRem rem (kb + 2) / 256 := by
        rw [childRem, childRem, low, low, show kb + 2 - 1 = kb + 1 from rfl, Nat.pow_succ, Nat.mul_comm,
          Nat.mod_mul_right_div_self, Nat.mod_mul_right_div_self, hr]
      exact ⟨form, hb, count, es, c, anc', he, hanc, hm, hk, hcap, hdig ▸ hc, ih hp hlow⟩

theorem PathAt.length (hp : PathAt a kb e rem h anc) : anc.length + 1 = kb := by
  induction kb generalizing e rem anc with
  | zero => exact absurd hp id
  | succ kb ih =>
    cases kb with
    | zero =>
      obtain ⟨-, rfl⟩ := hp
      rfl
    | succ kb =>
      obtain ⟨form, hb, c, anc', -, rfl, -, hp⟩ := hp
      rw [List.length_append, List.length_singleton, ih hp]

theorem branchCommit_digit (a : Arena) (form : Form) (h d d' : ℕ) (delta : ℤ) :
    branchCommit a form h d none delta = branchCommit a form h d' none delta := by
  unfold branchCommit
  cases a.branch form h with
  | error err => rfl
  | ok n => cases n <;> rfl

/-- What the leaf of a path and its ancestors owe after an insertion. -/
def settlePath (a : Arena) (h digit val : ℕ) (anc : List Edge32) : Except Fault (Option ℕ × Arena) := do
  let (old, a) ← mapBitmapInsertAt false a h digit val
  match old with
  | some prev => pure (some prev, a)
  | none =>
    let a ← anc.foldlM bumpCount a
    pure (none, a)

theorem settlePath_append (a : Arena) (h digit val : ℕ) (anc : List Edge32) (e : Edge32) :
    settlePath a h digit val (anc ++ [e]) = settlePath a h digit val anc >>= fun r =>
      match r.1 with
      | some prev => pure (some prev, r.2)
      | none => bumpCount r.2 e >>= fun a => pure (none, a) := by
  unfold settlePath
  cases mapBitmapInsertAt false a h digit val with
  | error err => rfl
  | ok r =>
    obtain ⟨old, a₁⟩ := r
    cases old with
    | some prev => rfl
    | none =>
      rw [ok_bind, ok_bind]
      dsimp only
      rw [List.foldlM_append]
      cases anc.foldlM bumpCount a₁ with
      | error err => rfl
      | ok a₂ =>
        rw [ok_bind, ok_bind, List.foldlM_cons, pure_eq_ok, ok_bind]
        cases bumpCount a₂ e with
        | error err => rfl
        | ok a₃ => rfl

/-- The descent along a path answers as the leaf of the path does, moves no edge, and arms the
finger with the path. -/
theorem insertMode_path (hp : PathAt a kb e rem h anc) (h4 : kb ≤ 4) (hf : kb ≤ fuel) :
    insertMode false .map fuel a e kb rem val g =
      (settlePath a h (rem % 256) val anc).map fun r => ⟨r.1, e, ⟨g.pre, h, anc, true⟩, r.2⟩ := by
  induction kb generalizing fuel e rem anc with
  | zero => exact absurd hp id
  | succ kb ih =>
    obtain ⟨fuel, rfl⟩ : ∃ m, fuel = m + 1 := ⟨fuel - 1, by omega⟩
    rw [insertMode.eq_def]
    dsimp only
    cases kb with
    | zero =>
      obtain ⟨rfl, rfl⟩ := hp
      rw [show kind .map (.mapBitmap h) = .bitmap h from rfl]
      dsimp only
      rw [bitmapInsertAt, settlePath]
      cases mapBitmapInsertAt false a h (rem % 256) val with
      | error err => rfl
      | ok r =>
        obtain ⟨old, a₁⟩ := r
        cases old with
        | some prev => rfl
        | none => rfl
    | succ kb =>
      obtain ⟨form, hb, c, anc', rfl, rfl, hc, hp⟩ := hp
      have hlow : childRem rem (kb + 2) % 256 = rem % 256 :=
        (low_low (a := 1) (b := kb + 1) (by omega) rem : low (low rem (kb + 1)) 1 = low rem 1)
      rw [kind_branch]
      dsimp only
      rw [show kb + 1 + 1 - 1 = kb + 1 from rfl, hc, ok_bind]
      dsimp only
      rw [ih hp (by omega) (by omega), hlow, settlePath_append]
      have hrec : anc'.length < 3 := by
        have := hp.length
        omega
      have hfin : (⟨g.pre, h, anc', true⟩ : Finger).record (.branch form hb) =
          ⟨g.pre, h, anc' ++ [.branch form hb], true⟩ := by
        rw [Finger.record, if_pos ⟨rfl, hrec⟩]
      cases settlePath a h (rem % 256) val anc' with
      | error err => rfl
      | ok r =>
        obtain ⟨old, a₁⟩ := r
        rw [ok_bind]
        cases old with
        | some prev => simp [Except.map, hfin]
        | none =>
          dsimp only [Except.map]
          rw [ok_bind]
          dsimp only
          rw [if_pos (.inl rfl), decide_eq_false (by simp), if_neg Bool.false_ne_true, if_neg Bool.false_ne_true,
            Option.isNone_none, if_pos rfl, hfin, branchCommit_digit a₁ form hb _ 0 1]
          rw [bumpCount]
          cases branchCommit a₁ form hb 0 none 1 with
          | error err => rfl
          | ok a₂ => rfl

theorem insertViaFinger_hit (hvalid : f.valid = true) (hpre : f.pre = key / 256) :
    insertViaFinger false a key val f = (settlePath a f.leaf (key % 256) val f.ancestors).map some := by
  rw [insertViaFinger, if_neg (by simp [hvalid, hpre]), settlePath]
  cases mapBitmapInsertAt false a f.leaf (key % 256) val with
  | error err => rfl
  | ok r =>
    obtain ⟨old, a₁⟩ := r
    cases old with
    | some prev => rfl
    | none =>
      rw [ok_bind, ok_bind]
      dsimp only
      cases f.ancestors.foldlM bumpCount a₁ with
      | error err => rfl
      | ok a₂ => rfl

end Expanse.Trie32
