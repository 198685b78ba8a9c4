import Mathlib.Data.Nat.Bitwise
import Mathlib.Data.List.TakeWhile
import Mathlib.Tactic

/-!
# Node version words

One 32-bit word is the sequence counter of a node, the writer's lock on it and, in its
top bit, the mark of a node that was replaced. A holder makes the word odd and leaves it
two higher, or where it was; marking the node sets the top bit and the low one.

Each operation acts on the word in one step. The compare-and-swap of `versionTryLock`
takes the word it expects as an argument: other holders may have moved the word since it
was loaded.
-/

namespace Expanse.Occ

/-- The flag of a node that was replaced or removed. -/
def OBSOLETE : UInt32 := 0x80000000

def versionObsolete (cur : UInt32) : UInt32 := OBSOLETE ||| cur ||| 1

def versionBegin (cur : UInt32) : UInt32 := cur + 1

def versionEnd (cur : UInt32) : UInt32 := cur + 1

/-- The value returned and the word stored. -/
def compareExchange (word current new : UInt32) : Except UInt32 (UInt32 × UInt32) :=
  if word = current then .ok (current, new) else .error word

def versionTryLock (cur word : UInt32) : Except UInt32 (UInt32 × UInt32) :=
  if cur % 2 ≠ 0 ∨ cur &&& OBSOLETE ≠ 0 then .error cur else compareExchange word cur (cur + 1)

def versionTryLockExpect (expected word : UInt32) : Except UInt32 (UInt32 × UInt32) :=
  if expected % 2 ≠ 0 ∨ expected &&& OBSOLETE ≠ 0 then .error expected
  else compareExchange word expected (expected + 1)

def versionObsoleteLocked (cur : UInt32) : UInt32 := OBSOLETE ||| cur

def versionUnlock (cur old : UInt32) (modified : Bool) : UInt32 :=
  if cur &&& OBSOLETE ≠ 0 then cur else if modified then old + 2 else old

/-- Who is inside a node: a bracket, or a lock with the version its guard keeps. -/
inductive Holder where
  | bracket
  | locked (old : UInt32)
deriving DecidableEq

/-- A node's word and its holder. `sampled` is the word before the holder entered; no
operation reads it. -/
structure Node where
  word : UInt32
  holder : Option Holder
  sampled : UInt32
deriving DecidableEq

/-- A node nobody is inside, with the version its header was built with. -/
def Node.fresh (version : UInt32) : Node := ⟨version, none, version⟩

inductive Op where
  | versionBegin
  | versionEnd
  | versionTryLock (cur : UInt32)
  | versionTryLockExpect (expected : UInt32)
  | versionUnlock (modified : Bool)
  | versionObsolete
  | versionObsoleteLocked
deriving DecidableEq

/-- What an attempt to lock leaves behind. -/
def Node.locking (s : Node) : Except UInt32 (UInt32 × UInt32) → Node
  | .ok (old, word) => ⟨word, some (.locked old), s.word⟩
  | .error _ => s

/-- One operation in its asserted pairing; `none` where an assertion or the pairing
forbids it. -/
def Node.step (s : Node) : Op → Option Node
  | .versionBegin =>
    if s.word % 2 = 0 then some ⟨Occ.versionBegin s.word, some .bracket, s.word⟩ else none
  | .versionEnd =>
    if s.holder = some .bracket then some ⟨Occ.versionEnd s.word, none, s.sampled⟩ else none
  | .versionTryLock cur => some (s.locking (Occ.versionTryLock cur s.word))
  | .versionTryLockExpect expected => some (s.locking (Occ.versionTryLockExpect expected s.word))
  | .versionUnlock modified =>
    match s.holder with
    | some (.locked old) => some ⟨Occ.versionUnlock s.word old modified, none, s.sampled⟩
    | _ => none
  | .versionObsolete =>
    if s.word &&& OBSOLETE = 0 ∧ s.word % 2 = 0 then
      some { s with word := Occ.versionObsolete s.word }
    else none
  | .versionObsoleteLocked =>
    match s.holder with
    | some (.locked _) => some { s with word := Occ.versionObsoleteLocked s.word }
    | _ => none

def Node.steps (s : Node) : List Op → Option Node
  | [] => some s
  | op :: ops => (s.step op).bind (·.steps ops)

/-- The operations that replace or remove the node. -/
def Op.marks : Op → Bool
  | .versionObsolete | .versionObsoleteLocked => true
  | _ => false

/-- The releases that follow a modification. -/
def Op.modifies : Op → Bool
  | .versionEnd | .versionUnlock true => true
  | _ => false

def modifications (ops : List Op) : ℕ := (ops.takeWhile (!·.marks)).countP Op.modifies

/-- The law of the version word, after the operations `past`. -/
structure Law (past : List Op) (s : Node) : Prop where
  odd_iff : s.word % 2 = 1 ↔ s.holder.isSome ∨ ∃ op ∈ past, op.marks
  lockable : s.holder = none → (∀ op ∈ past, ¬ op.marks) →
    versionTryLock s.word s.word = .ok (s.word, s.word + 1) ∧
    versionTryLockExpect s.word s.word = .ok (s.word, s.word + 1)
  obsolete : (∃ op ∈ past, op.marks) → s.word % 2 = 1 ∧
    ∀ cur, (∃ e, versionTryLock cur s.word = .error e) ∧ ∃ e, versionTryLockExpect cur s.word = .error e
  restores : ∀ old, s.holder = some (.locked old) → (∀ op ∈ past, ¬ op.marks) →
    versionUnlock s.word old false = s.sampled

/-- Every state of a run obeys the law. -/
def Lawful (start : Node) (ops : List Op) : Prop :=
  ∀ past rest s, ops = past ++ rest → start.steps past = some s → Law past s

/-- What holds of a word through every run: an unmarked word counts the modifications and
the holder, a marked one is odd with its top bit set. -/
structure Counted (version : UInt32) (past : List Op) (s : Node) : Prop where
  live : (∀ op ∈ past, ¬ op.marks) →
    s.word = version + 2 * UInt32.ofNat (modifications past) + if s.holder.isSome then 1 else 0
  even : version % 2 = 0
  locked : ∀ old, s.holder = some (.locked old) → old = s.sampled ∧ old &&& OBSOLETE = 0 ∧
    ((∀ op ∈ past, ¬ op.marks) → s.word = old + 1)
  marked : (∃ op ∈ past, op.marks) →
    s.word % 2 = 1 ∧ s.word &&& OBSOLETE ≠ 0 ∧ s.holder ≠ some .bracket

end Expanse.Occ
