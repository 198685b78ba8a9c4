import Expanse.Library.Puts
import Expanse.Engine.Insert

/-!
# The word map under a string map

A string map keeps one word map (`MapCore`) per trie level and uses it through the
operations of `WordMap`. `Correct` is the contract of those operations: the map is an
ascending list of entries, a lookup reads it, an update changes one binding, the
neighbour queries and the resumable cursor read it in order, and an empty map holds no
memory. An insertion may fault; `Total` says that none does. Words are natural numbers; keys
are below `2 ^ 64`.
-/

namespace Expanse.StrMap

open SortedAssoc

/-- One past the largest key of a word map. -/
def WORD : ℕ := 256 ^ 8

/-- The operations of `MapCore` that a string map calls. `Slot` addresses a value word;
`bytes` is what the map's own nodes hold from the allocator. -/
structure WordMap where
  Map : Type
  Slot : Type
  Cursor : Type
  new : Map
  get : Map → ℕ → Option ℕ
  insert : Map → ℕ → ℕ → Except Fault (Option ℕ × Map)
  insSlot : Map → ℕ → Except Fault (Slot × Map)
  remove : Map → ℕ → Except Fault (Option ℕ × Map)
  getSlotPtr : Map → ℕ → Option Slot
  readSlot : Map → Slot → Option ℕ
  writeSlot : Map → Slot → ℕ → Map
  len : Map → ℕ
  nextAtOrAfter : Map → ℕ → Option (ℕ × ℕ)
  prevAtOrBefore : Map → ℕ → Option (ℕ × ℕ)
  iter : Map → List (ℕ × ℕ)
  rootIsTree : Map → Bool
  emptyCursor : Cursor
  resetRawCursor : Map → Cursor → ℕ → Except Fault Cursor
  cursorNext : Cursor → Except Fault (Option (ℕ × ℕ) × Cursor)
  bytes : Map → ℕ

namespace WordMap

variable (M : WordMap)

def isEmpty (m : M.Map) : Bool := M.len m == 0

def first (m : M.Map) : Option (ℕ × ℕ) := M.nextAtOrAfter m 0

def last (m : M.Map) : Option (ℕ × ℕ) := M.prevAtOrBefore m (WORD - 1)

/-- `key.checked_add(1)?`, then the search. -/
def nextAfter (m : M.Map) (key : ℕ) : Option (ℕ × ℕ) :=
  if key + 1 < WORD then M.nextAtOrAfter m (key + 1) else none

/-- `key.checked_sub(1)?`, then the search. -/
def prevBefore (m : M.Map) (key : ℕ) : Option (ℕ × ℕ) :=
  if 0 < key then M.prevAtOrBefore m (key - 1) else none

/-- The operations keep an ascending list of entries. `Ok` holds of the maps the
operations reach; `At` says what a cursor has left. -/
structure Correct where
  Ok : M.Map → Prop
  entries : M.Map → List (ℕ × ℕ)
  At : M.Cursor → List (ℕ × ℕ) → Prop
  new_ok : Ok M.new
  entries_new : entries M.new = []
  sorted : ∀ {m}, Ok m → KeySorted (entries m)
  lt_word : ∀ {m e}, Ok m → e ∈ entries m → e.1 < WORD
  get_eq : ∀ {m k}, Ok m → k < WORD → M.get m k = (entries m).lookup k
  insert_ok : ∀ {m k v old m'}, Ok m → k < WORD → M.insert m k v = .ok (old, m') →
    Ok m' ∧ entries m' = put k v (entries m) ∧ old = (entries m).lookup k
  insSlot_ok : ∀ {m k s m'}, Ok m → k < WORD → M.insSlot m k = .ok (s, m') →
    Ok m' ∧ entries m' = put k (((entries m).lookup k).getD 0) (entries m) ∧
      M.getSlotPtr m' k = some s
  remove_ok : ∀ {m k}, Ok m → k < WORD → ∃ m', M.remove m k = .ok ((entries m).lookup k, m') ∧
    Ok m' ∧ entries m' = del k (entries m)
  getSlotPtr_isSome : ∀ {m k}, Ok m → k < WORD →
    (M.getSlotPtr m k).isSome = ((entries m).lookup k).isSome
  readSlot_eq : ∀ {m k s}, Ok m → k < WORD → M.getSlotPtr m k = some s →
    M.readSlot m s = (entries m).lookup k
  writeSlot_ok : ∀ {m k s} (v : ℕ), Ok m → k < WORD → M.getSlotPtr m k = some s →
    Ok (M.writeSlot m s v) ∧ entries (M.writeSlot m s v) = put k v (entries m)
  len_eq : ∀ {m}, Ok m → M.len m = (entries m).length
  nextAtOrAfter_eq : ∀ {m k}, Ok m → k < WORD →
    M.nextAtOrAfter m k = ((entries m).filter (k ≤ ·.1)).head?
  prevAtOrBefore_eq : ∀ {m k}, Ok m → k < WORD →
    M.prevAtOrBefore m k = ((entries m).filter (·.1 ≤ k)).getLast?
  iter_eq : ∀ {m}, Ok m → M.iter m = entries m
  reset_ok : ∀ {m k} (c : M.Cursor), Ok m → k < WORD →
    ∃ c', M.resetRawCursor m c k = .ok c' ∧ At c' ((entries m).filter (k ≤ ·.1))
  next_ok : ∀ {c l}, At c l → ∃ c', M.cursorNext c = .ok (l.head?, c') ∧ At c' l.tail
  bytes_empty : ∀ {m}, Ok m → entries m = [] → M.bytes m = 0

variable {M}

/-- No insertion into a map the operations reach faults. -/
structure Correct.Total (C : M.Correct) : Prop where
  insert : ∀ m k v, C.Ok m → k < WORD → ∃ r, M.insert m k v = .ok r
  insSlot : ∀ m k, C.Ok m → k < WORD → ∃ r, M.insSlot m k = .ok r

namespace Correct

variable (C : M.Correct) {m : M.Map} {k : ℕ}
include C

theorem isEmpty_iff (h : C.Ok m) : M.isEmpty m = true ↔ C.entries m = [] := by
  rw [isEmpty, C.len_eq h, beq_iff_eq, List.length_eq_zero_iff]

theorem first_eq (h : C.Ok m) : M.first m = (C.entries m).head? := by
  rw [first, C.nextAtOrAfter_eq h (by decide), List.filter_eq_self.mpr (by simp)]

theorem last_eq (h : C.Ok m) : M.last m = (C.entries m).getLast? := by
  rw [last, C.prevAtOrBefore_eq h (by decide), List.filter_eq_self.mpr]
  intro e he
  have := C.lt_word h he
  exact decide_eq_true (by omega)

theorem nextAfter_eq (h : C.Ok m) : M.nextAfter m k = ((C.entries m).filter (k < ·.1)).head? := by
  rw [nextAfter]
  split_ifs with hk
  · rw [C.nextAtOrAfter_eq h hk]
    rfl
  · rw [List.filter_eq_nil_iff.mpr, List.head?_nil]
    intro e he
    have := C.lt_word h he
    rw [decide_eq_true_iff]
    omega

theorem prevBefore_eq (h : C.Ok m) (hk : k < WORD) :
    M.prevBefore m k = ((C.entries m).filter (·.1 < k)).getLast? := by
  rw [prevBefore]
  split_ifs with h0
  · rw [C.prevAtOrBefore_eq h (by omega)]
    congr 1
    apply List.filter_congr
    intro e _
    rw [decide_eq_decide]
    omega
  · rw [List.filter_eq_nil_iff.mpr, List.getLast?_nil]
    intro e _
    rw [decide_eq_true_iff]
    omega

end Correct

/-- A word map that is its ascending list of entries. -/
def sortedList : WordMap where
  Map := List (ℕ × ℕ)
  Slot := ℕ
  Cursor := List (ℕ × ℕ)
  new := []
  get m k := m.lookup k
  insert m k v := .ok (m.lookup k, put k v m)
  insSlot m k := .ok (k, put k ((m.lookup k).getD 0) m)
  remove m k := .ok (m.lookup k, del k m)
  getSlotPtr m k := if (m.lookup k).isSome then some k else none
  readSlot m k := m.lookup k
  writeSlot m k v := put k v m
  len m := m.length
  nextAtOrAfter m k := (m.filter (k ≤ ·.1)).head?
  prevAtOrBefore m k := (m.filter (·.1 ≤ k)).getLast?
  iter m := m
  rootIsTree m := decide (32 < m.length)
  emptyCursor := []
  resetRawCursor m _ k := .ok (m.filter (k ≤ ·.1))
  cursorNext c := .ok (c.head?, c.tail)
  bytes m := 16 * m.length

theorem lt_word_put {m : List (ℕ × ℕ)} {k v : ℕ} (hs : KeySorted m) (hk : k < WORD)
    (h : ∀ e ∈ m, e.1 < WORD) : ∀ e ∈ put k v m, e.1 < WORD := by
  intro e he
  rcases (updated_put hs k v e.1 e.2).mp he with ⟨hx, -⟩ | ⟨-, hm⟩
  · rw [hx]
    exact hk
  · exact h _ hm

theorem lookup_put_self {m : List (ℕ × ℕ)} {k v : ℕ} (hs : KeySorted m) :
    (put k v m).lookup k = some v :=
  (lookup_eq_some_iff (hs.put k v)).mpr ((updated_put hs k v k v).mpr (.inl ⟨rfl, rfl⟩))

def sortedListCorrect : sortedList.Correct where
  Ok (m : List (ℕ × ℕ)) := KeySorted m ∧ ∀ e ∈ m, e.1 < WORD
  entries (m : List (ℕ × ℕ)) := m
  At c l := c = l
  new_ok := ⟨List.Pairwise.nil, fun _ he => absurd he List.not_mem_nil⟩
  entries_new := rfl
  sorted h := h.1
  lt_word h he := h.2 _ he
  get_eq _ _ := rfl
  insert_ok h hk heq := by
    cases heq
    exact ⟨⟨h.1.put _ _, lt_word_put h.1 hk h.2⟩, rfl, rfl⟩
  insSlot_ok h hk heq := by
    cases heq
    refine ⟨⟨h.1.put _ _, lt_word_put h.1 hk h.2⟩, rfl, ?_⟩
    simp only [sortedList]
    rw [lookup_put_self h.1]
    rfl
  remove_ok h _ :=
    ⟨_, rfl, ⟨h.1.del _, fun e he => h.2 e (List.mem_of_mem_filter he)⟩, rfl⟩
  getSlotPtr_isSome {m k} _ _ := by
    simp only [sortedList]
    split_ifs with hl
    · rw [hl, Option.isSome_some]
    · simpa using hl
  readSlot_eq {m k s} _ _ hs := by
    simp only [sortedList] at hs ⊢
    split_ifs at hs
    cases hs
    rfl
  writeSlot_ok {m k s} v h hk hs := by
    simp only [sortedList] at hs ⊢
    split_ifs at hs
    cases hs
    exact ⟨⟨h.1.put _ _, lt_word_put h.1 hk h.2⟩, rfl⟩
  len_eq _ := rfl
  nextAtOrAfter_eq _ _ := rfl
  prevAtOrBefore_eq _ _ := rfl
  iter_eq _ := rfl
  reset_ok _ _ _ := ⟨_, rfl, rfl⟩
  next_ok h := ⟨_, by rw [h]; rfl, rfl⟩
  bytes_empty _ h := by
    rw [h]
    rfl

theorem sortedListCorrect_total : sortedListCorrect.Total :=
  ⟨fun _ _ _ _ _ => ⟨_, rfl⟩, fun _ _ _ _ => ⟨_, rfl⟩⟩

end WordMap

end Expanse.StrMap
