import Expanse.Engine.NavBack
import Expanse.Store.SlotInv
import Expanse.Store.Build
import Expanse.Store.Cursors

/-!
# The map core without a path

An owner that keeps no insert path hands every operation an empty one and drops it
afterwards. Such a path never hits, and an insert leaves no increment deferred on the path
it arms, so that nothing is lost when it is dropped. The searches for a neighbour and the
memory a core's nodes hold are stated here too, for owners of many cores.
-/

namespace Expanse

open Radix SortedAssoc Edge

def InsertPath.Undeferred (path : Option InsertPath) : Prop := ∀ w, path = some w → w.pendingPop = 0

namespace InsertPath

theorem undeferred_none : Undeferred none := by
  intro w hw
  cases hw

theorem undeferred_arm (key pop : ℕ) (leaf : WarmLeaf) : Undeferred (arm key leaf pop) := by
  intro w hw
  cases hw
  rfl

theorem Undeferred.record {path : Option InsertPath} (h : Undeferred path) (d : ℕ) :
    Undeferred (InsertPath.record d path) := by
  intro w hw
  obtain ⟨p, hp, rfl⟩ := Option.map_eq_some_iff.mp hw
  exact h p hp

theorem undeferred_ite {c : Prop} [Decidable c] {p q : Option InsertPath} (hp : Undeferred p)
    (hq : Undeferred q) :
    Undeferred (if c then p else q) := by
  split_ifs
  · exact hp
  · exact hq

end InsertPath

namespace Edge

open InsertPath

variable {V : Type} [Inhabited V] {fl : Flavour} {keep : Bool}

omit [Inhabited V] in
theorem insertAll_undeferred {insert : Edge V → ℕ → V → Except Fault (Inserted V)}
    (hi : ∀ e k v r, insert e k v = .ok r → Undeferred r.path) {l : List (ℕ × V)} {e e' : Edge V}
    {p p' : Option InsertPath} (hp : Undeferred p) (h : insertAll insert e p l = .ok (e', p')) :
    Undeferred p' := by
  induction l generalizing e p with
  | nil =>
    cases h
    exact hp
  | cons x rest ih =>
    obtain ⟨k, v⟩ := x
    rw [insertAll] at h
    cases hr : insert e k v with
    | error f => simp [hr] at h
    | ok r =>
      simp only [hr] at h
      exact ih (hi _ _ _ _ hr) h

omit [Inhabited V] in
theorem leafOverflow_undeferred {insert : Edge V → ℕ → V → Except Fault (Inserted V)}
    (hi : ∀ e k v r, insert e k v = .ok r → Undeferred r.path) {kb aux key level : ℕ} {cols : Columns V}
    {e : Edge V} {p : Option InsertPath}
    (h : leafOverflow fl insert kb aux cols key level = .ok (e, p)) : Undeferred p := by
  have harm : Undeferred (if level = 1 then
      arm key .bitmap (absorbDecode aux kb level cols.entries).length else none) :=
    undeferred_ite (undeferred_arm _ _ _) undeferred_none
  unfold leafOverflow at h
  simp only at h
  generalize (if level = 1 then
    arm key .bitmap (absorbDecode aux kb level cols.entries).length else none) = armed at h harm
  split at h
  · cases h
    exact undeferred_none
  split at h
  · cases fl with
    | set =>
      cases h
      exact harm
    | map =>
      simp only at h
      split at h
      · cases h
        exact undeferred_none
      · cases h
  split at h
  · cases fl with
    | set =>
      cases h
      exact harm
    | map =>
      simp only at h
      split at h
      · cases h
        exact harm
      · cases h
  · split at h
    · next hall =>
      cases h
      exact insertAll_undeferred hi undeferred_none hall
    · next hall =>
      cases h
      exact insertAll_undeferred hi undeferred_none hall
    · cases h

/-- The descent arms its path with nothing deferred. -/
theorem insertFlat_undeferred {fuel key level : ℕ} {e : Edge V} {val : V} {r : Inserted V}
    (h : insertFlat fl keep fuel e key val level = .ok r) : Undeferred r.path := by
  induction fuel generalizing e key val level r with
  | zero => cases h
  | succ fuel ih =>
    cases e with
    | null =>
      rw [insertFlat] at h
      split at h
      · exact ih h
      · cases h
        exact undeferred_none
    | branch aux node =>
      rw [insertFlat] at h
      simp only at h
      split at h
      · exact ih h
      · split at h
        · next hr =>
          cases h
          exact (ih hr).record _
        · cases h
    | leafB1 aux node =>
      rw [insertFlat] at h
      split at h
      · exact ih h
      · simp only at h
        split at h
        · cases h
          exact undeferred_none
        · split at h
          · cases h
            exact undeferred_none
          · cases h
            exact undeferred_ite (undeferred_arm _ _ _) undeferred_none
    | leaf kb aux cols =>
      rw [insertFlat] at h
      simp only at h
      split at h
      · exact ih h
      · split at h
        · cases h
          exact undeferred_none
        · split at h
          · cases h
            exact undeferred_ite (undeferred_arm _ _ _) undeferred_none
          · split at h
            · next hov =>
              split at h
              · cases h
                exact leafOverflow_undeferred (fun _ _ _ _ hr => ih hr) hov
              · cases h
            · cases h
    | fullExpanse aux =>
      cases fl with
      | set =>
        cases h
        exact undeferred_none
      | map => cases h
    | immed kb cols =>
      rw [insertFlat] at h
      split at h
      · cases h
        exact undeferred_none
      · split at h
        · cases h
          exact undeferred_none
        · cases h
          exact undeferred_none

end Edge

namespace Store

open InsertPath

variable {V : Type} [Inhabited V]

def forget (s : Store V) : Store V := { s with path := none }

/-- `insert_pathless_dispatch`. -/
def insertPathless (s : Store V) (key : ℕ) (val : V) : Except Fault (Option V × Store V) :=
  match insertInner .map false s.forget key val with
  | .ok o => .ok (o.old, o.store.forget)
  | .error f => .error f

/-- `ins_slot_pathless_dispatch`. -/
def insSlotPathless (s : Store V) (key : ℕ) : Except Fault (Addr × Store V) :=
  match insSlot s.forget key with
  | .ok o => .ok (o.addr, o.store.forget)
  | .error f => .error f

/-- `remove_pathless_dispatch`. -/
def removePathless (s : Store V) (key : ℕ) : Except Fault (Option V × Store V) :=
  match removeInner .map s.forget key with
  | .ok (old, s') => .ok (old, s'.forget)
  | .error f => .error f

def nextAtOrAfter (s : Store V) (key : ℕ) : Option (ℕ × V) :=
  match s.root with
  | .empty => none
  | .leaf cols => firstFrom cols.entries key
  | .tree top => Edge.next FUEL top key 8

def prevAtOrBefore (s : Store V) (key : ℕ) : Option (ℕ × V) :=
  match s.root with
  | .empty => none
  | .leaf cols => lastUpTo cols.entries key
  | .tree top => Edge.prev FUEL top key 8

/-- `iter`, run to its end. -/
def iter (s : Store V) : List (ℕ × V) :=
  match collectIter (Iter.next .map) s (s.iterFwdRaw .map) with
  | .ok l => l
  | .error _ => []

def rootIsTree (s : Store V) : Bool :=
  match s.root with
  | .tree _ => true
  | _ => false

/-- `reset_raw_cursor`: a raw walk from `start`, and its first entry. -/
def resetRawCursor (s : Store V) (start : ℕ) : Except Fault (RawCursor V) :=
  (s.rangeFwdRaw .map start).bind fun raw => RawCursor.new .map raw s.cursorTop

/-- A request rounded to the alignment of raw allocations. -/
def raw (bytes : ℕ) : ℕ := (bytes + 15) / 16 * 16

/-- What the nodes below an edge of a map hold from the allocator, as `mem_used` decomposes. -/
def nodeBytes : ℕ → Edge V → ℕ
  | _, .null => 0
  | _, .immed _ cols => if 2 ≤ cols.size then raw (8 * capClass cols.size) else 0
  | _, .leaf kb _ cols => raw (8 * capClass cols.size + kb * capClass cols.size)
  | _, .leafB1 _ node =>
    128 + (node.subs.map fun sub => if sub = [] then 0 else raw (8 * capClass sub.length)).sum
  | _, .fullExpanse _ => 0
  | L, .branch _ node =>
    (match node with
      | .linear .l3 _ _ => 64
      | .linear .l7 _ _ => 128
      | .bitmap _ kids =>
        128 + (kids.subs.map fun sub => if sub = [] then 0 else raw (16 * capClass sub.length)).sum
      | .uncompressed _ => 4160) +
    if _h : 1 ≤ node.level L ∧ node.level L ≤ L then
      (node.slots.map fun s => nodeBytes (node.level L - 1) s.2).sum
    else 0
termination_by L => L
decreasing_by omega

def bytes (s : Store V) : ℕ :=
  match s.root with
  | .empty => 0
  | .leaf cols => raw (16 * capClass cols.size)
  | .tree top => nodeBytes 8 top

variable {fl : Flavour} {lo : ℕ → ℕ → ℕ} {keep : Bool} {key n : ℕ} {val : V} {s : Store V}
  {top : Edge V} {path : Option InsertPath} {o : Outcome V}

omit [Inhabited V] in
theorem forget_of_cold (h : s.path = none) : s.forget = s := by
  obtain ⟨root, n, path⟩ := s
  cases h
  rfl

theorem TreeInv.settled_of_undeferred (h : TreeInv fl lo top n path) (hf : Undeferred path) :
    settled path top = top := by
  cases path with
  | none => rfl
  | some w =>
    obtain ⟨u, t, hr, hpop⟩ := h.leads w rfl
    rw [settled, hf w rfl, flushRoute_zero h.readable hr (ne_null_of_warmPop hpop)]

theorem Inv.forget (h : Inv fl lo s) (hf : Undeferred s.path) : Inv fl lo s.forget := by
  obtain ⟨root, n, path⟩ := s
  cases root with
  | empty => rfl
  | leaf cols => exact ⟨h.packed, h.one_le, h.le_cap, rfl⟩
  | tree top =>
    have hc := TreeInv.clear h
    rw [TreeInv.settled_of_undeferred h hf] at hc
    exact hc

theorem coldTree_undeferred (h : coldTree fl keep s key val = .ok o) : Undeferred o.store.path := by
  unfold coldTree at h
  split at h
  · split at h
    · next hr =>
      cases h
      exact insertFlat_undeferred hr
    · cases h
  · cases h

omit [Inhabited V] in
theorem warmTree_cold (h : s.path = none) : warmTree fl keep s top key val = none := by
  rw [warmTree, h]

/-- An insert without a path arms one with nothing deferred. -/
theorem insertInner_undeferred (hp : s.path = none) (h : insertInner fl keep s key val = .ok o) :
    Undeferred o.store.path := by
  have hcold : ∀ root, Undeferred (⟨root, s.treePop, s.path⟩ : Store V).path := by
    intro root
    rw [hp]
    exact undeferred_none
  unfold insertInner at h
  split at h
  · cases h
    exact hcold _
  · split at h
    · cases h
      exact hcold _
    · split_ifs at h
      · cases h
        exact hcold _
      · split at h
        · next hprom =>
          cases h
          unfold promoteLeaf at hprom
          split at hprom
          · exact insertFlat_undeferred hprom
          · cases hprom
        · cases h
  · rw [warmTree_cold hp] at h
    exact coldTree_undeferred h

theorem insSlot_undeferred (hp : s.path = none) (h : insSlot s key = .ok o) : Undeferred o.store.path := by
  unfold insSlot at h
  split at h
  · split at h
    · exact insertInner_undeferred hp h
    · split_ifs at h
      · exact insertInner_undeferred hp h
      · split at h
        · next hi =>
          split at h
          · cases h
            exact (insertInner_undeferred hp hi :)
          · cases h
        · cases h
  · exact insertInner_undeferred hp h

/-- A core without a path, under the invariant of maps. -/
structure Pathless (s : Store V) : Prop where
  inv : Inv .map (fun _ _ => 0) s
  cold : s.path = none

omit [Inhabited V] in
theorem not_stale_of_cold (h : s.path = none) : ¬ Stale s key := by
  rintro ⟨top, w, u, t, -, hw, -⟩
  rw [h] at hw
  cases hw

theorem Pathless.of_inserts (h : Inserts .map (fun _ _ => 0) keep s key val o)
    (hf : Undeferred o.store.path) : Pathless o.store.forget :=
  ⟨h.inv.forget hf, rfl⟩

theorem insertPathless_of_ok {old : Option V} {s' : Store V} (h : Pathless s) (hk : key < 256 ^ 8)
    (hi : insertPathless s key val = .ok (old, s')) :
    Pathless s' ∧ Updated key val s.items s'.items ∧ ∀ v, old = some v ↔ (key, v) ∈ s.items := by
  rw [insertPathless, forget_of_cold h.cold] at hi
  cases ho : insertInner .map false s key val with
  | error f => simp [ho] at hi
  | ok o =>
    simp only [ho, Except.ok.injEq, Prod.mk.injEq] at hi
    obtain ⟨rfl, rfl⟩ := hi
    obtain ⟨k, hins, hkey⟩ := insertInner_of_ok h.inv hk not_splitsAt_zero admits_zero
      (fun hc => by cases hc) ho
    cases hkey (not_stale_of_cold h.cold)
    refine ⟨.of_inserts hins (insertInner_undeferred h.cold ho), ?_, hins.old⟩
    exact hins.content

theorem entryAt_inj (h : Inv fl lo s) {a a' : Addr} {v v' : V} (ha : s.entryAt a = some (key, v))
    (ha' : s.entryAt a' = some (key, v')) : a = a' := by
  obtain ⟨root, n, path⟩ := s
  cases root with
  | empty => cases ha
  | leaf cols =>
    cases a with
    | tree slot => cases ha
    | rootLeaf i =>
      cases a' with
      | tree slot => cases ha'
      | rootLeaf j =>
        have hs : KeySorted cols.entries := (LeafInv.packed h).keySorted
        have hi : (cols.entries.map Prod.fst)[i]? = some key := by
          rw [List.getElem?_map, show cols.entries[i]? = some (key, v) from ha]
          rfl
        have hj : (cols.entries.map Prod.fst)[j]? = some key := by
          rw [List.getElem?_map, show cols.entries[j]? = some (key, v') from ha']
          rfl
        have hlt := (List.getElem?_eq_some_iff.mp hi).1
        rw [(List.getElem?_inj hlt hs.nodup_keys).mp (hi.trans hj.symm)]
  | tree top =>
    cases a with
    | rootLeaf i => cases ha
    | tree slot =>
      cases a' with
      | rootLeaf i => cases ha'
      | tree slot' =>
        obtain ⟨hr, hp⟩ := slotEntry_inj (TreeInv.readable h) ha ha'
        rw [show slot = slot' by cases slot; cases slot'; cases hr; cases hp; rfl]

theorem insSlotPathless_of_ok {a : Addr} {s' : Store V} (h : Pathless s) (hk : key < 256 ^ 8)
    (hi : insSlotPathless s key = .ok (a, s')) :
    ∃ old : Option V, Pathless s' ∧ Updated key (old.getD default) s.items s'.items ∧
      (∀ v, old = some v ↔ (key, v) ∈ s.items) ∧ s'.entryAt a = some (key, old.getD default) := by
  rw [insSlotPathless, forget_of_cold h.cold] at hi
  cases ho : insSlot s key with
  | error f => simp [ho] at hi
  | ok o =>
    simp only [ho, Except.ok.injEq, Prod.mk.injEq] at hi
    obtain ⟨rfl, rfl⟩ := hi
    obtain ⟨k, hins, hkey⟩ := insSlot_of_ok h.inv hk not_splitsAt_zero admits_zero ho
    cases hkey (not_stale_of_cold h.cold)
    exact ⟨o.old, .of_inserts hins (insSlot_undeferred h.cold ho), hins.content, hins.old,
      hins.addr rfl⟩

theorem removePathless_spec (h : Pathless s) (hk : key < 256 ^ 8) :
    ∃ old s', removePathless s key = .ok (old, s') ∧ Pathless s' ∧ Erased key s.items s'.items ∧
      ∀ v, old = some v ↔ (key, v) ∈ s.items := by
  obtain ⟨out, s', hr, hrem⟩ := removeInner_spec h.inv hk admitsNarrow_zero
  refine ⟨out, s', ?_, ⟨hrem.inv, hrem.cold⟩, hrem.content, hrem.old⟩
  rw [removePathless, forget_of_cold h.cold, hr]
  simp only [forget_of_cold hrem.cold]

theorem Pathless.writeAt (h : Pathless s) {a : Addr} {v : V} (ha : s.entryAt a = some (key, v))
    (w : V) : Pathless (s.writeAt a w) ∧ Updated key w s.items (s.writeAt a w).items := by
  obtain ⟨hinv, hup, hpath, -⟩ := writeAt_spec h.inv ha w
  exact ⟨⟨hinv, hpath.trans h.cold⟩, hup⟩

/-- Without a path the tree itself is well formed. -/
theorem Pathless.shape (h : Pathless s) (ht : s.root = .tree top) : Shape .map (fun _ _ => 0) 8 top := by
  obtain ⟨root, n, path⟩ := s
  obtain ⟨hinv, hcold⟩ := h
  cases ht
  cases hcold
  exact (TreeInv.wf hinv).1

theorem nextAtOrAfter_eq (h : Pathless s) (hk : key < 256 ^ 8) :
    s.nextAtOrAfter key = s.items.find? fun e => key ≤ e.1 := by
  unfold nextAtOrAfter items
  cases hr : s.root with
  | empty => rfl
  | leaf cols => exact firstFrom_eq_find? _ _
  | tree top => exact next_eq (h.shape hr).readable hk (by decide) (by decide)

theorem prevAtOrBefore_eq (h : Pathless s) (hk : key < 256 ^ 8) :
    s.prevAtOrBefore key = s.items.reverse.find? fun e => e.1 ≤ key := by
  have hs := h.inv.sorted
  unfold prevAtOrBefore
  unfold items at hs ⊢
  cases hr : s.root with
  | empty => rfl
  | leaf cols =>
    rw [hr] at hs
    exact lastUpTo_eq hs
  | tree top => exact prev_eq (h.shape hr).readable hk (by decide) (by decide)

theorem iter_eq (h : Pathless s) : s.iter = s.items := by
  rw [iter, collectIter_ok (fun hc => by cases hc) h.inv (lastWordFull_map h.inv)]

theorem resetRawCursor_spec (h : Pathless s) (hk : key < 256 ^ 8) :
    ∃ c, s.resetRawCursor key = .ok c ∧
      RawCursor.At .map s.items (s.items.filter (key ≤ ·.1)) c := by
  have hV : Flavour.map = .set → ∀ v : V, v = default := fun hc => by cases hc
  have hkey : (UInt64.ofNat key).toNat = key := by
    rw [UInt64.toNat_ofNat']
    exact Nat.mod_eq_of_lt (lt_of_lt_of_eq hk (by norm_num))
  obtain ⟨raw, hc, hw, hleft, hroot⟩ := cursorAt_seeded hV h.inv (some (UInt64.ofNat key))
  rw [rest_refAt h.inv, Option.map_some, Option.getD_some, hkey] at hleft
  rw [lastWordFull_map h.inv] at hw hroot
  obtain ⟨c, hnew, hat⟩ := RawCursor.new_spec hV hw hroot
  rw [cursorAt, hkey, hnew] at hc
  rw [hleft] at hat
  exact ⟨c, hc, hat⟩

theorem bytes_of_empty (h : Pathless s) (he : s.items = []) : s.bytes = 0 := by
  obtain ⟨root, n, path⟩ := s
  cases root with
  | empty => rfl
  | leaf cols =>
    have hinv : LeafInv cols path := h.inv
    have hlen := hinv.one_le
    rw [← Columns.length_entries, show cols.entries = [] from he] at hlen
    simp at hlen
  | tree top =>
    have hinv : TreeInv .map (fun _ _ => 0) top n path := h.inv
    have hlen := hinv.large
    rw [show entries 8 top = [] from he] at hlen
    simp [ROOT_LEAF_CAP] at hlen

end Store

end Expanse
