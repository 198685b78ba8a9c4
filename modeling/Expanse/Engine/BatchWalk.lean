import Mathlib.Data.Nat.Bitwise
import Expanse.Engine.BatchSpec

/-!
# A step of a lane agrees with the scalar walks

An answer is read on the entries below the edge a descent has reached, so a step that
keeps it is enough: both descents pass a key to the same children and test the same
terminal forms, and the entries below a child answer for those below its parent.
-/

namespace Expanse.Edge

open Radix SortedAssoc

variable {V : Type} [Inhabited V] {fl : Flavour} {L fuel key : ℕ} {e : Edge V} {r r' : Option V}

/-- What a descent that has reached `e` is to answer. -/
def Answers (e : Edge V) (key L : ℕ) (r : Option V) : Prop :=
  ∀ v, r = some v ↔ (low key L, v) ∈ entries L e

theorem Answers.unique (h : Answers e key L r) (h' : Answers e key L r') : r = r' :=
  Option.ext fun v => (h v).trans (h' v).symm

variable (fl) in
/-- The readers' part of the invariant, at a level that still covers a byte. -/
def Reads (e : Edge V) (L : ℕ) : Prop := 1 ≤ L ∧ Readable fl (fun _ => True) L e

theorem Reads.walk (key : ℕ) (h : Reads fl e L) : Answers e key L (e.walk L key L) :=
  fun _ => walk_spec h.2 le_rfl h.1

omit [Inhabited V] in
theorem immedSlot_eq {kb : ℕ} {cols : Columns V} (hp : cols.Packed kb) :
    immedSlot kb cols.keys key = indexOf? cols.keys (low key kb) := by
  unfold immedSlot
  split
  · rename_i k hk
    have hlt : k < 256 ^ kb := hp.bound k (by rw [hk]; exact List.mem_singleton_self k)
    have hxor : low (key ^^^ k) kb = low key kb ^^^ k := by
      have h256 : (256 : ℕ) ^ kb = 2 ^ (8 * kb) := by rw [Nat.pow_mul]
      rw [low, low, h256, Nat.xor_mod_two_pow]
      rw [h256] at hlt
      rw [Nat.mod_eq_of_lt hlt]
    have hiff : low (key ^^^ k) kb = 0 ↔ k = low key kb := by
      rw [hxor, Nat.xor_eq_zero_iff, eq_comm]
    rw [hk, indexOf?, List.findIdx?_singleton]
    simp only [hiff, beq_iff_eq]
  · rfl

omit [Inhabited V] in
theorem leafSlot_eq {kb aux : ℕ} {cols : Columns V} (hpop : Aux.pop0 aux kb + 1 = cols.size) :
    leafSlot kb aux cols.keys key = indexOf? cols.keys (low key kb) := by
  rw [leafSlot, hpop, Columns.size, List.take_length]

theorem answers_null : Answers (null : Edge V) key L none := by
  intro v
  simp [entries]

theorem answers_immed {kb : ℕ} {cols : Columns V} (h : Reads fl (immed kb cols) L) :
    Answers (immed kb cols) key L ((immedSlot kb cols.keys key).bind (cols.vals[·]?)) := by
  have hread := h.2
  rw [Readable] at hread
  intro v
  rw [immedSlot_eq hread.2.2.1, mem_entries_immed h.2]
  exact hread.2.2.1.find_iff

theorem answers_leaf {kb aux : ℕ} {cols : Columns V} (h : Reads fl (leaf kb aux cols) L) :
    Answers (leaf kb aux cols) key L
      (if kb < L && !Aux.decodeMatches aux key kb L then none
        else (leafSlot kb aux cols.keys key).bind (cols.vals[·]?)) := by
  have hread := h.2
  rw [Readable] at hread
  have hwalk := h.walk key
  obtain ⟨l, rfl⟩ := Nat.exists_eq_add_of_le' h.1
  rw [walk] at hwalk
  rw [leafSlot_eq hread.2.2.2.2]
  exact hwalk

theorem answers_leafB1 {aux : ℕ} {node : Ranked V} (h : Reads fl (leafB1 aux node) L) :
    Answers (leafB1 aux node) key L
      (if 1 < L && !Aux.decodeMatches aux key 1 L then none else node.get (key % 256)) := by
  have hwalk := h.walk key
  obtain ⟨l, rfl⟩ := Nat.exists_eq_add_of_le' h.1
  have hdigit : key % 256 = digit key 1 := by simp [digit]
  rw [walk] at hwalk
  rw [hdigit]
  exact hwalk

theorem answers_full {aux : ℕ} : Answers (fullExpanse aux : Edge V) key L (some default) := by
  intro v
  rw [mem_entries_full]
  simp [low_lt, eq_comm]

section Set

variable {e : Edge Unit} {kb aux : ℕ} {cols : Columns Unit} {node : Ranked Unit}

theorem isSome_find (cols : Columns Unit) (k : ℕ) :
    ((indexOf? cols.keys k).bind (cols.vals[·]?)).isSome = (indexOf? cols.keys k).isSome := by
  cases hi : indexOf? cols.keys k with
  | none => rfl
  | some i =>
    have hlt : i < cols.vals.length := by
      rw [← cols.same]
      exact (List.findIdx?_eq_some_iff_getElem.mp hi).1
    simp [hlt]

theorem isSome_immed (h : Reads .set (immed kb cols) L) :
    ((immedSlot kb cols.keys key).bind (cols.vals[·]?)).isSome =
      (immedSlot kb cols.keys key).isSome := by
  have hread := h.2
  rw [Readable] at hread
  rw [immedSlot_eq hread.2.2.1, isSome_find]

theorem isSome_leaf (h : Reads .set (leaf kb aux cols) L) {g : Bool} :
    (if g then none else (leafSlot kb aux cols.keys key).bind (cols.vals[·]?)).isSome =
      if g then false else (leafSlot kb aux cols.keys key).isSome := by
  have hread := h.2
  rw [Readable] at hread
  rw [leafSlot_eq hread.2.2.2.2, ← isSome_find]
  split <;> rfl

theorem isSome_leafB1 (h : Reads .set (leafB1 aux node) L) {g : Bool} :
    (if g then none else node.get (key % 256)).isSome =
      if g then false else node.bits.testBit (key % 256) := by
  have hread := h.2
  rw [Readable] at hread
  have hget : (node.get (key % 256)).isSome = node.bits.testBit (key % 256) :=
    Bool.eq_iff_iff.mpr (Ranked.get_isSome hread.2.1)
  rw [← hget]
  split <;> rfl

end Set

theorem answers_child {aux : ℕ} {node : Branch (Edge V)} (key : ℕ) (h : Reads fl (branch aux node) L)
    (hg : (decide (node.level L < L) && !Aux.decodeMatches aux key (node.level L) L) = false)
    {c : Edge V} (hc : node.find (digit key (node.level L)) = some c) :
    Reads fl c (node.level L - 1) ∧ node.level L - 1 < L ∧
      ∀ r, Answers (branch aux node) key L r ↔ Answers c key (node.level L - 1) r := by
  have hb := readable_branch.mp h.2
  have h2 := hb.two_le
  have hl := hb.le
  have hchild : node.child (digit key (node.level L)) = c := by rw [Branch.child, hc]; rfl
  refine ⟨⟨by omega, hb.kids _ c hc⟩, by omega, fun r => forall_congr' fun v => ?_⟩
  rw [mem_low_branch hb, hchild, (Aux.decode_guard hl).mp hg]
  simp

theorem answers_uncompressed {aux : ℕ} {edges : List (Edge V)} (key : ℕ)
    (h : Reads fl (branch aux (.uncompressed edges)) L) :
    ∃ c, edges[digit key L]? = some c ∧ Reads fl c (L - 1) ∧
      ∀ r, Answers (branch aux (.uncompressed edges)) key L r ↔ Answers c key (L - 1) r := by
  have hb := readable_branch.mp h.2
  have hlen : edges.length = 256 := hb.ok
  have hlt : digit key L < edges.length := by
    rw [hlen]
    exact digit_lt _ _
  obtain ⟨hread, -, hans⟩ := answers_child key h (by simp [Branch.level])
    (List.getElem?_eq_getElem hlt)
  exact ⟨_, List.getElem?_eq_getElem hlt, hread, hans⟩

/-- Where `passNode` ends the search, nothing is stored under the key. -/
theorem passNode_cases {aux : ℕ} {node : Branch (Edge V)} (key : ℕ) (h : Reads fl (branch aux node) L) :
    (passNode aux node (node.level L) key L = none ∧ Answers (branch aux node) key L none) ∨
      ∃ c l, passNode aux node (node.level L) key L = some (c, l) ∧ Reads fl c l ∧ l < L ∧
        ∀ r, Answers (branch aux node) key L r ↔ Answers c key l r := by
  have hb := readable_branch.mp h.2
  unfold passNode
  cases hg : (decide (node.level L < L) && !Aux.decodeMatches aux key (node.level L) L) with
  | true =>
    left
    refine ⟨rfl, fun v => ?_⟩
    have hne : slice key (node.level L) L ≠ slice aux (node.level L) L := by
      rw [Ne, ← Aux.decode_guard hb.le, hg]
      simp
    simp [mem_low_branch hb, hne]
  | false =>
    cases hc : node.find (digit key (node.level L)) with
    | none =>
      left
      refine ⟨rfl, fun v => ?_⟩
      have hchild : node.child (digit key (node.level L)) = null := by rw [Branch.child, hc]; rfl
      rw [mem_low_branch hb, hchild]
      simp [entries]
    | some c =>
      right
      exact ⟨c, _, rfl, answers_child key h hg hc⟩

theorem chainUncompressed_spec {edges : List (Edge V)} {aux : ℕ} (key : ℕ)
    (h : Reads fl (branch aux (.uncompressed edges)) L) :
    ∃ c l, chainUncompressed key L edges = .ok (c, l) ∧ Reads fl c l ∧ l < L ∧
      ∀ r, Answers (branch aux (.uncompressed edges)) key L r ↔ Answers c key l r := by
  induction L generalizing edges aux with
  | zero => exact absurd h.1 (by decide)
  | succ L ih =>
    obtain ⟨c, hc, hread, hans⟩ := answers_uncompressed key h
    unfold chainUncompressed
    rw [hc]
    split
    · rename_i heq
      cases heq
      obtain ⟨c', l, hchain, hread', hlt, hans'⟩ := ih hread
      exact ⟨c', l, hchain, hread', by omega, fun r => (hans r).trans (hans' r)⟩
    · rename_i heq
      cases heq
      exact ⟨_, _, rfl, hread, Nat.lt_succ_self L, hans⟩
    · rename_i heq
      cases heq

variable {aux : ℕ} {node : Branch (Edge V)}

omit [Inhabited V] in
theorem eq_uncompressed (hs : node.isSparse = false) : ∃ edges, node = .uncompressed edges := by
  cases node with
  | uncompressed edges => exact ⟨edges, rfl⟩
  | linear form hdr edges => cases hs
  | bitmap level kids => cases hs

omit [Inhabited V] in
theorem walkMapImpl_branch (hs : node.isSparse = true) :
    walkMapImpl (fuel + 1) (branch aux node) key L =
      match passNode aux node (node.level L) key L with
      | some (next, l) => walkMapImpl fuel next key l
      | none => .ok none := by
  cases node with
  | uncompressed edges => cases hs
  | linear form hdr edges => rfl
  | bitmap level kids => rfl

theorem walkSetImpl_branch {node : Branch (Edge Unit)} (hs : node.isSparse = true) :
    walkSetImpl (fuel + 1) (branch aux node) key L =
      match passNode aux node (node.level L) key L with
      | some (next, l) => walkSetImpl fuel next key l
      | none => .ok false := by
  cases node with
  | uncompressed edges => cases hs
  | linear form hdr edges => rfl
  | bitmap level kids => rfl

theorem walkMapImpl_spec (key : ℕ) (h : Reads .map e L) (hf : L ≤ fuel) :
    ∃ r, walkMapImpl fuel e key L = .ok r ∧ Answers e key L r := by
  induction fuel generalizing L e with
  | zero => exact absurd (h.1.trans hf) (by decide)
  | succ fuel ih =>
    cases e with
    | null => exact ⟨_, rfl, answers_null⟩
    | immed kb cols => exact ⟨_, rfl, answers_immed h⟩
    | leaf kb aux cols =>
      refine ⟨_, ?_, answers_leaf h⟩
      rw [walkMapImpl]
      split <;> rfl
    | leafB1 aux node =>
      refine ⟨_, ?_, answers_leafB1 h⟩
      rw [walkMapImpl]
      split <;> rfl
    | fullExpanse aux =>
      have hread := h.2
      rw [Readable] at hread
      exact absurd hread.1 (by decide)
    | branch aux node =>
      cases hs : node.isSparse with
      | false =>
        obtain ⟨edges, rfl⟩ := eq_uncompressed hs
        obtain ⟨c, l, hchain, hread, hlt, hans⟩ := chainUncompressed_spec key h
        obtain ⟨r, hr, hr'⟩ := ih hread (by omega)
        rw [walkMapImpl, hchain]
        exact ⟨r, hr, (hans r).mpr hr'⟩
      | true =>
        rw [walkMapImpl_branch hs]
        obtain ⟨hp, hnone⟩ | ⟨c, l, hp, hread, hlt, hans⟩ := passNode_cases key h
        · rw [hp]
          exact ⟨none, rfl, hnone⟩
        · obtain ⟨r, hr, hr'⟩ := ih hread (by omega)
          rw [hp]
          exact ⟨r, hr, (hans r).mpr hr'⟩

theorem walkSetImpl_spec {e : Edge Unit} (key : ℕ) (h : Reads .set e L) (hf : L ≤ fuel) :
    ∃ r, walkSetImpl fuel e key L = .ok r.isSome ∧ Answers e key L r := by
  induction fuel generalizing L e with
  | zero => exact absurd (h.1.trans hf) (by decide)
  | succ fuel ih =>
    cases e with
    | null => exact ⟨_, rfl, answers_null⟩
    | immed kb cols =>
      refine ⟨_, ?_, answers_immed h⟩
      rw [isSome_immed h]
      rfl
    | leaf kb aux cols =>
      refine ⟨_, ?_, answers_leaf h⟩
      rw [walkSetImpl, isSome_leaf h]
      split <;> rfl
    | leafB1 aux node =>
      refine ⟨_, ?_, answers_leafB1 h⟩
      rw [walkSetImpl, isSome_leafB1 h]
      split <;> rfl
    | fullExpanse aux => exact ⟨_, rfl, answers_full⟩
    | branch aux node =>
      cases hs : node.isSparse with
      | false =>
        obtain ⟨edges, rfl⟩ := eq_uncompressed hs
        obtain ⟨c, l, hchain, hread, hlt, hans⟩ := chainUncompressed_spec key h
        obtain ⟨r, hr, hr'⟩ := ih hread (by omega)
        rw [walkSetImpl, hchain]
        exact ⟨r, hr, (hans r).mpr hr'⟩
      | true =>
        rw [walkSetImpl_branch hs]
        obtain ⟨hp, hnone⟩ | ⟨c, l, hp, hread, hlt, hans⟩ := passNode_cases key h
        · rw [hp]
          exact ⟨none, rfl, hnone⟩
        · obtain ⟨r, hr, hr'⟩ := ih hread (by omega)
          rw [hp]
          exact ⟨r, hr, (hans r).mpr hr'⟩

omit [Inhabited V] in
theorem stepMap_branch (hs : node.isSparse = true) :
    stepMap ⟨branch aux node, key, L⟩ =
      match passNode aux node (node.level L) key L with
      | some (next, l) => .ok (none, ⟨next, key, l⟩)
      | none => .ok (some none, ⟨branch aux node, key, L⟩) := by
  cases node with
  | uncompressed edges => cases hs
  | linear form hdr edges => rfl
  | bitmap level kids => rfl

theorem stepSet_branch {node : Branch (Edge Unit)} (hs : node.isSparse = true) :
    stepSet ⟨branch aux node, key, L⟩ =
      match passNode aux node (node.level L) key L with
      | some (next, l) => .ok (none, ⟨next, key, l⟩)
      | none => .ok (some false, ⟨branch aux node, key, L⟩) := by
  cases node with
  | uncompressed edges => cases hs
  | linear form hdr edges => rfl
  | bitmap level kids => rfl

/-- The lane of a map is on its way to `r`. -/
def ServesMap (lane : Lane V) (r : Option V) : Prop :=
  Reads .map lane.edge lane.level ∧ Answers lane.edge lane.key lane.level r

/-- The lane of a set is on its way to `found`. -/
def ServesSet (lane : Lane Unit) (found : Bool) : Prop :=
  Reads .set lane.edge lane.level ∧
    ∃ r, Answers lane.edge lane.key lane.level r ∧ r.isSome = found

theorem stepMap_steps : Batch.Steps (stepMap (V := V)) ServesMap := by
  rintro ⟨e, key, L⟩ r ⟨h, hr⟩
  dsimp only at h hr
  cases e with
  | null =>
    left
    rw [hr.unique answers_null]
    rfl
  | immed kb cols =>
    left
    rw [hr.unique (answers_immed h)]
    rfl
  | leaf kb aux cols =>
    left
    rw [hr.unique (answers_leaf h)]
    simp only [stepMap]
    split <;> rfl
  | leafB1 aux node =>
    left
    rw [hr.unique (answers_leafB1 h)]
    simp only [stepMap]
    split <;> rfl
  | fullExpanse aux =>
    have hread := h.2
    rw [Readable] at hread
    exact absurd hread.1 (by decide)
  | branch aux node =>
    cases hs : node.isSparse with
    | false =>
      obtain ⟨edges, rfl⟩ := eq_uncompressed hs
      obtain ⟨c, hc, hread, hans⟩ := answers_uncompressed key h
      right
      refine ⟨⟨c, key, L - 1⟩, ?_, Nat.sub_lt h.1 Nat.one_pos, hread, (hans r).mp hr⟩
      simp only [stepMap, hc]
      rfl
    | true =>
      rw [stepMap_branch hs]
      obtain ⟨hp, hnone⟩ | ⟨c, l, hp, hread, hlt, hans⟩ := passNode_cases key h
      · left
        rw [hp, hr.unique hnone]
      · right
        rw [hp]
        exact ⟨_, rfl, hlt, hread, (hans r).mp hr⟩

theorem stepSet_steps : Batch.Steps stepSet ServesSet := by
  rintro ⟨e, key, L⟩ found ⟨h, r, hr, rfl⟩
  dsimp only at h hr
  cases e with
  | null =>
    left
    rw [hr.unique answers_null]
    rfl
  | immed kb cols =>
    left
    rw [hr.unique (answers_immed h), isSome_immed h]
    rfl
  | leaf kb aux cols =>
    left
    rw [hr.unique (answers_leaf h), isSome_leaf h]
    simp only [stepSet]
    split <;> rfl
  | leafB1 aux node =>
    left
    rw [hr.unique (answers_leafB1 h), isSome_leafB1 h]
    simp only [stepSet]
    split <;> rfl
  | fullExpanse aux =>
    left
    rw [hr.unique answers_full]
    rfl
  | branch aux node =>
    cases hs : node.isSparse with
    | false =>
      obtain ⟨edges, rfl⟩ := eq_uncompressed hs
      obtain ⟨c, hc, hread, hans⟩ := answers_uncompressed key h
      right
      refine ⟨⟨c, key, L - 1⟩, ?_, Nat.sub_lt h.1 Nat.one_pos, hread, r, (hans r).mp hr, rfl⟩
      simp only [stepSet, hc]
      rfl
    | true =>
      rw [stepSet_branch hs]
      obtain ⟨hp, hnone⟩ | ⟨c, l, hp, hread, hlt, hans⟩ := passNode_cases key h
      · left
        rw [hp, hr.unique hnone]
        rfl
      · right
        rw [hp]
        exact ⟨_, rfl, hlt, hread, r, (hans r).mp hr, rfl⟩

theorem mapM_ok {α β : Type} {f : α → Except Fault β} {g : α → β} {l : List α}
    (h : ∀ a ∈ l, f a = .ok (g a)) : l.mapM f = .ok (l.map g) := by
  induction l with
  | nil => rfl
  | cons a l ih =>
    have ha := h a List.mem_cons_self
    have hl := ih fun x hx => h x (List.mem_cons_of_mem a hx)
    rw [List.mapM_cons, ha, hl]
    rfl

variable {w turns : ℕ} {keys : List ℕ}

theorem walkMapBatch_spec (h : Reads .map e L) (hf : L ≤ fuel) (hw : 0 < w) {out : List (Option V)}
    (hlen : out.length = keys.length) (hturns : keys.length * (L + 1) < turns) :
    ∃ results written, walkMapBatch turns w e keys out L = .ok (results, written) ∧
      written.Perm (List.range keys.length) ∧
      keys.mapM (walkMapImpl fuel e · L) = .ok results := by
  have hscalar (key : ℕ) : walkMapImpl fuel e key L = .ok (walk L e key L) := by
    obtain ⟨r, hr, hr'⟩ := walkMapImpl_spec key h hf
    rw [hr, hr'.unique (h.walk key)]
  have hroot : ∀ key ∈ keys, ServesMap ⟨e, key, L⟩ (walk L e key L) := fun key _ => ⟨h, h.walk key⟩
  obtain ⟨written, hbatch, hperm⟩ := batchDriver_spec stepMap_steps hroot hw hlen hturns
  exact ⟨_, written, hbatch, hperm, mapM_ok fun key _ => hscalar key⟩

theorem walkSetBatch_spec {e : Edge Unit} (h : Reads .set e L) (hf : L ≤ fuel) (hw : 0 < w)
    {out : List Bool} (hlen : out.length = keys.length) (hturns : keys.length * (L + 1) < turns) :
    ∃ results written, walkSetBatch turns w e keys out L = .ok (results, written) ∧
      written.Perm (List.range keys.length) ∧
      keys.mapM (walkSetImpl fuel e · L) = .ok results := by
  have hscalar (key : ℕ) : walkSetImpl fuel e key L = .ok (walk L e key L).isSome := by
    obtain ⟨r, hr, hr'⟩ := walkSetImpl_spec key h hf
    rw [hr, hr'.unique (h.walk key)]
  have hroot : ∀ key ∈ keys, ServesSet ⟨e, key, L⟩ (walk L e key L).isSome :=
    fun key _ => ⟨h, _, h.walk key, rfl⟩
  obtain ⟨written, hbatch, hperm⟩ := batchDriver_spec stepSet_steps hroot hw hlen hturns
  exact ⟨_, written, hbatch, hperm, mapM_ok fun key _ => hscalar key⟩

end Expanse.Edge
