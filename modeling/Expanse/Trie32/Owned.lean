import Mathlib.Algebra.BigOperators.Group.Multiset.Basic
import Mathlib.Data.List.DropRight
import Expanse.Trie32.LeafSpec

/-!
# What an arena holds

`Owned a C` says that the live slots of `a` are exactly the cells `C`, each with a node of
its description; that the byte count is the sum over them; and that the free handles are
the other slots. Cells form a multiset, so that a step on some cells is stated once with
all the others beside them. `Spent a a' c` bounds what a step took from a fixed arena, and
`Room` is what it needs to find there.
-/

namespace Expanse.Trie32

/-- What a slot stores. A leaf is described by its entries: the bytes past them vary. -/
inductive Desc where
  | leaf (vw kb : ℕ) (l : List (ℕ × ℕ))
  | node (n : Node)

namespace Desc

def Fits : Desc → Node → Prop
  | leaf vw kb l, n => ∃ buf, n = .leaf buf ∧ LeafHolds vw kb l buf
  | node m, n => n = m

def bytes : Desc → ℕ
  | leaf vw kb l => leafSize vw kb l.length
  | node n => n.heapBytes

theorem Fits.heapBytes {d : Desc} {n : Node} (h : d.Fits n) : n.heapBytes = d.bytes := by
  cases d with
  | leaf vw kb l =>
    obtain ⟨buf, rfl, hb⟩ := h
    exact hb.size
  | node m =>
    rw [h]
    rfl

end Desc

abbrev Cells : Type := Multiset (ℕ × Desc)

def Cells.bytes (C : Cells) : ℕ := (C.map fun c => c.2.bytes).sum

structure Owned (a : Arena) (C : Cells) : Prop where
  nodup : (C.map Prod.fst).Nodup
  fits : ∀ c ∈ C, ∃ n, a.node c.1 = some n ∧ c.2.Fits n
  live : ∀ h n, a.node h = some n → h ∈ C.map Prod.fst
  bytes : a.bytes = C.bytes
  free_nodup : a.free.Nodup
  free_iff : ∀ h, h ∈ a.free ↔ h < a.slots.length ∧ a.node h = none

/-- Handles for `x` allocations and places for `y` retirements, where the arena limits them. -/
structure Room (a : Arena) (x y : ℕ) : Prop where
  free : a.fixed = true → x ≤ a.free.length
  pending : a.deferred = true → a.pending.length + y ≤ a.pendingCap

/-- From `a` to `a'` at most `x` allocations and at most `y` retirements were made. -/
structure Spent (a a' : Arena) (x y : ℕ) : Prop where
  fixed : a'.fixed = a.fixed
  deferred : a'.deferred = a.deferred
  cap : a'.pendingCap = a.pendingCap
  allocs : a.allocs ≤ a'.allocs ∧ a'.allocs ≤ a.allocs + x
  pending : a.pending.length ≤ a'.pending.length ∧ a'.pending.length ≤ a.pending.length + y
  free : a.free.length ≤ a'.free.length + x

variable {a a' a'' : Arena} {C : Cells} {h x y x' y' n : ℕ} {d d' : Desc} {nd : Node}

theorem Spent.refl (a : Arena) : Spent a a 0 0 := ⟨rfl, rfl, rfl, by omega, by omega, by omega⟩

theorem Spent.trans (h₁ : Spent a a' x y) (h₂ : Spent a' a'' x' y') :
    Spent a a'' (x + x') (y + y') := by
  obtain ⟨f₁, d₁, p₁, a₁, q₁, r₁⟩ := h₁
  obtain ⟨f₂, d₂, p₂, a₂, q₂, r₂⟩ := h₂
  exact ⟨f₂.trans f₁, d₂.trans d₁, p₂.trans p₁, by omega, by omega, by omega⟩

theorem Spent.mono (h₁ : Spent a a' x y) (hx : x ≤ x') (hy : y ≤ y') : Spent a a' x' y' := by
  obtain ⟨f₁, d₁, p₁, a₁, q₁, r₁⟩ := h₁
  exact ⟨f₁, d₁, p₁, by omega, by omega, by omega⟩

theorem Room.mono (hr : Room a x' y') (hx : x ≤ x') (hy : y ≤ y') : Room a x y :=
  ⟨fun hf => le_trans hx (hr.free hf), fun hd => by have := hr.pending hd; omega⟩

theorem Spent.room (hs : Spent a a' x y) (hr : Room a (x + x') (y + y')) : Room a' x' y' := by
  refine ⟨fun hf => ?_, fun hd => ?_⟩
  · have h1 := hr.free (hs.fixed ▸ hf)
    have h2 := hs.free
    omega
  · have h1 := hr.pending (hs.deferred ▸ hd)
    have h2 := hs.pending
    rw [hs.cap]
    omega

theorem room_of_plain (hf : a.fixed = false) (hd : a.deferred = false) (x y : ℕ) : Room a x y where
  free h := absurd h (by rw [hf]; decide)
  pending h := absurd h (by rw [hd]; decide)

/-- An arena outside the concurrent wrapper. -/
structure Plain (a : Arena) : Prop where
  fixed : a.fixed = false
  deferred : a.deferred = false

theorem Plain.room (h : Plain a) (x y : ℕ) : Room a x y := room_of_plain h.fixed h.deferred x y

theorem Spent.plain (hs : Spent a a' x y) (h : Plain a) : Plain a' :=
  ⟨hs.fixed.trans h.fixed, hs.deferred.trans h.deferred⟩

theorem plain_new : Plain Arena.new := ⟨rfl, rfl⟩

theorem Plain.shrinkToFit (h : Plain a) : Plain a.shrinkToFit := by
  have hkeep : a.shrinkToFit.fixed = a.fixed ∧ a.shrinkToFit.deferred = a.deferred := by
    rw [Arena.shrinkToFit]
    split_ifs <;> exact ⟨rfl, rfl⟩
  exact ⟨hkeep.1.trans h.fixed, hkeep.2.trans h.deferred⟩

namespace Owned

theorem not_mem_of_cons (ho : Owned a ((h, d) ::ₘ C)) : h ∉ C.map Prod.fst := by
  have := ho.nodup
  rw [Multiset.map_cons, Multiset.nodup_cons] at this
  exact this.1

theorem find (ho : Owned a ((h, d) ::ₘ C)) : ∃ n, a.node h = some n ∧ d.Fits n :=
  ho.fits _ (Multiset.mem_cons_self _ _)

theorem find_node (ho : Owned a ((h, .node nd) ::ₘ C)) : a.node h = some nd := by
  obtain ⟨n, hn, rfl⟩ := ho.find
  exact hn

end Owned

theorem node_lt (hn : a.node h = some nd) : h < a.slots.length := by
  unfold Arena.node at hn
  by_contra hge
  rw [List.getElem?_eq_none (not_lt.mp hge)] at hn
  cases hn

theorem node_set {slots : List (Option Node)} {x : Option Node} (hlt : h < slots.length) (q : ℕ) :
    ((slots.set h x)[q]?).join = if q = h then x else (slots[q]?).join := by
  rw [List.getElem?_set]
  by_cases hq : h = q
  · subst hq
    simp [hlt]
  · rw [if_neg hq, if_neg (Ne.symm hq)]

theorem cells_bytes_cons (c : ℕ × Desc) (C : Cells) : Cells.bytes (c ::ₘ C) = c.2.bytes + C.bytes := by
  rw [Cells.bytes, Multiset.map_cons, Multiset.sum_cons, Cells.bytes]

/-- A handle of the free list names an empty slot. -/
theorem Owned.fresh_of_free (ho : Owned a C) (hh : h ∈ a.free) : h ∉ C.map Prod.fst := by
  intro hm
  obtain ⟨c, hc, rfl⟩ := Multiset.mem_map.mp hm
  obtain ⟨n, hn, -⟩ := ho.fits c hc
  rw [((ho.free_iff c.1).mp hh).2] at hn
  cases hn

theorem Owned.add (ho : Owned a C) (hnew : h ∉ C.map Prod.fst) (hfit : d.Fits nd)
    (hnode : ∀ q, a'.node q = if q = h then some nd else a.node q)
    (hbytes : a'.bytes = a.bytes + nd.heapBytes) (hfree : a'.free.Nodup)
    (hiff : ∀ q, q ∈ a'.free ↔ q < a'.slots.length ∧ a'.node q = none) : Owned a' ((h, d) ::ₘ C) where
  nodup := by
    rw [Multiset.map_cons, Multiset.nodup_cons]
    exact ⟨hnew, ho.nodup⟩
  fits c hc := by
    rw [hnode]
    rcases Multiset.mem_cons.mp hc with rfl | hc
    · exact ⟨nd, if_pos rfl, hfit⟩
    · have hne : c.1 ≠ h := fun he => hnew (he ▸ Multiset.mem_map_of_mem Prod.fst hc)
      rw [if_neg hne]
      exact ho.fits c hc
  live q m hq := by
    rw [hnode] at hq
    rw [Multiset.map_cons, Multiset.mem_cons]
    by_cases he : q = h
    · exact .inl he
    · rw [if_neg he] at hq
      exact .inr (ho.live q m hq)
  bytes := by rw [hbytes, cells_bytes_cons, hfit.heapBytes, ho.bytes, Nat.add_comm]
  free_nodup := hfree
  free_iff := hiff

theorem alloc_spec (ho : Owned a C) (hr : Room a 1 0) (hfit : d.Fits nd) :
    ∃ h a', a.alloc nd = .ok (h, a') ∧ Owned a' ((h, d) ::ₘ C) ∧ Spent a a' 1 0 := by
  unfold Arena.alloc
  cases hfree : a.free with
  | cons h free =>
    have hmem : h ∈ a.free := by rw [hfree]; exact List.mem_cons_self
    obtain ⟨hlt, -⟩ := (ho.free_iff h).mp hmem
    have hnd := ho.free_nodup
    rw [hfree, List.nodup_cons] at hnd
    simp only [hlt, if_true]
    refine ⟨h, _, rfl, ho.add (ho.fresh_of_free hmem) hfit (node_set hlt) rfl hnd.2 ?_,
      ⟨rfl, rfl, rfl, by simp, by simp, by simp [hfree]⟩⟩
    intro q
    show q ∈ free ↔ q < (a.slots.set h (some nd)).length ∧ ((a.slots.set h (some nd))[q]?).join = none
    rw [node_set hlt, List.length_set]
    have hq := ho.free_iff q
    rw [hfree, List.mem_cons] at hq
    by_cases he : q = h
    · subst he
      simp [hnd.1]
    · rw [if_neg he]
      exact ⟨fun hm => hq.mp (.inr hm), fun hm => (hq.mpr hm).resolve_left he⟩
  | nil =>
    have hfix : a.fixed = false := by
      by_contra hne
      have h1 := hr.free (by simpa using hne)
      rw [hfree, List.length_nil] at h1
      omega
    have hnew : a.slots.length ∉ C.map Prod.fst := by
      intro hm
      obtain ⟨c, hc, he⟩ := Multiset.mem_map.mp hm
      obtain ⟨m, hm, -⟩ := ho.fits c hc
      have := node_lt hm
      omega
    have hnode : ∀ q, ((a.slots ++ [some nd])[q]?).join =
        if q = a.slots.length then some nd else a.node q := by
      intro q
      by_cases he : q = a.slots.length
      · subst he
        simp
      · rw [if_neg he]
        by_cases hlt : q < a.slots.length
        · rw [List.getElem?_append_left hlt]
          rfl
        · unfold Arena.node
          rw [List.getElem?_eq_none (by rw [List.length_append, List.length_singleton]; omega),
            List.getElem?_eq_none (by omega)]
    rw [if_neg (by rw [hfix]; decide)]
    refine ⟨a.slots.length, _, rfl, ho.add hnew hfit hnode rfl List.nodup_nil ?_,
      ⟨rfl, rfl, rfl, by simp, by simp, by simp [hfree]⟩⟩
    intro q
    show q ∈ [] ↔ q < (a.slots ++ [some nd]).length ∧ ((a.slots ++ [some nd])[q]?).join = none
    rw [hnode, List.length_append, List.length_singleton, ← hfree, ho.free_iff]
    by_cases he : q = a.slots.length
    · simp [he]
    · have hlt : q < a.slots.length + 1 ↔ q < a.slots.length := by omega
      rw [if_neg he, hlt]

theorem retire_spec (hr : Room a 0 1) (b : ℕ) :
    ∃ a', a.retire b = .ok a' ∧ a'.slots = a.slots ∧ a'.free = a.free ∧ a'.bytes = a.bytes ∧
      a'.allocs = a.allocs ∧ Spent a a' 0 1 := by
  unfold Arena.retire
  by_cases hd : a.deferred = true
  · have h1 := hr.pending hd
    rw [if_pos hd, if_pos (by omega)]
    exact ⟨_, rfl, rfl, rfl, rfl, rfl, ⟨rfl, rfl, rfl, by simp, by simp, by simp⟩⟩
  · rw [if_neg hd]
    exact ⟨a, rfl, rfl, rfl, rfl, rfl, (Spent.refl a).mono le_rfl (by omega)⟩

theorem Owned.congr (ho : Owned a C) (hs : a'.slots = a.slots) (hf : a'.free = a.free)
    (hb : a'.bytes = a.bytes) : Owned a' C := by
  have hnode : ∀ q, a'.node q = a.node q := fun q => by rw [Arena.node, hs, Arena.node]
  refine ⟨ho.nodup, ?_, ?_, by rw [hb, ho.bytes], by rw [hf]; exact ho.free_nodup, ?_⟩
  · intro c hc
    rw [hnode]
    exact ho.fits c hc
  · intro q m hq
    rw [hnode] at hq
    exact ho.live q m hq
  · intro q
    rw [hf, hs, hnode]
    exact ho.free_iff q

theorem freeNode_spec (ho : Owned a ((h, d) ::ₘ C)) (hr : Room a 0 1) :
    ∃ a', a.freeNode h = .ok a' ∧ Owned a' C ∧ Spent a a' 0 1 := by
  obtain ⟨nd, hn, hfit⟩ := ho.find
  have hlt := node_lt hn
  have hbytes : a.bytes = nd.heapBytes + C.bytes := by rw [ho.bytes, cells_bytes_cons, hfit.heapBytes]
  have hnew := ho.not_mem_of_cons
  unfold Arena.freeNode
  rw [hn]
  simp only
  rw [if_neg (by omega)]
  obtain ⟨a₁, h₁, hs₁, hf₁, hb₁, -, hsp⟩ := @retire_spec
    { a with slots := a.slots.set h none, bytes := a.bytes - nd.heapBytes } ⟨hr.free, hr.pending⟩
    nd.heapBytes
  rw [h₁]
  have hnode : ∀ q, a₁.node q = if q = h then none else a.node q := by
    intro q
    rw [Arena.node, hs₁]
    exact node_set hlt q
  obtain ⟨fixed, deferred, cap, allocs, pending, free⟩ := hsp
  refine ⟨_, rfl, ⟨?_, ?_, ?_, ?_, ?_, ?_⟩, ⟨fixed, deferred, cap, allocs, pending, ?_⟩⟩
  · have := ho.nodup
    rw [Multiset.map_cons, Multiset.nodup_cons] at this
    exact this.2
  · intro c hc
    have hne : c.1 ≠ h := fun he => hnew (he ▸ Multiset.mem_map_of_mem Prod.fst hc)
    show ∃ n, a₁.node c.1 = some n ∧ c.2.Fits n
    rw [hnode, if_neg hne]
    exact ho.fits c (Multiset.mem_cons_of_mem hc)
  · intro q m hq
    change a₁.node q = some m at hq
    rw [hnode] at hq
    by_cases he : q = h
    · rw [if_pos he] at hq
      cases hq
    · rw [if_neg he] at hq
      have := ho.live q m hq
      rw [Multiset.map_cons, Multiset.mem_cons] at this
      exact this.resolve_left he
  · show a₁.bytes = C.bytes
    rw [hb₁]
    show a.bytes - nd.heapBytes = C.bytes
    omega
  · show (h :: a₁.free).Nodup
    rw [hf₁, List.nodup_cons]
    refine ⟨fun hm => ?_, ho.free_nodup⟩
    rw [((ho.free_iff h).mp hm).2] at hn
    cases hn
  · intro q
    show q ∈ h :: a₁.free ↔ q < a₁.slots.length ∧ a₁.node q = none
    rw [hnode, hf₁, hs₁, List.mem_cons, List.length_set, ho.free_iff q]
    by_cases he : q = h
    · simp [he, hlt]
    · simp [he]
  · show a.free.length ≤ (h :: a₁.free).length + 0
    rw [hf₁, List.length_cons]
    show a.free.length ≤ a.free.length + 1 + 0
    omega

/-- Store a node in the slot of a cell, and account for what it grew or shrank by. -/
theorem put_spec (ho : Owned a ((h, d) ::ₘ C)) (hfit : d'.Fits nd) {δ : ℤ}
    (hδ : (d'.bytes : ℤ) = d.bytes + δ) :
    Owned ((a.put h nd).addBytes δ) ((h, d') ::ₘ C) ∧ Spent a ((a.put h nd).addBytes δ) 0 0 := by
  obtain ⟨n₀, hn, -⟩ := ho.find
  have hlt := node_lt hn
  have hnew := ho.not_mem_of_cons
  have hnode : ∀ q, ((a.put h nd).addBytes δ).node q = if q = h then some nd else a.node q :=
    node_set hlt
  have hbytes : a.bytes = d.bytes + C.bytes := by rw [ho.bytes, cells_bytes_cons]
  refine ⟨⟨?_, ?_, ?_, ?_, ho.free_nodup, ?_⟩, ⟨rfl, rfl, rfl, by simp [Arena.put, Arena.addBytes],
    by simp [Arena.put, Arena.addBytes], by simp [Arena.put, Arena.addBytes]⟩⟩
  · have := ho.nodup
    rwa [Multiset.map_cons] at this ⊢
  · intro c hc
    rw [hnode]
    rcases Multiset.mem_cons.mp hc with rfl | hc
    · exact ⟨nd, if_pos rfl, hfit⟩
    · have hne : c.1 ≠ h := fun he => hnew (he ▸ Multiset.mem_map_of_mem Prod.fst hc)
      rw [if_neg hne]
      exact ho.fits c (Multiset.mem_cons_of_mem hc)
  · intro q m hq
    rw [hnode] at hq
    rw [Multiset.map_cons, Multiset.mem_cons]
    by_cases he : q = h
    · exact .inl he
    · rw [if_neg he] at hq
      have := ho.live q m hq
      rwa [Multiset.map_cons, Multiset.mem_cons] at this
  · rw [cells_bytes_cons]
    show ((a.bytes : ℤ) + δ).toNat = d'.bytes + C.bytes
    omega
  · intro q
    rw [hnode]
    show q ∈ a.free ↔ q < (a.slots.set h (some nd)).length ∧ _
    rw [List.length_set, ho.free_iff]
    by_cases he : q = h
    · simp [he, hn]
    · rw [if_neg he]

theorem put_spec_same (ho : Owned a ((h, d) ::ₘ C)) (hfit : d'.Fits nd) (hδ : d'.bytes = d.bytes) :
    Owned (a.put h nd) ((h, d') ::ₘ C) ∧ Spent a (a.put h nd) 0 0 := by
  obtain ⟨h₁, h₂⟩ := put_spec ho hfit (show (d'.bytes : ℤ) = d.bytes + 0 by omega)
  have he : (a.put h nd).addBytes 0 = a.put h nd := by simp [Arena.addBytes]
  rw [he] at h₁ h₂
  exact ⟨h₁, h₂⟩

theorem Owned.liveAllocs (ho : Owned a C) : a.liveAllocs = Multiset.card C := by
  have hfree : a.free.toFinset = (Finset.range a.slots.length).filter fun h => a.node h = none := by
    ext h
    simp [ho.free_iff]
  have hlive : (C.map Prod.fst).toFinset =
      (Finset.range a.slots.length).filter fun h => ¬ a.node h = none := by
    ext h
    simp only [Multiset.mem_toFinset, Finset.mem_filter, Finset.mem_range]
    constructor
    · intro hm
      obtain ⟨c, hc, rfl⟩ := Multiset.mem_map.mp hm
      obtain ⟨n, hn, -⟩ := ho.fits c hc
      exact ⟨node_lt hn, by rw [hn]; simp⟩
    · rintro ⟨-, hne⟩
      obtain ⟨n, hn⟩ := Option.ne_none_iff_exists'.mp hne
      exact ho.live h n hn
  have hcard := Finset.card_filter_add_card_filter_not (s := Finset.range a.slots.length)
    (fun h => a.node h = none)
  rw [← hfree, ← hlive, List.toFinset_card_of_nodup ho.free_nodup,
    Multiset.toFinset_card_of_nodup ho.nodup, Multiset.card_map, Finset.card_range] at hcard
  unfold Arena.liveAllocs
  omega

theorem owned_new : Owned Arena.new 0 where
  nodup := Multiset.nodup_zero
  fits c hc := absurd hc (Multiset.notMem_zero c)
  live h n hn := by simp [Arena.node, Arena.new] at hn
  bytes := rfl
  free_nodup := List.nodup_nil
  free_iff h := by simp [Arena.new]

theorem owned_withCapacity (cap pendingCap : ℕ) : Owned (Arena.withCapacity cap pendingCap) 0 := by
  have hnode : ∀ h, (Arena.withCapacity cap pendingCap).node h = none := by
    intro h
    rw [Arena.node, Arena.withCapacity, List.getElem?_replicate]
    split_ifs <;> rfl
  refine ⟨Multiset.nodup_zero, fun c hc => absurd hc (Multiset.notMem_zero c), fun h n hn => ?_, rfl,
    List.nodup_range, fun h => ?_⟩
  · rw [hnode] at hn
    cases hn
  · rw [hnode]
    simp [Arena.withCapacity]

theorem join_getElem?_rdropWhile (slots : List (Option Node)) (q : ℕ) :
    ((slots.rdropWhile Option.isNone)[q]?).join = (slots[q]?).join := by
  conv_rhs => rw [← slots.rdropWhile_append_rtakeWhile (p := Option.isNone)]
  by_cases hq : q < (slots.rdropWhile Option.isNone).length
  · rw [List.getElem?_append_left hq]
  · rw [List.getElem?_append_right (not_lt.mp hq), List.getElem?_eq_none (not_lt.mp hq)]
    cases hx : (slots.rtakeWhile Option.isNone)[q - (slots.rdropWhile Option.isNone).length]? with
    | none => rfl
    | some x =>
      have hnone := List.mem_rtakeWhile_imp (List.mem_of_getElem? hx)
      rw [Option.isNone_iff_eq_none] at hnone
      rw [hnone]
      rfl

/-- A slot past the end of the shrunk table was empty. -/
theorem Owned.shrinkToFit (ho : Owned a C) : Owned a.shrinkToFit C := by
  unfold Arena.shrinkToFit
  split_ifs with hfix
  · exact ho
  · have hnode : ∀ q, (((a.slots.reverse.dropWhile Option.isNone).reverse)[q]?).join = a.node q :=
      fun q => join_getElem?_rdropWhile a.slots q
    refine ⟨ho.nodup, fun c hc => ?_, fun h n hn => ?_, ho.bytes, ho.free_nodup.filter _, fun h => ?_⟩
    · obtain ⟨n, hn, hfit⟩ := ho.fits c hc
      exact ⟨n, (hnode c.1).trans hn, hfit⟩
    · exact ho.live h n ((hnode h).symm.trans hn)
    · have hle : (a.slots.reverse.dropWhile Option.isNone).reverse.length ≤ a.slots.length :=
        (a.slots.rdropWhile_prefix (p := Option.isNone)).length_le
      rw [List.mem_filter, ho.free_iff, decide_eq_true_iff]
      show (h < a.slots.length ∧ a.node h = none) ∧ _ ↔
        h < (a.slots.reverse.dropWhile Option.isNone).reverse.length ∧ Option.join _ = none
      rw [hnode h]
      constructor
      · rintro ⟨⟨-, hn⟩, hlt⟩
        exact ⟨hlt, hn⟩
      · rintro ⟨hlt, hn⟩
        exact ⟨⟨lt_of_lt_of_le hlt hle, hn⟩, hlt⟩

section Leaves

variable {fl : Flavour} {kb pos rem val i j : ℕ} {l : List (ℕ × ℕ)} {buf : List ℕ}

theorem leaf_eq {need : ℕ} (hn : a.node h = some (.leaf buf)) (hneed : need ≤ buf.length) :
    a.leaf h need = .ok buf := by
  rw [Arena.leaf, hn]
  exact if_pos hneed

theorem Owned.find_leaf {vw : ℕ} (ho : Owned a ((h, .leaf vw kb l) ::ₘ C)) :
    ∃ buf, a.node h = some (.leaf buf) ∧ LeafHolds vw kb l buf := by
  obtain ⟨n, hn, buf, rfl, hb⟩ := ho.find
  exact ⟨buf, hn, hb⟩

theorem makeLeaf_spec (ho : Owned a C) (hr : Room a 1 0) (hfit : Fit (valueWidth fl) kb l) :
    ∃ h a', makeLeaf fl a kb l = .ok (leafEdge fl kb h l.length, a') ∧
      Owned a' ((h, .leaf (valueWidth fl) kb l) ::ₘ C) ∧ Spent a a' 1 0 := by
  have hf : (Desc.leaf (valueWidth fl) kb l).Fits (.leaf (leafBytes (valueWidth fl) kb l)) :=
    ⟨_, rfl, leafBytes_holds hfit⟩
  obtain ⟨h, a', ha, ho', hs⟩ := alloc_spec ho hr hf
  refine ⟨h, a', ?_, ho', hs⟩
  rw [makeLeaf, ha]
  rfl

theorem leafInsertAt_spec (shared : Bool) (ho : Owned a ((h, .leaf (valueWidth fl) kb l) ::ₘ C))
    (hr : Room a 1 1) (hpos : pos ≤ l.length) (hk : rem < 256 ^ kb) (hv : val < 256 ^ valueWidth fl)
    (hmax : (l.length + 1) * kb ≤ LEAF_KEYS_MAX) :
    ∃ h' a', leafInsertAt shared fl a kb h l.length pos rem val =
        .ok (leafEdge fl kb h' (l.length + 1), a') ∧
      Owned a' ((h', .leaf (valueWidth fl) kb (l.insertIdx pos (rem, val))) ::ₘ C) ∧ Spent a a' 1 1 := by
  obtain ⟨buf, hn, hb⟩ := ho.find_leaf
  have hlen : (l.insertIdx pos (rem, val)).length = l.length + 1 :=
    List.length_insertIdx_of_le_length hpos _
  unfold leafInsertAt
  dsimp only
  by_cases hcls : capClass (l.length + 1) = capClass l.length
  · have hneed : keysOff (valueWidth fl) l.length + (l.length + 1) * kb ≤ buf.length := by
      rw [hb.size]
      exact (area_fits _ kb (hcls ▸ le_capClass _)).2
    rw [if_pos hcls, leaf_eq hn hneed, ok_bind]
    have hfit : (Desc.leaf (valueWidth fl) kb (l.insertIdx pos (rem, val))).Fits
        (.leaf (insertInPlace (valueWidth fl) kb l.length pos rem val buf)) :=
      ⟨_, rfl, hb.insertInPlace hcls hpos hk hv⟩
    obtain ⟨ho', hs⟩ := put_spec_same ho hfit (by
      show leafSize _ _ _ = leafSize _ _ _
      rw [hlen, leafSize, leafSize, hcls])
    refine ⟨h, _, ?_, ho', hs.mono (by omega) (by omega)⟩
    cases shared with
    | true => rw [if_pos rfl, insertShared_eq hb hcls hpos hmax, ok_bind, pure_eq_ok]
    | false => rfl
  · rw [if_neg hcls, leaf_eq hn hb.fits, ok_bind]
    have hfit : (Desc.leaf (valueWidth fl) kb (l.insertIdx pos (rem, val))).Fits
        (.leaf (insertCopied (valueWidth fl) kb l.length pos rem val buf)) :=
      ⟨_, rfl, hb.insertCopied hpos hk hv⟩
    obtain ⟨nh, a₁, h₁, ho₁, hs₁⟩ := alloc_spec ho (hr.mono le_rfl (by omega)) hfit
    rw [Multiset.cons_swap] at ho₁
    obtain ⟨a₂, h₂, ho₂, hs₂⟩ := freeNode_spec ho₁ (hs₁.room hr)
    refine ⟨nh, a₂, ?_, ho₂, hs₁.trans hs₂⟩
    rw [h₁, ok_bind]
    dsimp only
    rw [h₂, ok_bind, pure_eq_ok]

theorem leafRemoveSpan_spec (shared : Bool) (ho : Owned a ((h, .leaf (valueWidth fl) kb l) ::ₘ C))
    (hr : Room a 1 1) (hij : i < j) (hj : j ≤ l.length) (hmax : l.length * kb ≤ LEAF_KEYS_MAX) :
    ∃ h' a', leafRemoveSpan shared fl a kb h l.length i j =
        .ok (leafEdge fl kb h' (l.length - (j - i)), a') ∧
      Owned a' ((h', .leaf (valueWidth fl) kb (l.take i ++ l.drop j)) ::ₘ C) ∧ Spent a a' 1 1 := by
  obtain ⟨buf, hn, hb⟩ := ho.find_leaf
  have hlen : (l.take i ++ l.drop j).length = l.length - (j - i) := by
    rw [List.length_append, List.length_take, List.length_drop]
    omega
  unfold leafRemoveSpan
  dsimp only
  rw [leaf_eq hn hb.fits, ok_bind]
  by_cases hcls : capClass (l.length - (j - i)) = capClass l.length
  · rw [if_pos hcls]
    have store : ∀ buf', LeafHolds (valueWidth fl) kb (l.take i ++ l.drop j) buf' →
        Owned (a.put h (.leaf buf')) ((h, .leaf (valueWidth fl) kb (l.take i ++ l.drop j)) ::ₘ C) ∧
          Spent a (a.put h (.leaf buf')) 1 1 := by
      intro buf' hb'
      have hfit : (Desc.leaf (valueWidth fl) kb (l.take i ++ l.drop j)).Fits (.leaf buf') := ⟨_, rfl, hb'⟩
      obtain ⟨ho', hs⟩ := put_spec_same ho hfit (by
        show leafSize _ _ _ = leafSize _ _ _
        rw [hlen, leafSize, leafSize, hcls])
      exact ⟨ho', hs.mono (by omega) (by omega)⟩
    cases shared with
    | true =>
      obtain ⟨buf', hbuf', hb'⟩ := removeShared_holds hb hcls hij hj hmax
      rw [if_pos rfl, hbuf', ok_bind, pure_eq_ok]
      exact ⟨h, _, rfl, store buf' hb'⟩
    | false => exact ⟨h, _, rfl, store _ (hb.removeInPlace hcls hij.le hj)⟩
  · rw [if_neg hcls]
    have hfit : (Desc.leaf (valueWidth fl) kb (l.take i ++ l.drop j)).Fits
        (.leaf (removeCopied (valueWidth fl) kb l.length i j buf)) := ⟨_, rfl, hb.removeCopied hij.le hj⟩
    obtain ⟨nh, a₁, h₁, ho₁, hs₁⟩ := alloc_spec ho (hr.mono le_rfl (by omega)) hfit
    rw [Multiset.cons_swap] at ho₁
    obtain ⟨a₂, h₂, ho₂, hs₂⟩ := freeNode_spec ho₁ (hs₁.room hr)
    refine ⟨nh, a₂, ?_, ho₂, hs₁.trans hs₂⟩
    rw [h₁, ok_bind]
    dsimp only
    rw [h₂, ok_bind, pure_eq_ok]

theorem leafOverwrite_spec {k v : ℕ} (ho : Owned a ((h, .leaf VALUE_SIZE kb l) ::ₘ C))
    (hi : l[pos]? = some (k, v)) (hv : val < 256 ^ VALUE_SIZE) :
    ∃ a', leafOverwrite a h pos val = .ok a' ∧
      Owned a' ((h, .leaf VALUE_SIZE kb (l.set pos (k, val))) ::ₘ C) ∧ Spent a a' 0 0 := by
  obtain ⟨buf, hn, hb⟩ := ho.find_leaf
  have hlt : pos < l.length := (List.getElem?_eq_some_iff.mp hi).1
  have hneed : 4 * pos + 4 ≤ buf.length := by
    have h1 := area_fits VALUE_SIZE kb (le_capClass l.length)
    rw [hb.size]
    unfold VALUE_SIZE at h1 ⊢
    omega
  have hfit : (Desc.leaf VALUE_SIZE kb (l.set pos (k, val))).Fits
      (.leaf (Packed.writeRem 0 VALUE_SIZE buf pos val)) := ⟨_, rfl, hb.overwriteVal hi hv⟩
  obtain ⟨ho', hs⟩ := put_spec_same ho hfit (by
    show leafSize _ _ _ = leafSize _ _ _
    rw [List.length_set])
  refine ⟨_, ?_, ho', hs⟩
  rw [leafOverwrite, leaf_eq hn hneed, ok_bind, pure_eq_ok]

end Leaves

end Expanse.Trie32
