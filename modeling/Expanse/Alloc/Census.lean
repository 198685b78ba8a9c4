import Mathlib.Data.List.Sort
import Expanse.Alloc.Drop

/-!
# The census of the slab pages

`releaseFree` lists the pages, sorts them by base address and finds the page of each free block
by its address. A page counts as free exactly when no live block lies on it.
-/

namespace Expanse.Alloc

open SysHeap NextFit Intervals Classed NodeAlloc

variable {w : World} {s : NodeAlloc} {h : Heap} {F : ℕ → List ℕ} {pages pre post : List Page}
    {B live : List Block}
  {p q : Page} {c a cur fuel : ℕ} {l : List ℕ} {n : Page → ℕ}

/-- The entry of a page, with the free blocks counted on it. -/
def census (n : Page → ℕ) (p : Page) : PageCount := ⟨p.base, n p, slabBlocks p.cls⟩

theorem listPages_ok (done : List PageCount) (hl : Chain h.mem cur (pages.map Page.base))
    (hh : ∀ p ∈ pages, readWord h.mem (p.base + 8) = p.cls ∧ p.cls < NUM_CLASSES)
    (ho : ∀ p ∈ pages, h.Owns p.base 8 ∧ h.Owns (p.base + 8) 8) (hf : pages.length < fuel) :
    listPages h fuel cur done = .ok (done ++ pages.map (census fun _ => 0)) := by
  induction pages generalizing cur fuel done with
  | nil =>
    obtain ⟨fuel, rfl⟩ : ∃ k, fuel = k + 1 := ⟨fuel - 1, by omega⟩
    rw [listPages, if_pos (chain_nil.mp hl), List.map_nil, List.append_nil]
  | cons p pages ih =>
    obtain ⟨rfl, hne, hrest⟩ := hl
    rw [List.length_cons] at hf
    obtain ⟨fuel, rfl⟩ : ∃ k, fuel = k + 1 := ⟨fuel - 1, by omega⟩
    have hf' : pages.length < fuel := by omega
    obtain ⟨ho₁, ho₂⟩ := ho p List.mem_cons_self
    obtain ⟨hh₁, hh₂⟩ := hh p List.mem_cons_self
    rw [listPages, if_neg hne, Heap.read_ok ho₂, ok_bind, hh₁, if_pos hh₂, Heap.read_ok ho₁, ok_bind,
      ih _ hrest (fun q hq => hh q (List.mem_cons_of_mem _ hq))
        (fun q hq => ho q (List.mem_cons_of_mem _ hq)) hf',
      List.append_assoc]
    rfl

def sortPages (pages : List Page) : List Page := pages.insertionSort fun p q => p.base ≤ q.base

theorem sortPages_perm (pages : List Page) : (sortPages pages).Perm pages :=
  List.perm_insertionSort _ pages

theorem sort_census (n : Page → ℕ) (pages : List Page) :
    ((pages.map (census n)).insertionSort fun p q => p.base ≤ q.base) = (sortPages pages).map (census n) :=
  (List.map_insertionSort _ (fun p q : PageCount => p.base ≤ q.base) (census n) pages
    fun _ _ _ _ => Iff.rfl).symm

/-- Each page ends before the next one starts. -/
def Ascending (pages : List Page) : Prop := pages.Pairwise fun p q => p.base + SLAB_PAGE_SIZE ≤ q.base

theorem sortPages_ascending (hap : (pages.map Page.span).Pairwise Apart) : Ascending (sortPages pages) := by
  have hsorted : (sortPages pages).Pairwise fun p q => p.base ≤ q.base :=
    List.pairwise_insertionSort (fun p q : Page => p.base ≤ q.base) pages
  have hap' : ((sortPages pages).map Page.span).Pairwise Apart :=
    ((sortPages_perm pages).symm.map _).pairwise hap Apart.symm
  rw [List.pairwise_map] at hap'
  refine (hsorted.and hap').imp ?_
  rintro p q ⟨hle, happ⟩
  have : 0 < SLAB_PAGE_SIZE := by decide
  unfold Apart Page.span at happ
  dsimp only at happ
  omega

theorem Ascending.not_has (ha : Ascending (pre ++ p :: post)) (hp : p.Has a) :
    (∀ q ∈ pre, ¬ q.Has a) ∧ ∀ q ∈ post, ¬ q.Has a := by
  obtain ⟨-, hpost, hpre⟩ := List.pairwise_append.mp ha
  obtain ⟨h1, h2⟩ := hp
  constructor
  · intro q hq hqa
    have := hpre q hq p List.mem_cons_self
    have := hqa.2
    omega
  · intro q hq hqa
    have := (List.pairwise_cons.mp hpost).1 q hq
    have := hqa.1
    omega

theorem pageOf_ok (ha : Ascending (pre ++ p :: post)) (hp : p.Has a) :
    pageOf ((pre ++ p :: post).map (census n)) a = .ok pre.length := by
  obtain ⟨-, hpost, hpre⟩ := List.pairwise_append.mp ha
  obtain ⟨h1, h2⟩ := hp
  have hbefore : ∀ q ∈ pre.map (census n), (q.base ≤ a : Bool) = true := by
    intro x hx
    obtain ⟨q, hq, rfl⟩ := List.mem_map.mp hx
    have := hpre q hq p List.mem_cons_self
    refine decide_eq_true ?_
    change q.base ≤ a
    omega
  have hafter : (post.map (census n)).takeWhile (·.base ≤ a) = [] := by
    cases post with
    | nil => rfl
    | cons q post =>
      have := (List.pairwise_cons.mp hpost).1 q List.mem_cons_self
      have hgt : ¬ (census n q).base ≤ a := by
        change ¬ q.base ≤ a
        omega
      rw [List.map_cons, List.takeWhile_cons_of_neg (by simpa using hgt)]
  have hself : ((p :: post).map (census n)).takeWhile (·.base ≤ a) = [census n p] := by
    rw [List.map_cons, List.takeWhile_cons, hafter]
    exact if_pos (decide_eq_true h1)
  have hlen : (((pre ++ p :: post).map (census n)).takeWhile (·.base ≤ a)).length = pre.length + 1 := by
    rw [List.map_append, List.takeWhile_append_of_pos hbefore, hself, List.length_append, List.length_map]
    rfl
  have hget : ((pre ++ p :: post).map (census n))[pre.length]? = some (census n p) := by
    rw [List.getElem?_map, List.getElem?_append_right le_rfl, Nat.sub_self]
    rfl
  unfold pageOf
  rw [hlen]
  dsimp only
  rw [hget]
  exact if_pos h2

theorem onFreePage_ok (ha : Ascending pages) (hm : p ∈ pages) (hp : p.Has a) :
    onFreePage (pages.map (census n)) a = .ok (census n p).isFree := by
  obtain ⟨pre, post, rfl⟩ := List.append_of_mem hm
  have hget : ((pre ++ p :: post).map (census n))[pre.length]? = some (census n p) := by
    rw [List.getElem?_map, List.getElem?_append_right le_rfl, Nat.sub_self]
    rfl
  unfold onFreePage
  rw [pageOf_ok ha hp, ok_bind, hget]
  rfl

theorem count_one (ha : Ascending (pre ++ p :: post)) (hp : p.Has a) :
    (((pre ++ p :: post).map (census n)).modify pre.length fun x => { x with free := x.free + 1 }) =
      (pre ++ p :: post).map (census fun q => n q + if q.Has a then 1 else 0) := by
  obtain ⟨hpre, hpost⟩ := ha.not_has hp
  have hsame : ∀ L : List Page, (∀ q ∈ L, ¬ q.Has a) →
      L.map (census fun q => n q + if q.Has a then 1 else 0) = L.map (census n) := by
    intro L hL
    apply List.map_congr_left
    intro q hq
    rw [census, if_neg (hL q hq), Nat.add_zero]
    rfl
  have hself : census (fun q => n q + if q.Has a then 1 else 0) p = ⟨p.base, n p + 1, slabBlocks p.cls⟩ := by
    rw [census, if_pos hp]
  rw [List.map_append, List.map_append, List.map_cons, List.map_cons, hsame pre hpre, hsame post hpost, hself,
    List.modify_eq_take_drop, List.take_left' (List.length_map _), List.drop_left' (List.length_map _)]
  rfl

theorem countOnPages_ok (n : Page → ℕ) (ha : Ascending pages) (hl : Chain h.mem cur l)
    (ho : ∀ a ∈ l, h.Owns a 8) (hpage : ∀ a ∈ l, ∃ p ∈ pages, p.Has a) (hf : l.length < fuel) :
    countOnPages h fuel cur (pages.map (census n)) =
      .ok (pages.map (census fun p => n p + l.countP fun a => p.Has a)) := by
  induction l generalizing cur fuel n with
  | nil =>
    obtain ⟨fuel, rfl⟩ : ∃ k, fuel = k + 1 := ⟨fuel - 1, by omega⟩
    rw [countOnPages, if_pos (chain_nil.mp hl)]
    rfl
  | cons a l ih =>
    obtain ⟨rfl, hne, hrest⟩ := hl
    rw [List.length_cons] at hf
    obtain ⟨fuel, rfl⟩ : ∃ k, fuel = k + 1 := ⟨fuel - 1, by omega⟩
    have hf' : l.length < fuel := by omega
    obtain ⟨p, hm, hp⟩ := hpage cur List.mem_cons_self
    obtain ⟨pre, post, rfl⟩ := List.append_of_mem hm
    rw [countOnPages, if_neg hne, pageOf_ok ha hp, ok_bind, count_one ha hp,
      Heap.read_ok (ho cur List.mem_cons_self), ok_bind,
      ih _ hrest (fun x hx => ho x (List.mem_cons_of_mem _ hx))
        (fun x hx => hpage x (List.mem_cons_of_mem _ hx)) hf']
    congr 2
    funext q
    rw [census, census, List.countP_cons]
    simp only [decide_eq_true_eq, Nat.add_assoc, Nat.add_comm]

/-- Along the freelists of the classes `L`, which lie on pages where there are any. -/
theorem countClasses_ok {L : List ℕ} (n : Page → ℕ) (ha : Ascending pages) (hL : ∀ c ∈ L, c < NUM_CLASSES)
    (hnil : ∀ c, isSlabClass c = false → F c = []) (hchain : ∀ c ∈ L, Chain h.mem (s.freelists c) (F c))
    (ho : ∀ c ∈ L, ∀ a ∈ F c, h.Owns a 8) (hpage : ∀ c ∈ L, ∀ a ∈ F c, ∃ p ∈ pages, p.Has a)
    (hshort : ∀ c ∈ L, (F c).length ≤ ADDRESSES) :
    L.foldlM (countClass s h) (pages.map (census n)) =
      .ok (pages.map (census fun p => n p + (L.flatMap F).countP fun a => p.Has a)) := by
  induction L generalizing n with
  | nil => rfl
  | cons c L ih =>
    have hclass : countClass s h (pages.map (census n)) c =
        .ok (pages.map (census fun p => n p + (F c).countP fun a => p.Has a)) := by
      unfold countClass
      cases hs : isSlabClass c with
      | true =>
        rw [if_pos rfl]
        exact countOnPages_ok n ha (hchain c List.mem_cons_self) (ho c List.mem_cons_self)
          (hpage c List.mem_cons_self) (Nat.lt_succ_of_le (hshort c List.mem_cons_self))
      | false =>
        rw [hnil c hs]
        rfl
    rw [List.foldlM_cons, hclass, ok_bind, ih _ (fun d hd => hL d (List.mem_cons_of_mem _ hd))
      (fun d hd => hchain d (List.mem_cons_of_mem _ hd)) (fun d hd => ho d (List.mem_cons_of_mem _ hd))
      (fun d hd => hpage d (List.mem_cons_of_mem _ hd)) (fun d hd => hshort d (List.mem_cons_of_mem _ hd))]
    congr 2
    funext p
    rw [census, census, List.flatMap_cons, List.countP_append, Nat.add_assoc]

theorem Inv.bytes_pos (hI : Inv w F pages) {b : Block} (hb : b ∈ freeBlocks F ++ w.live) : 0 < b.bytes := by
  rcases List.mem_append.mp hb with hb | hb
  · obtain ⟨c, hc, a, -, rfl⟩ := mem_freeBlocks.mp hb
    exact lt_of_lt_of_le (by decide) (classFacts hc).word
  · exact (hI.request b hb).1

theorem Holds.page_unique (hB : Holds h pages B) (hp : p ∈ pages) (hq : q ∈ pages) (hpa : p.Has a)
    (hqa : q.Has a) :
    q = p := by
  by_contra hne
  have : Std.Symm fun p q : Page => Apart p.span q.span := ⟨fun _ _ hap => hap.symm⟩
  have hap := List.pairwise_map.mp hB.pages_apart
  have happ := hap.forall hq hp hne
  obtain ⟨h1, h2⟩ := hpa
  obtain ⟨h3, h4⟩ := hqa
  unfold Apart Page.span at happ
  dsimp only at happ
  omega

theorem Page.has_of_carved (hp : p.Valid) {b : Block} (hb : b ∈ p.carved) : p.Has b.ptr := by
  obtain ⟨h1, h2, -⟩ := carved_inside hp hb
  have hf := classFacts hp.1
  have hword := hf.word
  have hstep := hf.step
  refine ⟨?_, ?_⟩
  · omega
  · omega

/-- The blocks whose address lies on a page are the blocks carved from it. -/
theorem Holds.on_page (hB : Holds h pages B) (hpos : ∀ b ∈ B, 0 < b.bytes) (hp : p ∈ pages) :
    (B.filter fun b => p.Has b.ptr).Perm p.carved := by
  have hsys : ((B.filter fun b => !b.onSlab).filter fun b => p.Has b.ptr) = [] := by
    rw [List.filter_eq_nil_iff]
    intro b hb hhas
    obtain ⟨-, -, hcross⟩ := List.pairwise_append.mp hB.chunks_apart
    have hap := hcross _ (List.mem_map_of_mem hp) _ (List.mem_map_of_mem hb)
    have := hpos b (List.mem_filter.mp hb).1
    obtain ⟨h1, h2⟩ := of_decide_eq_true hhas
    unfold Apart Page.span Block.span at hap
    dsimp only at hap
    omega
  have hcarved : ∀ q ∈ pages, (q.carved.filter fun b => p.Has b.ptr) = if q = p then q.carved else [] := by
    intro q hq
    by_cases hqp : q = p
    · rw [if_pos hqp, List.filter_eq_self]
      intro b hb
      rw [← hqp]
      exact decide_eq_true (Page.has_of_carved (hB.valid q hq) hb)
    · rw [if_neg hqp, List.filter_eq_nil_iff]
      intro b hb hhas
      exact hqp (hB.page_unique hp hq (of_decide_eq_true hhas) (Page.has_of_carved (hB.valid q hq) hb))
  calc (B.filter fun b => p.Has b.ptr)
    _ |>.Perm (((B.filter Block.onSlab) ++ B.filter fun b => !b.onSlab).filter fun b => p.Has b.ptr) :=
      (List.filter_append_perm _ B).symm.filter _
    _ |>.Perm ((pages.flatMap Page.carved).filter fun b => p.Has b.ptr) := by
      rw [List.filter_append, hsys, List.append_nil]
      exact hB.carved.filter _
    _ |>.Perm p.carved := by
      rw [List.filter_flatMap, List.flatMap_congr hcarved]
      exact List.Perm.of_eq (flatMap_only hB.bases_nodup.of_map hp _)

def busy (live : List Block) (p : Page) : Bool := live.any fun b => p.Has b.ptr

theorem isFree_census (hI : Inv w F pages) (hp : p ∈ pages) :
    (census (fun q => (freeBlocks F).countP fun b => q.Has b.ptr) p).isFree = !busy w.live p := by
  have hlen := (hI.holds.on_page (fun b hb => hI.bytes_pos hb) hp).length_eq
  have hcarved : p.carved.length = slabBlocks p.cls := by rw [Page.carved, List.length_map, List.length_range]
  rw [← List.countP_eq_length_filter, List.countP_append, hcarved] at hlen
  rw [NodeAlloc.PageCount.isFree, census]
  cases hb : busy w.live p with
  | true =>
    obtain ⟨b, hb, hhas⟩ := List.any_eq_true.mp hb
    have hpos : 0 < w.live.countP fun b => p.Has b.ptr := List.countP_pos_iff.mpr ⟨b, hb, hhas⟩
    exact decide_eq_false (by dsimp only; omega)
  | false =>
    have hnone := List.any_eq_false.mp hb
    have hzero := List.countP_eq_zero.mpr hnone
    exact decide_eq_true (by dsimp only; omega)

theorem countP_blocks (F : ℕ → List ℕ) (p : Page) :
    ((List.range NUM_CLASSES).flatMap F).countP (fun a => p.Has a) =
    (freeBlocks F).countP fun b => p.Has b.ptr := by
  rw [freeBlocks, List.countP_flatMap, List.countP_flatMap]
  congr 1
  apply List.map_congr_left
  intro c _
  rw [Function.comp_apply, Function.comp_apply, List.countP_map]
  rfl

end Expanse.Alloc
