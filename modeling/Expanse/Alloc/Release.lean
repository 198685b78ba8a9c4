import Expanse.Alloc.Unlink

/-!
# Releasing free memory

The pages that stay are those with a live block, and each freelist keeps its blocks on them in
their order. What is released is what the bytes held fall by.
-/

namespace Expanse.Alloc

open SysHeap NextFit Intervals Classed NodeAlloc

variable {w : World} {s : NodeAlloc} {h h' : Heap} {m m' : Memory} {held rest : List Chunk} {F G : ℕ → List ℕ}
  {pages kept : List Page} {B live : List Block} {b : Block} {p q : Page} {c a : ℕ}

def onAny (pages : List Page) (a : ℕ) : Bool := pages.any fun p => p.Has a

theorem onAny_iff : onAny pages a = true ↔ ∃ p ∈ pages, p.Has a := by
  simp [onAny]

theorem freeBlocks_congr (hG : ∀ c < NUM_CLASSES, G c = F c) : freeBlocks G = freeBlocks F := by
  rw [freeBlocks, freeBlocks]
  apply List.flatMap_congr
  intro c hc
  rw [hG c (List.mem_range.mp hc)]

/-- The freelists count where there are classes. -/
theorem Inv.of_lists (hI : Inv w F pages) (hG : ∀ c < NUM_CLASSES, G c = F c) : Inv w G pages := by
  refine ⟨⟨fun c hc => ?_, hI.links.slab, hI.links.header⟩, ?_, hI.bytes, hI.allocs, hI.request⟩
  · rw [hG c hc]
    exact hI.links.chain c hc
  · rw [freeBlocks_congr hG]
    exact hI.holds

theorem Holds.on_some_page (hB : Holds h pages B) (hb : b ∈ B) (hs : b.onSlab = true) :
    ∃ p ∈ pages, p.Has b.ptr := by
  rcases hB.place hb with ⟨-, p, hp, hc⟩ | ⟨hn, -⟩
  · exact ⟨p, hp, Page.has_of_carved (hB.valid p hp) hc⟩
  · rw [hs] at hn
    cases hn

theorem Inv.off_pages (hI : Inv w F pages) (hb : b ∈ freeBlocks F ++ w.live) (hs : b.onSlab = false)
    (hp : p ∈ pages) :
    ¬ p.Has b.ptr := by
  intro hhas
  have hmem := (hI.holds.on_page (fun x hx => hI.bytes_pos hx) hp).mem_iff.mp
    (List.mem_filter.mpr ⟨hb, decide_eq_true hhas⟩)
  rw [Page.onSlab_carved (hI.holds.valid p hp) hmem] at hs
  cases hs

theorem Inv.filter_pages (hI : Inv w F pages) (hc : c < NUM_CLASSES) :
    (F c).filter (onAny pages) = slabLists F c := by
  have hmem : ∀ a ∈ F c, Block.ofClass c a ∈ freeBlocks F ++ w.live := fun a ha =>
    List.mem_append_left _ (mem_freeBlocks.mpr ⟨c, hc, a, ha, rfl⟩)
  rw [slabLists]
  cases hs : isSlabClass c with
  | true =>
    rw [if_pos rfl, List.filter_eq_self]
    intro a ha
    exact onAny_iff.mpr (hI.holds.on_some_page (hmem a ha) (by rw [Block.onSlab_ofClass hc, hs]))
  | false =>
    rw [if_neg Bool.false_ne_true, List.filter_eq_nil_iff]
    intro a ha hon
    obtain ⟨p, hp, hhas⟩ := onAny_iff.mp hon
    exact hI.off_pages (hmem a ha) (by rw [Block.onSlab_ofClass hc, hs]) hp hhas

theorem Inv.filter_kept (hI : Inv w F pages) (hk : ∀ p ∈ kept, p ∈ pages) (hc : c < NUM_CLASSES) :
    (F c).filter (onAny kept) = (slabLists F c).filter (onAny kept) := by
  rw [← hI.filter_pages hc, List.filter_filter]
  apply List.filter_congr
  intro a _
  rw [Bool.eq_iff_iff, Bool.and_eq_true, iff_self_and]
  intro hon
  obtain ⟨p, hp, hhas⟩ := onAny_iff.mp hon
  exact onAny_iff.mpr ⟨p, hk p hp, hhas⟩

theorem freeBlocks_filter (F : ℕ → List ℕ) (keep : ℕ → Bool) :
    freeBlocks (fun c => (F c).filter keep) = (freeBlocks F).filter fun b => keep b.ptr := by
  rw [freeBlocks, freeBlocks, List.filter_flatMap]
  apply List.flatMap_congr
  intro c _
  rw [List.filter_map]
  rfl

theorem Holds.onAny_eq (hB : Holds h pages B) (hk : ∀ q, q ∈ kept ↔ q ∈ pages ∧ busy live q = true)
    (hp : p ∈ pages) (ha : p.Has a) : onAny kept a = busy live p := by
  rw [Bool.eq_iff_iff, onAny_iff]
  constructor
  · rintro ⟨q, hq, hqa⟩
    obtain ⟨hq, hbusy⟩ := (hk q).mp hq
    rwa [← hB.page_unique hp hq ha hqa]
  · intro hbusy
    exact ⟨p, (hk p).mpr ⟨hp, hbusy⟩, ha⟩

theorem Holds.retain (hB : Holds h pages (freeBlocks F ++ live)) (hF : ∀ b ∈ freeBlocks F, b.onSlab = true)
    (hk : kept.Perm (pages.filter (busy live)))
    (hp : h'.held.Perm (kept.map Page.chunk ++ (live.filter fun b => !b.onSlab).map Block.chunk))
    (hsound : h'.Sound) : Holds h' kept (freeBlocks (fun c => (F c).filter (onAny kept)) ++ live) := by
  have hmem : ∀ q, q ∈ kept ↔ q ∈ pages ∧ busy live q = true := fun q => hk.mem_iff.trans List.mem_filter
  rw [freeBlocks_filter]
  have hon : ∀ b ∈ (freeBlocks F).filter (fun b => onAny kept b.ptr), b.onSlab = true := fun b hb =>
    hF b (List.mem_filter.mp hb).1
  have hlive : ∀ b ∈ live.filter Block.onSlab, onAny kept b.ptr = true := by
    intro b hb
    obtain ⟨hb, hs⟩ := List.mem_filter.mp hb
    obtain ⟨p, hp, hhas⟩ := hB.on_some_page (List.mem_append_right _ hb) hs
    rw [hB.onAny_eq hmem hp hhas]
    exact List.any_eq_true.mpr ⟨b, hb, decide_eq_true hhas⟩
  have hcarved : ∀ p ∈ pages, p.carved.filter (fun b => onAny kept b.ptr) =
      if busy live p then p.carved else [] := by
    intro p hp
    have heq : ∀ b ∈ p.carved, onAny kept b.ptr = busy live p := fun b hb =>
      hB.onAny_eq hmem hp (Page.has_of_carved (hB.valid p hp) hb)
    rw [List.filter_congr heq]
    cases busy live p with
    | true => rw [List.filter_true, if_pos rfl]
    | false => rw [List.filter_false, if_neg Bool.false_ne_true]
  refine ⟨hsound, ?_, ?_, fun p hp => hB.valid p ((hmem p).mp hp).1⟩
  · rw [List.filter_append, List.filter_eq_nil_iff.mpr fun b hb => by rw [hon b hb]; decide]
    exact hp
  · have hall := hB.carved.filter fun b => onAny kept b.ptr
    rw [List.filter_append, List.filter_eq_self.mpr hF, List.filter_append, List.filter_eq_self.mpr hlive,
      List.filter_flatMap, List.flatMap_congr hcarved] at hall
    rw [List.filter_append, List.filter_eq_self.mpr hon]
    exact hall.trans ((List.Perm.of_eq (flatMap_ite _ _ _)).trans (hk.symm.flatMap_right _))

theorem heldBytes_retain (hF : ∀ b ∈ freeBlocks F, b.onSlab = true) (hG : ∀ b ∈ freeBlocks G, b.onSlab = true)
    (hk : kept.Perm (pages.filter (busy live))) : heldBytes pages (freeBlocks F ++ live) =
      heldBytes kept (freeBlocks G ++ live) + (pages.filter fun p => !busy live p).length * SLAB_PAGE_SIZE := by
  have hlen := List.length_eq_length_filter_add (l := pages) (busy live)
  rw [← hk.length_eq] at hlen
  rw [heldBytes, heldBytes, List.map_append, List.map_append, List.sum_append, List.sum_append, sum_off_slab hF,
    sum_off_slab hG, hlen, Nat.add_mul]
  omega

def freeCount (F : ℕ → List ℕ) (p : Page) : ℕ := (freeBlocks F).countP fun b => p.Has b.ptr

/-- The pages that stay, in the order of their addresses. -/
def keptPages (live : List Block) (pages : List Page) : List Page := (sortPages pages).filter (busy live)

theorem keptPages_perm (live : List Block) (pages : List Page) :
    (keptPages live pages).Perm (pages.filter (busy live)) := (sortPages_perm pages).filter _

theorem mem_keptPages : p ∈ keptPages live pages ↔ p ∈ pages ∧ busy live p = true :=
  (keptPages_perm live pages).mem_iff.trans List.mem_filter

theorem Inv.listPages_ok (hI : Inv w F pages) : listPages w.heap (ADDRESSES + 1) w.alloc.slabPages [] =
    .ok (pages.map (census fun _ => 0)) := by
  have hB := hI.holds
  have hlist := Alloc.listPages_ok [] hI.links.slab (fun p hp => ⟨hI.links.header p hp, (hB.valid p hp).1⟩)
    (fun p hp => ⟨hB.owns_header (a := 0) hp (by decide), hB.owns_header hp (by decide)⟩)
    (Nat.lt_succ_of_le hB.pages_short)
  rwa [List.nil_append] at hlist

/-- Without larger classes every free block lies on a page. -/
theorem Inv.free_on_page (hI : Inv w F pages) (hnil : ∀ c, isSlabClass c = false → F c = [])
    (hc : c < NUM_CLASSES) (ha : a ∈ F c) : ∃ p ∈ pages, p.Has a := by
  have hs : isSlabClass c = true := by
    by_contra hs
    rw [hnil c (eq_false_of_ne_true hs)] at ha
    cases ha
  exact hI.holds.on_some_page (List.mem_append_left _ (mem_freeBlocks.mpr ⟨c, hc, a, ha, rfl⟩))
    (by rw [Block.onSlab_ofClass hc, hs])

theorem Inv.countClasses_ok (hI : Inv w F pages) (hnil : ∀ c, isSlabClass c = false → F c = []) :
    (List.range NUM_CLASSES).foldlM (countClass w.alloc w.heap) ((sortPages pages).map (census fun _ => 0)) =
      .ok ((sortPages pages).map (census (freeCount F))) := by
  have hB := hI.holds
  have hclass : ∀ c ∈ List.range NUM_CLASSES, c < NUM_CLASSES := fun c hc => List.mem_range.mp hc
  rw [Alloc.countClasses_ok _ (sortPages_ascending hB.pages_apart) hclass hnil
    (fun c hc => hI.links.chain c (hclass c hc)) (fun c hc a ha => (hB.free_lt (hclass c hc) ha).2) ?_
    (fun c hc => hB.free_short (hclass c hc))]
  · congr 2
    funext p
    rw [census, census, countP_blocks, Nat.zero_add]
    rfl
  · intro c hc a ha
    obtain ⟨p, hp, hhas⟩ := hI.free_on_page hnil (hclass c hc) ha
    exact ⟨p, (sortPages_perm pages).mem_iff.mpr hp, hhas⟩

theorem Inv.unlinkClasses_ok (hI : Inv w F pages) (hnil : ∀ c, isSlabClass c = false → F c = []) : ∃ s' m',
    (List.range NUM_CLASSES).foldlM (unlinkClass ((sortPages pages).map (census (freeCount F))))
      (w.alloc, w.heap) =
      .ok (s', ⟨m', w.heap.held⟩) ∧
    Links s' m' (fun c => (F c).filter (onAny (keptPages w.live pages))) pages ∧
    s'.bytesInUse = w.alloc.bytesInUse ∧ s'.liveAllocs = w.alloc.liveAllocs := by
  have hB := hI.holds
  have hkeep : ∀ c < NUM_CLASSES, ∀ a ∈ F c, onFreePage ((sortPages pages).map (census (freeCount F))) a =
      .ok (!onAny (keptPages w.live pages) a) := by
    intro c hc a ha
    obtain ⟨p, hp, hhas⟩ := hI.free_on_page hnil hc ha
    rw [onFreePage_ok (sortPages_ascending hB.pages_apart) ((sortPages_perm pages).mem_iff.mpr hp) hhas,
      hB.onAny_eq (fun _ => mem_keptPages) hp hhas]
    exact congrArg Except.ok (isFree_census hI hp)
  obtain ⟨s', m', hfold, hlinks, hbytes, hallocs⟩ := Alloc.unlinkClasses_ok (G := F)
    (fun c hc => List.mem_range.mp hc) List.nodup_range hB hnil hkeep (fun _ => List.Sublist.refl _) hI.links
  refine ⟨s', m', hfold, ⟨fun c hc => ?_, hlinks.slab, hlinks.header⟩, hbytes, hallocs⟩
  have hchain := hlinks.chain c hc
  rwa [if_pos (List.mem_range.mpr hc)] at hchain

/-- The pages that stay are linked anew and the others given back. -/
theorem Inv.rebuild_ok (hI : Inv w F pages) (hnil : ∀ c, isSlabClass c = false → F c = []) {s' : NodeAlloc}
    {m' : Memory} (hl : Links s' m' (fun c => (F c).filter (onAny (keptPages w.live pages))) pages)
    (hbytes : s'.bytesInUse = w.alloc.bytesInUse) (hallocs : s'.liveAllocs = w.alloc.liveAllocs) (released : ℕ) :
    ∃ head h', rebuildSlabs ((sortPages pages).map (census (freeCount F))).reverse 0 ⟨m', w.heap.held⟩ released =
        .ok (head, h', released + (pages.filter fun p => !busy w.live p).length * SLAB_PAGE_SIZE) ∧
      Inv ⟨{ s' with slabPages := head }, h', w.live⟩ (fun c => (F c).filter (onAny (keptPages w.live pages)))
        (keptPages w.live pages) ∧
      w.heap.held.Perm (h'.held ++ (pages.filter fun p => !busy w.live p).map Page.chunk) := by
  have hB := hI.holds
  have hsort := sortPages_perm pages
  have hmem : ∀ p, p ∈ (sortPages pages).reverse ↔ p ∈ pages := fun p => List.mem_reverse.trans hsort.mem_iff
  have hF : ∀ b ∈ freeBlocks F, b.onSlab = true := by
    intro b hb
    obtain ⟨c, hc, a, ha, rfl⟩ := mem_freeBlocks.mp hb
    rw [Block.onSlab_ofClass hc]
    by_contra hs
    rw [hnil c (eq_false_of_ne_true hs)] at ha
    cases ha
  have hheld := hB.held
  rw [List.filter_append, List.filter_eq_nil_iff.mpr fun b hb => by rw [hF b hb]; decide, List.nil_append]
    at hheld
  -- what goes, and what stays
  have hsplit : (pages.map Page.chunk).Perm
      ((pages.filter fun p => !busy w.live p).map Page.chunk ++
        (pages.filter (busy w.live)).map Page.chunk) := by
    rw [← List.map_append]
    exact ((List.filter_append_perm _ pages).symm.trans List.perm_append_comm).map _
  have hgo := hheld.trans (hsplit.append_right _)
  rw [List.append_assoc] at hgo
  have hfreed : ((sortPages pages).reverse.filter fun p => !busy w.live p).Perm
      (pages.filter fun p => !busy w.live p) := ((List.reverse_perm _).trans hsort).filter _
  have hheaders := (List.pairwise_append.mp hB.apart).1
  have hap : (((sortPages pages).reverse ++ []).map Page.header).Pairwise Apart := by
    rw [List.append_nil]
    exact (((List.reverse_perm _).trans hsort).symm.map _).pairwise hheaders Apart.symm
  obtain ⟨head, m₁, held', hloop, hheld', hchain, hsame⟩ := rebuildSlabs_ok (R := []) released
    (fun p hp => isFree_census hI ((hmem p).mp hp)) (by decide) rfl
    (fun p hp => ⟨hl.header p ((hmem p).mp hp), (hB.valid p ((hmem p).mp hp)).1⟩)
    (hgo.trans ((hfreed.symm.map _).append_right _))
    (fun p hp hbusy => List.mem_append_left _ (List.mem_map_of_mem
      (List.mem_filter.mpr ⟨(hmem p).mp hp, hbusy⟩)))
    (fun p hp => by
      obtain ⟨h1, h2⟩ := hB.page_bounds ((hmem p).mp hp)
      have : 0 < SLAB_PAGE_SIZE := by decide
      exact ⟨h1, by omega⟩) hap
  rw [List.append_nil, List.filter_reverse, List.reverse_reverse] at hchain
  rw [List.map_reverse, hfreed.length_eq] at hloop
  have hperm := hgo.trans (List.perm_append_comm.trans (hheld'.symm.append_right _))
  have hword : 8 ≤ SLAB_HEADER := by decide
  refine ⟨head, ⟨m₁, held'⟩, hloop, ⟨⟨fun c hc => ?_, hchain, fun p hp => ?_⟩, ?_, ?_, ?_, hI.request⟩, hperm⟩
  · refine (hl.chain c hc).congr fun a ha => readWord_congr fun y h1 h2 => hsame y fun p hp => ?_
    have happ := hB.word_header_apart hc (List.mem_filter.mp ha).1 ((hmem p).mp hp)
    unfold Apart Page.header at happ
    dsimp only at happ
    omega
  · have hp' := (mem_keptPages.mp hp).1
    refine (readWord_congr fun y h1 h2 => hsame y fun q hq => ?_).trans (hl.header p hp')
    by_cases hqp : p = q
    · subst hqp
      omega
    · have : Std.Symm fun p q : Page => Apart p.header q.header := ⟨fun _ _ happ => happ.symm⟩
      have happ := (List.pairwise_map.mp hheaders).forall hp' ((hmem q).mp hq) hqp
      have hhdr : SLAB_HEADER = 64 := rfl
      unfold Apart Page.header at happ
      dsimp only at happ
      omega
  · refine hB.retain hF (keptPages_perm _ _) ?_ (hB.sound.of_perm hperm)
    exact hheld'.trans (((keptPages_perm _ _).symm.map _).append_right _)
  · exact hbytes.trans hI.bytes
  · exact hallocs.trans hI.allocs

/-- What a call that releases `n` bytes leaves of the lists and of the chunks held. -/
structure Released (w : World) (F : ℕ → List ℕ) (pages : List Page) (n : ℕ) (s' : NodeAlloc) (h' : Heap)
    (kept : List Page) : Prop where
  inv : Inv ⟨s', h', w.live⟩ (fun c => (F c).filter (onAny kept)) kept
  stays : kept.Perm (pages.filter (busy w.live))
  held : w.heap.held.Perm (h'.held ++ ((pages.filter fun p => !busy w.live p).map Page.chunk ++
    freeChunks F (List.range NUM_CLASSES)))
  bytes : heldBytes pages (freeBlocks F ++ w.live) =
    heldBytes kept (freeBlocks (fun c => (F c).filter (onAny kept)) ++ w.live) + n

theorem releaseUnused_released (hI : Inv w F pages) (hz : w.alloc.bytesInUse = 0) : ∃ n s' h',
    w.alloc.releaseAllUnused w.heap = .ok (n, s', h') ∧ Released w F pages n s' h' [] := by
  obtain ⟨s', h', hrun, hinv, hheld⟩ := releaseAllUnused_spec hI hz
  have hnone : ∀ c < NUM_CLASSES, (F c).filter (onAny []) = [] := fun c _ => by
    rw [List.filter_eq_nil_iff]
    intro a _ ha
    cases ha
  refine ⟨_, s', h', hrun, hinv.of_lists hnone, ?_, ?_, ?_⟩
  · rw [hI.live_nil hz, List.filter_eq_nil_iff.mpr fun p _ hp => by cases hp]
  · have hgo : (pages.filter fun p => !busy [] p) = pages := List.filter_eq_self.mpr fun p _ => rfl
    rw [hI.live_nil hz, hgo]
    exact hheld
  · rw [freeBlocks_congr hnone, freeBlocks_nil, hI.live_nil hz]
    exact (Nat.zero_add _).symm

/-- With a live block on every page the pages stay, and the blocks of the larger classes go. -/
theorem releaseSystem_released (hI : Inv w F pages) (hbusy : ∀ p ∈ pages, busy w.live p = true) {s' : NodeAlloc}
    {h' : Heap} (hinv : Inv ⟨s', h', w.live⟩ (slabLists F) pages)
    (hheld : w.heap.held.Perm (h'.held ++ freeChunks F (List.range NUM_CLASSES)))
    (hbytes : heldBytes pages (freeBlocks F ++ w.live) =
      heldBytes pages (freeBlocks (slabLists F) ++ w.live) + freeBytes F (List.range NUM_CLASSES)) :
    Released w F pages (freeBytes F (List.range NUM_CLASSES)) s' h' pages := by
  have hlists : ∀ c < NUM_CLASSES, (F c).filter (onAny pages) = slabLists F c := fun c hc => hI.filter_pages hc
  refine ⟨hinv.of_lists hlists, ?_, ?_, ?_⟩
  · rw [List.filter_eq_self.mpr hbusy]
  · rw [List.filter_eq_nil_iff.mpr fun p hp => by rw [hbusy p hp]; decide]
    exact hheld
  · rw [freeBlocks_congr hlists]
    exact hbytes

theorem any_free (hI : Inv w F pages) : ((sortPages pages).map
    (census (freeCount F))).any PageCount.isFree = true ↔
    ¬ ∀ p ∈ pages, busy w.live p = true := by
  rw [List.any_map, List.any_eq_true]
  constructor
  · rintro ⟨p, hp, hfree⟩ hall
    have hp' := (sortPages_perm pages).mem_iff.mp hp
    have hcount := isFree_census hI hp'
    rw [hall p hp'] at hcount
    exact Bool.false_ne_true (hcount.symm.trans hfree)
  · intro hsome
    push Not at hsome
    obtain ⟨p, hp, hidle⟩ := hsome
    refine ⟨p, (sortPages_perm pages).mem_iff.mpr hp, (isFree_census hI hp).trans ?_⟩
    rw [eq_false_of_ne_true hidle]
    rfl

theorem releaseFree_spec (hI : Inv w F pages) : ∃ n s' h' kept,
    w.alloc.releaseFree w.heap = .ok (n, s', h') ∧ Released w F pages n s' h' kept := by
  unfold releaseFree
  by_cases hz : w.alloc.bytesInUse = 0
  · rw [if_pos hz]
    obtain ⟨n, s', h', hrun, hrel⟩ := releaseUnused_released hI hz
    exact ⟨n, s', h', [], hrun, hrel⟩
  rw [if_neg hz]
  obtain ⟨s₁, h₁, hdrop, hinv, hheld, hbytes⟩ := releaseSystem_spec hI
  have hnil : ∀ c, isSlabClass c = false → slabLists F c = [] := fun c hs => by
    rw [slabLists, hs, if_neg Bool.false_ne_true]
  have hlist := hinv.listPages_ok
  have hcount := hinv.countClasses_ok hnil
  dsimp only at hlist hcount
  simp only [hdrop, hlist, ok_bind, List.map_eq_nil_iff, sort_census, hcount, pure_eq_ok]
  by_cases hnone : pages = []
  · rw [if_pos hnone]
    exact ⟨_, s₁, h₁, pages, rfl, releaseSystem_released hI (by simp [hnone]) hinv hheld hbytes⟩
  rw [if_neg hnone]
  by_cases hall : ∀ p ∈ pages, busy w.live p = true
  · rw [if_pos fun hfree => (any_free hinv).mp hfree hall]
    exact ⟨_, s₁, h₁, pages, rfl, releaseSystem_released hI hall hinv hheld hbytes⟩
  rw [if_neg fun hfree => hfree ((any_free hinv).mpr hall)]
  obtain ⟨s₂, m₂, hunlink, hlinks, hb₂, ha₂⟩ := hinv.unlinkClasses_ok hnil
  obtain ⟨head, h', hbuild, hinv', hgone⟩ :=
    hinv.rebuild_ok hnil hlinks hb₂ ha₂ (freeBytes F (List.range NUM_CLASSES))
  dsimp only at hunlink hbuild
  simp only [hunlink, hbuild, ok_bind]
  have hlists : ∀ c < NUM_CLASSES, (F c).filter (onAny (keptPages w.live pages)) =
      (slabLists F c).filter (onAny (keptPages w.live pages)) :=
    fun c hc => hI.filter_kept (fun p hp => (mem_keptPages.mp hp).1) hc
  refine ⟨_, _, h', keptPages w.live pages, rfl, hinv'.of_lists hlists, keptPages_perm _ _, ?_, ?_⟩
  · refine hheld.trans ((hgone.append_right _).trans ?_)
    rw [List.append_assoc]
  · have hkept : ∀ b ∈ freeBlocks (fun c => (slabLists F c).filter (onAny (keptPages w.live pages))),
        b.onSlab = true := by
      rw [freeBlocks_filter]
      exact fun b hb => onSlab_slabLists (List.mem_filter.mp hb).1
    rw [hbytes, freeBlocks_congr hlists,
      heldBytes_retain (fun b hb => onSlab_slabLists hb) hkept (keptPages_perm w.live pages), Nat.add_assoc,
      Nat.add_comm (_ * _)]

end Expanse.Alloc
