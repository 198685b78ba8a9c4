import Expanse.Alloc.NodeAlloc

/-!
# The blocks of an allocator

A block is free or live, and lies on a slab page or was asked of the system by itself. The
free blocks are those of the freelists, class by class. What the pages carve and what the
system has granted is the free and the live blocks together.
-/

namespace Expanse.Alloc

open SysHeap NextFit Intervals
open Occ (CACHE_LINE RAW_ALIGN RAW_SIZES classFor classForRaw)

variable {bytes align c : ℕ}

theorem classForRaw_spec (h : classForRaw bytes = some c) :
    c < NUM_CLASSES ∧ classSpec c = (bytes, RAW_ALIGN) := by
  obtain ⟨i, hi, rfl⟩ := Option.map_eq_some_iff.mp h
  obtain ⟨hlt, heq, -⟩ := List.findIdx?_eq_some_iff_getElem.mp hi
  have hlen : RAW_SIZES.length = 56 := rfl
  refine ⟨by rw [NUM_CLASSES]; omega, ?_⟩
  have hget : CLASS_SPECS[i + 6]? = some (bytes, RAW_ALIGN) := by
    rw [CLASS_SPECS, List.getElem?_append_right (by simp)]
    have hsize : RAW_SIZES[i]? = some bytes := by
      rw [List.getElem?_eq_getElem hlt]
      exact congrArg some (of_decide_eq_true heq)
    simp [hsize]
  rw [classSpec, List.getD_eq_getElem?_getD, hget]
  rfl

/-- The class that serves a request has its size and its alignment. -/
theorem classFor_spec (h : classFor bytes align = some c) :
    c < NUM_CLASSES ∧ classSpec c = (bytes, align) := by
  unfold classFor at h
  split_ifs at h with hraw hline
  · rw [hraw]
    exact classForRaw_spec h
  · subst hline
    split at h
    all_goals first
      | (cases h; done)
      | (cases h; exact ⟨by decide, rfl⟩)

theorem classFor_classSpec (hc : c < NUM_CLASSES) : classFor (classSpec c).1 (classSpec c).2 = some c := by
  have h : ∀ c < NUM_CLASSES, classFor (classSpec c).1 (classSpec c).2 = some c := by decide
  exact h c hc

/-- What the table of classes promises of each. -/
structure ClassFacts (c : ℕ) : Prop where
  word : 8 ≤ (classSpec c).1
  step : (classSpec c).1 ≤ classStep c
  page : isSlabClass c = true → SLAB_HEADER + slabBlocks c * classStep c ≤ SLAB_PAGE_SIZE
  blocks : isSlabClass c = true → 0 < slabBlocks c
  layout : layoutFor (classSpec c).1 (classSpec c).2 = .ok ⟨(classSpec c).1, (classSpec c).2⟩
  slabLayout : slabPageLayout c = .ok ⟨SLAB_PAGE_SIZE, max (classSpec c).2 CACHE_LINE⟩

theorem classFacts (hc : c < NUM_CLASSES) : ClassFacts c := by
  have h : ∀ c < NUM_CLASSES, 8 ≤ (classSpec c).1 ∧ (classSpec c).1 ≤ classStep c ∧
      (isSlabClass c = true → SLAB_HEADER + slabBlocks c * classStep c ≤ SLAB_PAGE_SIZE) ∧
      (isSlabClass c = true → 0 < slabBlocks c) := by decide +kernel
  obtain ⟨h1, h2, h3, h4⟩ := h c hc
  have hlay : ∀ c < NUM_CLASSES, (classSpec c).1 ≠ 0 ∧ (classSpec c).2 ≠ 0 ∧
      (classSpec c).2 &&& ((classSpec c).2 - 1) = 0 ∧ (classSpec c).1 + (classSpec c).2 ≤ 2 ^ 63 := by
    decide +kernel
  have hspec : CLASS_SPECS[c]? = some (classSpec c) := by
    have hlen : CLASS_SPECS.length = NUM_CLASSES := rfl
    rw [classSpec, List.getD_eq_getElem?_getD, List.getElem?_eq_getElem (by omega)]
    rfl
  obtain ⟨h5, h6, h7, h8⟩ := hlay c hc
  refine ⟨h1, h2, h3, h4, ?_, ?_⟩
  · rw [layoutFor, if_neg h5, if_pos ⟨h6, h7, h8⟩]
  · rw [slabPageLayout, hspec]

theorem layoutFor_ok {l : Layout} (h : layoutFor bytes align = .ok l) :
    0 < bytes ∧ 0 < align ∧ l = ⟨bytes, align⟩ := by
  unfold layoutFor at h
  split_ifs at h with h1 h2
  cases h
  exact ⟨by omega, by omega, rfl⟩

/-- A block with the size and the alignment it was asked for. -/
structure Block where
  ptr : ℕ
  bytes : ℕ
  align : ℕ
deriving DecidableEq, Repr

namespace Block

def span (b : Block) : ℕ × ℕ := (b.ptr, b.bytes)

def accounted (b : Block) : ℕ := accountedSize b.bytes b.align

def onSlab (b : Block) : Bool :=
  match classFor b.bytes b.align with
  | some c => isSlabClass c
  | none => false

/-- The block as the system allocator knows it. -/
def chunk (b : Block) : Chunk := ⟨b.ptr, ⟨b.bytes, b.align⟩⟩

/-- A block of class `c`. -/
def ofClass (c ptr : ℕ) : Block := ⟨ptr, (classSpec c).1, (classSpec c).2⟩

@[simp] theorem ptr_ofClass (c ptr : ℕ) : (ofClass c ptr).ptr = ptr := rfl

theorem eq_ofClass {b : Block} (h : classFor b.bytes b.align = some c) : b = ofClass c b.ptr := by
  obtain ⟨-, hspec⟩ := classFor_spec h
  cases b with
  | mk ptr bytes align =>
    dsimp only at hspec h ⊢
    rw [ofClass, hspec]

theorem onSlab_of_class {b : Block} (h : classFor b.bytes b.align = some c) : b.onSlab = isSlabClass c := by
  rw [onSlab, h]

theorem onSlab_ofClass (hc : c < NUM_CLASSES) (ptr : ℕ) : (ofClass c ptr).onSlab = isSlabClass c :=
  onSlab_of_class (classFor_classSpec hc)

theorem accounted_ofClass (c ptr : ℕ) : (ofClass c ptr).accounted = classStep c := rfl

end Block

/-- A slab page: its address and its class. -/
structure Page where
  base : ℕ
  cls : ℕ
deriving DecidableEq, Repr

namespace Page

def carved (p : Page) : List Block :=
  (List.range (slabBlocks p.cls)).map fun i => .ofClass p.cls (p.base + SLAB_HEADER + i * classStep p.cls)

def header (p : Page) : ℕ × ℕ := (p.base, SLAB_HEADER)

def span (p : Page) : ℕ × ℕ := (p.base, SLAB_PAGE_SIZE)

def chunk (p : Page) : Chunk := ⟨p.base, ⟨SLAB_PAGE_SIZE, max (classSpec p.cls).2 CACHE_LINE⟩⟩

def Has (p : Page) (a : ℕ) : Prop := p.base ≤ a ∧ a < p.base + SLAB_PAGE_SIZE

instance (p : Page) (a : ℕ) : Decidable (p.Has a) := inferInstanceAs (Decidable (_ ∧ _))

def Valid (p : Page) : Prop := p.cls < NUM_CLASSES ∧ isSlabClass p.cls = true

variable {p : Page} {b : Block}

theorem owns {h : Heap} {a n : ℕ} (hm : p.chunk ∈ h.held) (hle : a + n ≤ SLAB_PAGE_SIZE) :
    h.Owns (p.base + a) n := by
  refine .of_held hm (Nat.le_add_right _ _) ?_
  change p.base + a + n ≤ p.base + SLAB_PAGE_SIZE
  omega

theorem mem_carved (h : b ∈ p.carved) :
    ∃ i < slabBlocks p.cls, b = .ofClass p.cls (p.base + SLAB_HEADER + i * classStep p.cls) := by
  obtain ⟨i, hi, rfl⟩ := List.mem_map.mp h
  exact ⟨i, List.mem_range.mp hi, rfl⟩

theorem carved_inside (hp : p.Valid) (h : b ∈ p.carved) :
    p.base + SLAB_HEADER ≤ b.ptr ∧ b.ptr + classStep p.cls ≤ p.base + SLAB_PAGE_SIZE ∧
      b.bytes ≤ classStep p.cls := by
  obtain ⟨i, hi, rfl⟩ := mem_carved h
  have hf := classFacts hp.1
  have hpage := hf.page hp.2
  have hmul : (i + 1) * classStep p.cls ≤ slabBlocks p.cls * classStep p.cls := Nat.mul_le_mul_right _ hi
  rw [Nat.add_mul, Nat.one_mul] at hmul
  refine ⟨?_, ?_, hf.step⟩
  · rw [Block.ptr_ofClass]
    omega
  · rw [Block.ptr_ofClass]
    omega

theorem onSlab_carved (hp : p.Valid) (h : b ∈ p.carved) : b.onSlab = true := by
  obtain ⟨i, -, rfl⟩ := mem_carved h
  rw [Block.onSlab_ofClass hp.1, hp.2]

theorem parts_apart (hp : p.Valid) : (p.header :: p.carved.map Block.span).Pairwise Apart := by
  rw [List.pairwise_cons]
  constructor
  · intro x hx
    obtain ⟨b, hb, rfl⟩ := List.mem_map.mp hx
    exact .inl (carved_inside hp hb).1
  · rw [carved, List.map_map, List.pairwise_map]
    refine List.pairwise_lt_range.imp ?_
    intro i j hij
    have hf := classFacts hp.1
    have hmul : (i + 1) * classStep p.cls ≤ j * classStep p.cls := Nat.mul_le_mul_right _ hij
    rw [Nat.add_mul, Nat.one_mul] at hmul
    have hstep := hf.step
    refine .inl ?_
    change p.base + SLAB_HEADER + i * classStep p.cls + (classSpec p.cls).1 ≤
      p.base + SLAB_HEADER + j * classStep p.cls
    omega

end Page

def freeBlocks (F : ℕ → List ℕ) : List Block :=
  (List.range NUM_CLASSES).flatMap fun c => (F c).map (.ofClass c)

variable {F : ℕ → List ℕ} {b : Block}

theorem mem_freeBlocks : b ∈ freeBlocks F ↔ ∃ c < NUM_CLASSES, ∃ a ∈ F c, b = .ofClass c a := by
  simp only [freeBlocks, List.mem_flatMap, List.mem_range, List.mem_map]
  constructor
  · rintro ⟨c, hc, a, ha, rfl⟩
    exact ⟨c, hc, a, ha, rfl⟩
  · rintro ⟨c, hc, a, ha, rfl⟩
    exact ⟨c, hc, a, ha, rfl⟩

@[simp] theorem freeBlocks_nil : freeBlocks (fun _ => []) = [] := by simp [freeBlocks]

theorem freeBlocks_cut (hc : c < NUM_CLASSES) (F : ℕ → List ℕ) :
    ∃ pre post, ∀ l, freeBlocks (Function.update F c l) = pre ++ (l.map (.ofClass c) ++ post) := by
  have hsplit : List.range NUM_CLASSES = List.range c ++ c :: (List.range (NUM_CLASSES - (c + 1))).map
      (c + 1 + ·) := by
    have h : NUM_CLASSES = c + (NUM_CLASSES - (c + 1) + 1) := by omega
    conv_lhs => rw [h, List.range_add, List.range_succ_eq_map]
    simp [Function.comp_def, Nat.add_assoc, Nat.add_comm 1]
  refine ⟨(List.range c).flatMap fun d => (F d).map (.ofClass d),
    ((List.range (NUM_CLASSES - (c + 1))).map (c + 1 + ·)).flatMap fun d => (F d).map (.ofClass d), ?_⟩
  intro l
  rw [freeBlocks, hsplit, List.flatMap_append, List.flatMap_cons, Function.update_self]
  congr 1
  · apply List.flatMap_congr
    intro d hd
    rw [Function.update_of_ne (by have := List.mem_range.mp hd; omega)]
  · congr 1
    apply List.flatMap_congr
    intro d hd
    obtain ⟨i, -, rfl⟩ := List.mem_map.mp hd
    rw [Function.update_of_ne (by omega)]

theorem freeBlocks_push (hc : c < NUM_CLASSES) (a : ℕ) :
    (freeBlocks (Function.update F c (a :: F c))).Perm (.ofClass c a :: freeBlocks F) := by
  obtain ⟨pre, post, hcut⟩ := freeBlocks_cut hc F
  have hself := hcut (F c)
  rw [Function.update_eq_self] at hself
  rw [hcut, hself]
  exact List.perm_middle

theorem freeBlocks_append (hc : c < NUM_CLASSES) (l : List ℕ) (hnil : F c = []) :
    (freeBlocks (Function.update F c l)).Perm (l.map (.ofClass c) ++ freeBlocks F) := by
  obtain ⟨pre, post, hcut⟩ := freeBlocks_cut hc F
  have hself := hcut (F c)
  rw [Function.update_eq_self, hnil] at hself
  rw [hcut, hself]
  simp only [List.map_nil, List.nil_append, ← List.append_assoc]
  exact List.perm_append_comm.append_right post

theorem freeBlocks_pop (hc : c < NUM_CLASSES) {a : ℕ} {l : List ℕ} (h : F c = a :: l) :
    (freeBlocks F).Perm (.ofClass c a :: freeBlocks (Function.update F c l)) := by
  have hpush := freeBlocks_push (F := Function.update F c l) hc a
  rw [Function.update_self, Function.update_idem, ← h, Function.update_eq_self] at hpush
  exact hpush

end Expanse.Alloc
