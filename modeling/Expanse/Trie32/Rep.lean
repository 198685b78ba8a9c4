import Expanse.Trie32.Owned
import Expanse.Trie32.TreeSpec

/-!
# How a tree is stored

`Rep fl kb e t C` says that the edge `e` and the cells `C` store the tree `t`: each leaf and each
branch has a cell of its own, and a branch counts the keys below it up to a word. What else
the arena holds is a frame beside `C`.
-/

namespace Expanse.Trie32

open SortedAssoc Trie32.Tree

def bitmapNode (fl : Flavour) (l : List (ℕ × ℕ)) : Node :=
  match fl with
  | .set => .bitmap (setBitmapOf l)
  | .map => .mapBitmap (mapBitmapOf l)

def RepKids (R : Edge32 → Tree → Cells → Prop) : List (ℕ × Edge32) → List (ℕ × Tree) → Cells → Prop
  | [], [], C => C = 0
  | (d, e) :: es, (d', c) :: kids, C =>
    d = d' ∧ ∃ C₁ C₂, R e c C₁ ∧ RepKids R es kids C₂ ∧ C = C₁ + C₂
  | _, _, _ => False

/-- What a branch stores as the number of keys below it. -/
def branchCount (kb : ℕ) (kids : List (ℕ × Tree)) : ℕ :=
  (fanout (256 ^ kb) (entries kb) kids).length % COUNT_MOD

def Rep (fl : Flavour) : ℕ → Edge32 → Tree → Cells → Prop
  | _, e, .null, C => e = .null ∧ C = 0
  | kb, e, .immed l, C => e = immedEdge fl kb l ∧ C = 0
  | kb, e, .leaf l, C => ∃ h, e = leafEdge fl kb h l.length ∧ C = {(h, .leaf (valueWidth fl) kb l)}
  | _, e, .bitmap l, C => ∃ h, e = bitmapEdge fl h ∧ C = {(h, .node (bitmapNode fl l))}
  | kb + 1, e, .branch form kids, C => ∃ h es Ck, e = .branch form h ∧ RepKids (Rep fl kb) es kids Ck ∧
      C = (h, .node (branchNode form (kb + 1) (branchCount kb kids) es)) ::ₘ Ck
  | 0, _, .branch _ _, _ => False

variable {fl : Flavour} {kb rem val d fuel h : ℕ} {l : List (ℕ × ℕ)} {form : Form}
  {kids k₁ k₂ : List (ℕ × Tree)} {c c' t : Tree} {e e' : Edge32} {es es₁ es₂ : List (ℕ × Edge32)}
  {C C₁ C₂ F : Cells} {a : Arena} {R : Edge32 → Tree → Cells → Prop}

theorem rep_null : Rep fl kb e null C ↔ e = .null ∧ C = 0 := by cases kb <;> rfl

theorem rep_immed : Rep fl kb e (immed l) C ↔ e = immedEdge fl kb l ∧ C = 0 := by cases kb <;> rfl

theorem rep_leaf : Rep fl kb e (leaf l) C ↔
    ∃ h, e = leafEdge fl kb h l.length ∧ C = {(h, .leaf (valueWidth fl) kb l)} := by
  cases kb <;> rfl

theorem rep_bitmap : Rep fl kb e (bitmap l) C ↔
    ∃ h, e = bitmapEdge fl h ∧ C = {(h, .node (bitmapNode fl l))} := by
  cases kb <;> rfl

theorem rep_branch : Rep fl (kb + 1) e (branch form kids) C ↔
    ∃ h es Ck, e = .branch form h ∧ RepKids (Rep fl kb) es kids Ck ∧
      C = (h, .node (branchNode form (kb + 1) (branchCount kb kids) es)) ::ₘ Ck := Iff.rfl

theorem Rep.live (hrep : Rep fl kb e t C) (hok : Ok fl kb t) (hne : t ≠ null) : e ≠ .null := by
  cases t with
  | null => exact absurd rfl hne
  | immed l =>
    rw [(rep_immed.mp hrep).1]
    cases fl with
    | set => simp [immedEdge]
    | map =>
      have hone := (ok_immed.mp hok).2.1
      cases l with
      | nil => exact absurd hone (by decide)
      | cons x l => simp [immedEdge]
  | leaf l =>
    obtain ⟨h, rfl, -⟩ := rep_leaf.mp hrep
    cases fl <;> simp [leafEdge]
  | bitmap l =>
    obtain ⟨h, rfl, -⟩ := rep_bitmap.mp hrep
    cases fl <;> simp [bitmapEdge]
  | branch form kids =>
    cases kb with
    | zero => exact absurd hrep id
    | succ kb =>
      obtain ⟨h, es, Ck, rfl, -⟩ := rep_branch.mp hrep
      simp

theorem repKids_nil : RepKids R [] [] 0 := rfl

theorem repKids_cons (h : R e c C₁) (hs : RepKids R es kids C₂) :
    RepKids R ((d, e) :: es) ((d, c) :: kids) (C₁ + C₂) := ⟨rfl, C₁, C₂, h, hs, rfl⟩

theorem RepKids.nil (h : RepKids R [] kids C) : kids = [] ∧ C = 0 := by
  cases kids with
  | nil => exact ⟨rfl, h⟩
  | cons y kids => exact absurd h id

theorem RepKids.append (h₁ : RepKids R es₁ k₁ C₁) (h₂ : RepKids R es₂ k₂ C₂) :
    RepKids R (es₁ ++ es₂) (k₁ ++ k₂) (C₁ + C₂) := by
  induction es₁ generalizing k₁ C₁ with
  | nil =>
    cases k₁ with
    | nil =>
      rw [show C₁ = 0 from h₁, zero_add]
      exact h₂
    | cons a k₁ => exact absurd h₁ id
  | cons x es₁ ih =>
    cases k₁ with
    | nil => exact absurd h₁ id
    | cons y k₁ =>
      obtain ⟨hd, D₁, D₂, hr, hs, rfl⟩ := h₁
      exact ⟨hd, D₁, D₂ + C₂, hr, ih hs, add_assoc _ _ _⟩

/-- The edges fall apart where the children do. -/
theorem RepKids.split (h : RepKids R es (k₁ ++ k₂) C) :
    ∃ es₁ es₂ C₁ C₂, es = es₁ ++ es₂ ∧ RepKids R es₁ k₁ C₁ ∧ RepKids R es₂ k₂ C₂ ∧ C = C₁ + C₂ := by
  induction k₁ generalizing es C with
  | nil => exact ⟨[], es, 0, C, rfl, rfl, h, (zero_add C).symm⟩
  | cons y k₁ ih =>
    cases es with
    | nil => exact absurd h id
    | cons x es =>
      obtain ⟨hd, D₁, D₂, hr, hs, rfl⟩ := h
      obtain ⟨es₁, es₂, E₁, E₂, rfl, h₁, h₂, rfl⟩ := ih hs
      exact ⟨x :: es₁, es₂, D₁ + E₁, E₂, rfl, ⟨hd, D₁, E₁, hr, h₁, rfl⟩, h₂, (add_assoc _ _ _).symm⟩

theorem RepKids.cut (h : RepKids R es (k₁ ++ (d, c) :: k₂) C) :
    ∃ es₁ e es₂ C₁ Cc C₂, es = es₁ ++ (d, e) :: es₂ ∧ RepKids R es₁ k₁ C₁ ∧ R e c Cc ∧
      RepKids R es₂ k₂ C₂ ∧ C = Cc + (C₁ + C₂) := by
  obtain ⟨es₁, es₂, C₁, D, rfl, h₁, h₂, rfl⟩ := h.split
  cases es₂ with
  | nil => exact absurd h₂ id
  | cons x es₂ =>
    obtain ⟨rfl, Cc, C₂, hr, hs, rfl⟩ := h₂
    exact ⟨es₁, x.2, es₂, C₁, Cc, C₂, rfl, h₁, hr, hs, by abel⟩

theorem RepKids.join (h₁ : RepKids R es₁ k₁ C₁) (hr : R e c C) (h₂ : RepKids R es₂ k₂ C₂) :
    RepKids R (es₁ ++ (d, e) :: es₂) (k₁ ++ (d, c) :: k₂) (C + (C₁ + C₂)) := by
  have := h₁.append (repKids_cons (d := d) hr h₂)
  rwa [show C₁ + (C + C₂) = C + (C₁ + C₂) by abel] at this

theorem RepKids.keys (h : RepKids R es kids C) : es.map Prod.fst = kids.map Prod.fst := by
  induction es generalizing kids C with
  | nil =>
    cases kids with
    | nil => rfl
    | cons y kids => exact absurd h id
  | cons x es ih =>
    cases kids with
    | nil => exact absurd h id
    | cons y kids =>
      obtain ⟨hd, D₁, D₂, -, hs, -⟩ := h
      rw [List.map_cons, List.map_cons, ih hs, hd]

theorem RepKids.length (h : RepKids R es kids C) : es.length = kids.length := by
  simpa using congrArg List.length h.keys

theorem RepKids.mem (h : RepKids R es kids C) {x : ℕ × Edge32} (hx : x ∈ es) :
    ∃ c C', (x.1, c) ∈ kids ∧ R x.2 c C' := by
  induction es generalizing kids C with
  | nil => exact absurd hx List.not_mem_nil
  | cons y es ih =>
    cases kids with
    | nil => exact absurd h id
    | cons z kids =>
      obtain ⟨hd, D₁, D₂, hr, hs, -⟩ := h
      rcases List.mem_cons.mp hx with rfl | hx
      · exact ⟨z.2, D₁, by rw [hd]; exact List.mem_cons_self, hr⟩
      · obtain ⟨c, C', hc, hr'⟩ := ih hs hx
        exact ⟨c, C', List.mem_cons_of_mem z hc, hr'⟩

theorem RepKids.edges (h : RepKids (Rep fl kb) es kids C) (hf : Fork fl kb form kids) : Kids es where
  sorted := by
    have := keySorted_iff.mp hf.sorted
    rw [← h.keys] at this
    exact keySorted_iff.mpr this
  bound x hx := by
    obtain ⟨c, -, hc, -⟩ := h.mem hx
    exact (hf.kids _ hc).1
  live x hx := by
    obtain ⟨c, C', hc, hr⟩ := h.mem hx
    exact hr.live (hf.kids _ hc).2.2 (hf.kids _ hc).2.1

theorem RepKids.cutAt (h₁ : RepKids R es₁ k₁ C₁) (h₂ : RepKids R es₂ k₂ C₂) (hcut : CutAt d k₁ k₂) :
    CutAt d es₁ es₂ where
  below x hx := by
    obtain ⟨c, -, hc, -⟩ := h₁.mem hx
    exact hcut.below _ hc
  above x hx := by
    obtain ⟨c, -, hc, -⟩ := h₂.mem hx
    exact hcut.above _ hc

theorem cells_child (x : ℕ × Desc) : (x ::ₘ (C + (C₁ + C₂))) + F = C + (x ::ₘ (C₁ + C₂ + F)) := by
  rw [← Multiset.singleton_add, ← Multiset.singleton_add]
  abel

theorem cells_branch (x : ℕ × Desc) : (x ::ₘ C) + F = x ::ₘ (C + F) := Multiset.cons_add x C F

theorem cells_single (x : ℕ × Desc) : ({x} : Cells) + F = x ::ₘ F := Multiset.singleton_add x F

theorem cells_rotate (x : ℕ × Desc) : C + (x ::ₘ (C₁ + C₂ + F)) = x ::ₘ (C + (C₁ + C₂) + F) := by
  rw [← Multiset.singleton_add, ← Multiset.singleton_add]
  abel

end Expanse.Trie32
