import Expanse.Trie32.Rep

/-!
# The walks follow the trees

On an arena that stores a tree, each walk ends without a fault and does to the stored tree what
the operation on trees does: the same answer, and an arena that stores the tree after it. The
flag of the walk does not matter. What lies beside the tree in the arena is untouched.

A reader only needs that the arena stores a tree at an edge, not where its cells are. Each form
of the tree says what stands at the edge, and the children of a branch are stored in turn.
-/

namespace Expanse.Trie32

open Packed Radix SortedAssoc Trie32.Tree

variable {fl : Flavour} {kb rem val d fuel h n : ℕ} {l l₁ l₂ : List (ℕ × ℕ)} {form : Form}
  {kids k₁ k₂ : List (ℕ × Tree)} {c c' t : Tree} {e e' : Edge32} {es es₁ es₂ : List (ℕ × Edge32)}
  {C C₁ C₂ F X : Cells} {a : Arena} {buf : List ℕ} {vw w : ℕ}

theorem Held.zero (h : Held .set kb l) : ∀ e ∈ l, e.2 = 0 := fun e he => by
  have := (h.fit e he).2
  simpa [valueWidth] using this

theorem Held.map_keys (h : Held .set kb l) : (l.map Prod.fst).map (fun k => (k, 0)) = l := by
  rw [List.map_map]
  conv_rhs => rw [← List.map_id l]
  exact List.map_congr_left fun e he => Prod.ext rfl (h.zero e he).symm

@[simp] theorem kind_null : kind fl .null = .null := by cases fl <;> rfl

theorem kind_immed (hl : Held fl kb l) (h1 : 1 ≤ l.length) (hcap : l.length ≤ immedCap fl kb) :
    kind fl (immedEdge fl kb l) = .immed l := by
  cases fl with
  | set =>
    show Kind.immed ((l.map Prod.fst).map fun k => (k, 0)) = _
    rw [hl.map_keys]
  | map =>
    have h2 : l.length ≤ 1 := le_trans hcap (by unfold immedCap; dsimp only; split_ifs <;> omega)
    obtain ⟨x, rfl⟩ := List.length_eq_one_iff.mp (by omega : l.length = 1)
    rfl

@[simp] theorem kind_leaf {pop : ℕ} : kind fl (leafEdge fl kb h pop) = .leaf h pop := by cases fl <;> rfl

@[simp] theorem kind_bitmap : kind fl (bitmapEdge fl h) = .bitmap h := by cases fl <;> rfl

@[simp] theorem kind_branch : kind fl (.branch form h) = .branch form h := by cases fl <;> rfl

theorem leaf_hit (hb : LeafHolds vw kb (l₁ ++ (rem, w) :: l₂) buf) :
    l₁.length < (l₁ ++ (rem, w) :: l₂).length ∧
      readRem (keysOff vw (l₁ ++ (rem, w) :: l₂).length) kb buf l₁.length = rem :=
  ⟨by simp, hb.readKey getElem?_cut⟩

theorem leaf_miss (hb : LeafHolds vw kb (l₁ ++ l₂) buf) (hcut : CutAt rem l₁ l₂) :
    ¬ (l₁.length < (l₁ ++ l₂).length ∧ readRem (keysOff vw (l₁ ++ l₂).length) kb buf l₁.length = rem) := by
  rintro ⟨hlt, hk⟩
  have hget : (l₁ ++ l₂)[l₁.length]? = some (l₁ ++ l₂)[l₁.length] := List.getElem?_eq_getElem hlt
  rw [hb.readKey hget] at hk
  exact hcut.not_mem _ (by rw [← hk]; exact List.getElem_mem hlt)

theorem Held.zero_lookup (hl : Held .set kb l) (h : l.lookup rem = some w) : w = 0 :=
  hl.zero (rem, w) ((lookup_eq_some_iff hl.sorted).mp h)

theorem makeBitmap_spec (fl : Flavour) (ho : Owned a F) (hr : Room a 1 0) (hs : KeySorted l) :
    ∃ h a', makeBitmap fl a l = .ok (bitmapEdge fl h, a') ∧
      Owned a' ((h, .node (bitmapNode fl l)) ::ₘ F) ∧ Spent a a' 1 0 := by
  cases fl with
  | set =>
    obtain ⟨h, a', ha, ho', hsp⟩ := alloc_spec ho hr (fits_node (.bitmap (setBitmapOf l)))
    refine ⟨h, a', ?_, ho', hsp⟩
    rw [makeBitmap]
    dsimp only
    rw [bitmapFromKeys_eq hs, ha]
    rfl
  | map =>
    obtain ⟨h, a', ha, ho', hsp⟩ := alloc_spec ho hr (fits_node (.mapBitmap (mapBitmapOf l)))
    refine ⟨h, a', ?_, ho', hsp⟩
    rw [makeBitmap]
    dsimp only
    rw [ha]
    rfl

theorem bitmapInsertAt_spec (shared : Bool) (hl : Held fl 1 l) (hne : l ≠ []) (hd : d < 256)
    (ho : Owned a ((h, .node (bitmapNode fl l)) ::ₘ F)) (hr : Room a 0 1) (val : ℕ) :
    ∃ a', bitmapInsertAt shared fl a h d val = .ok (l.lookup d, a') ∧
      Owned a' ((h, .node (bitmapNode fl (put d val l))) ::ₘ F) ∧ Spent a a' 0 1 := by
  cases fl with
  | set =>
    obtain ⟨a', ha, ho', hsp⟩ := setBitmapInsertAt_spec shared hl.sorted ho d val
    refine ⟨a', ?_, ho', hsp.mono le_rfl (by omega)⟩
    rw [bitmapInsertAt, ha, ok_bind]
    cases hlk : l.lookup d with
    | none => rfl
    | some w =>
      rw [hl.zero_lookup hlk]
      rfl
  | map => exact mapBitmapInsertAt_spec shared hl.sorted hne hd ho hr val

theorem find_spec (ho : Owned a (C + F)) (hrep : Rep fl kb e t C) (hok : Ok fl kb t) (h1 : 1 ≤ kb)
    (hr : rem < 256 ^ kb) (hf : kb ≤ fuel) : find fl a fuel e kb rem = .ok (t.find kb rem) := by
  induction kb generalizing fuel e t rem C F with
  | zero => omega
  | succ kb ih =>
    obtain ⟨fuel, rfl⟩ : ∃ m, fuel = m + 1 := ⟨fuel - 1, by omega⟩
    cases t with
    | null =>
      rw [(rep_null.mp hrep).1, find, kind_null]
      rfl
    | immed l =>
      obtain ⟨hl, hone, hcap⟩ := ok_immed.mp hok
      rw [(rep_immed.mp hrep).1, find, kind_immed hl hone hcap]
      rfl
    | leaf l =>
      obtain ⟨h, rfl, rfl⟩ := rep_leaf.mp hrep
      obtain ⟨hl, -, -⟩ := ok_leaf.mp hok
      rw [cells_single] at ho
      obtain ⟨buf, hn, hb⟩ := ho.find_leaf
      rw [find, kind_leaf]
      dsimp only
      rw [leaf_eq hn hb.fits, ok_bind, leafLowerBound_eq hb hl.sorted]
      show _ = Except.ok (l.lookup rem)
      rcases hl.sorted.cut_cases rem with ⟨l₁, w, l₂, rfl, hcut⟩ | ⟨l₁, l₂, rfl, hcut⟩
      · rw [lowerBound_cut_mem hcut, if_pos (leaf_hit hb), hb.readVal getElem?_cut, lookup_cut hl.sorted]
        rfl
      · rw [lowerBound_cut_new hcut, if_neg (leaf_miss hb hcut), lookup_eq_none hl.sorted hcut.not_mem]
        rfl
    | bitmap l =>
      obtain ⟨h, rfl, rfl⟩ := rep_bitmap.mp hrep
      obtain ⟨hkb, hl, -⟩ := ok_bitmap.mp hok
      rw [cells_single] at ho
      have h256 : rem < 256 := by simpa [hkb] using hr
      rw [find, kind_bitmap]
      show _ = Except.ok (l.lookup rem)
      cases fl with
      | set =>
        dsimp only
        rw [bitmap_eq ho, ok_bind, Nat.mod_eq_of_lt h256, testDigit_eq, setBitmapOf, testBit_bitsOf]
        rcases hl.sorted.cut_cases rem with ⟨l₁, w, l₂, rfl, hcut⟩ | ⟨l₁, l₂, rfl, hcut⟩
        · have hz : w = 0 := hl.zero (rem, w) (by simp)
          rw [if_pos (by simp), lookup_cut hl.sorted, hz]
          rfl
        · obtain ⟨hn₁, hn₂⟩ := not_mem_keys_of_cut hcut
          rw [if_neg (by rw [List.map_append]; simp [hn₁, hn₂]), lookup_eq_none hl.sorted hcut.not_mem]
          rfl
      | map =>
        dsimp only
        rw [mapBitmap_eq ho, ok_bind, Nat.mod_eq_of_lt h256, mapBitmapGet_eq hl.sorted h256]
    | branch form kids =>
      obtain ⟨h, es, Ck, rfl, hk, rfl⟩ := rep_branch.mp hrep
      have hb := (ok_branch.mp hok).1
      have hcr := childRem_lt rem kb
      have hedges := hk.edges hb
      rw [find, kind_branch, Tree.find]
      dsimp only
      rcases hb.sorted.cut_cases (digitAt rem (kb + 1)) with ⟨k₁, c, k₂, rfl, hcut⟩ | ⟨k₁, k₂, rfl, hcut⟩
      · have hcap := hb.cap
        rw [← hk.length] at hcap
        obtain ⟨es₁, ec, es₂, C₁, Cc, C₂, rfl, -, hrc, -, rfl⟩ := hk.cut
        have hbr := cells_branch (C := Cc + (C₁ + C₂)) (F := F)
          (h, .node (branchNode form (kb + 1) (branchCount kb (k₁ ++ (digitAt rem (kb + 1), c) :: k₂))
            (es₁ ++ (digitAt rem (kb + 1), ec) :: es₂)))
        rw [branchChild_cut (hbr ▸ ho) hedges hcap, ok_bind, lookup_cut hb.sorted, Option.bind_some,
          Nat.add_sub_cancel]
        rw [cells_child] at ho
        exact ih ho hrc (hb.kids (digitAt rem (kb + 1), c) (by simp)).2.2 hb.one_le hcr (by omega)
      · have hcap := hb.cap
        rw [← hk.length] at hcap
        obtain ⟨es₁, es₂, C₁, C₂, rfl, h₁, h₂, rfl⟩ := hk.split
        rw [cells_branch] at ho
        rw [branchChild_absent ho hedges (h₁.cutAt h₂ hcut) (digit_lt' rem (kb + 1)) hcap, ok_bind,
          lookup_eq_none hb.sorted hcut.not_mem]
        rfl

section Stored

variable {fl : Flavour} {kb h : ℕ} {l : List (ℕ × ℕ)} {form : Form} {kids : List (ℕ × Tree)} {t : Tree}
  {e : Edge32} {es : List (ℕ × Edge32)} {C F : Cells} {a : Arena}

/-- The arena stores the tree `t` at the edge `e`. -/
def Stored (a : Arena) (fl : Flavour) (kb : ℕ) (e : Edge32) (t : Tree) : Prop :=
  Ok fl kb t ∧ ∃ C F, Rep fl kb e t C ∧ Owned a (C + F)

def StoredKid (a : Arena) (fl : Flavour) (kb : ℕ) (x : ℕ × Edge32) (y : ℕ × Tree) : Prop :=
  x.1 = y.1 ∧ Stored a fl kb x.2 y.2

namespace Stored

theorem ok (h : Stored a fl kb e t) : Ok fl kb t := h.1

theorem null (h : Stored a fl kb e null) : e = .null := by
  obtain ⟨-, C, F, hrep, -⟩ := h
  exact (rep_null.mp hrep).1

theorem immed (h : Stored a fl kb e (immed l)) :
    kind fl e = .immed l ∧ Held fl kb l ∧ 1 ≤ l.length ∧ l.length ≤ immedCap fl kb := by
  obtain ⟨hok, C, F, hrep, -⟩ := h
  obtain ⟨hl, hone, hcap⟩ := ok_immed.mp hok
  rw [(rep_immed.mp hrep).1]
  exact ⟨kind_immed hl hone hcap, hl, hone, hcap⟩

theorem leaf (h : Stored a fl kb e (leaf l)) : ∃ h buf, e = leafEdge fl kb h l.length ∧
    a.node h = some (.leaf buf) ∧ LeafHolds (valueWidth fl) kb l buf ∧ Held fl kb l ∧ l ≠ [] := by
  obtain ⟨hok, C, F, hrep, ho⟩ := h
  obtain ⟨h, rfl, rfl⟩ := rep_leaf.mp hrep
  obtain ⟨hl, hmin, -⟩ := ok_leaf.mp hok
  rw [cells_single] at ho
  obtain ⟨buf, hn, hb⟩ := ho.find_leaf
  exact ⟨h, buf, rfl, hn, hb, hl, List.ne_nil_of_length_pos (by omega)⟩

theorem bitmap (h : Stored a fl kb e (bitmap l)) : ∃ h, e = bitmapEdge fl h ∧
    a.node h = some (bitmapNode fl l) ∧ kb = 1 ∧ Held fl 1 l := by
  obtain ⟨hok, C, F, hrep, ho⟩ := h
  obtain ⟨h, rfl, rfl⟩ := rep_bitmap.mp hrep
  obtain ⟨hkb, hl, -⟩ := ok_bitmap.mp hok
  rw [cells_single] at ho
  exact ⟨h, rfl, ho.find_node, hkb, hl⟩

end Stored

theorem RepKids.stored (hk : RepKids (Rep fl kb) es kids C) (ho : Owned a (C + F))
    (hok : ∀ c ∈ kids, Ok fl kb c.2) : List.Forall₂ (StoredKid a fl kb) es kids := by
  induction es generalizing kids C F with
  | nil =>
    rw [hk.nil.1]
    exact .nil
  | cons x es ih =>
    cases kids with
    | nil => exact absurd hk id
    | cons y kids =>
      obtain ⟨hd, C₁, C₂, hr, hs, rfl⟩ := hk
      have ho₁ : Owned a (C₁ + (C₂ + F)) := by rwa [← add_assoc]
      have ho₂ : Owned a (C₂ + (C₁ + F)) := by rwa [add_left_comm]
      exact .cons ⟨hd, hok y List.mem_cons_self, C₁, C₂ + F, hr, ho₁⟩
        (ih hs ho₂ fun c hc => hok c (List.mem_cons_of_mem y hc))

theorem Stored.branch (h : Stored a fl kb e (branch form kids)) : ∃ m h es, kb = m + 1 ∧ e = .branch form h ∧
    a.branch form h = .ok (branchNode form (m + 1) (branchCount m kids) es) ∧ Kids es ∧
      es.length ≤ form.cap ∧ Fork fl m form kids ∧ kids ≠ [] ∧ List.Forall₂ (StoredKid a fl m) es kids := by
  obtain ⟨hok, C, F, hrep, ho⟩ := h
  cases kb with
  | zero => exact absurd hok id
  | succ kb =>
    obtain ⟨h, es, Ck, rfl, hk, rfl⟩ := rep_branch.mp hrep
    obtain ⟨hb, hne⟩ := ok_branch.mp hok
    rw [cells_branch] at ho
    have hstored : List.Forall₂ (StoredKid a fl kb) es kids :=
      hk.stored (F := (h, .node (branchNode form (kb + 1) (branchCount kb kids) es)) ::ₘ F)
        (by rwa [Multiset.add_cons]) fun c hc => (hb.kids c hc).2.2
    exact ⟨kb, h, es, rfl, rfl, branch_eq ho, hk.edges hb, hk.length ▸ hb.cap, hb, hne, hstored⟩

end Stored

end Expanse.Trie32
