import Expanse.Store.Build
import Expanse.Trie32.Canon
import Expanse.Trie32.Footprint
import Expanse.Trie32.Refine

/-!
# Bulk building

The builder cuts sorted entries by their first digit and lays out each group bottom-up, every node
in its final form. The keys come whole: an edge and a node keep the bytes below their level. What
it builds is the tree that insertions grow, and it allocates each node of that tree once.
-/

namespace Expanse.Trie32

open Grouping Packed Radix SortedAssoc Trie32.Tree

/-- What an edge or a node of `kb` key bytes keeps of its entries. -/
def truncated (kb : ℕ) (l : List (ℕ × ℕ)) : List (ℕ × ℕ) := l.map fun e => (low e.1 kb, e.2)

def buildGroups (build : Arena → List (ℕ × ℕ) → Except Fault (Edge32 × Arena)) :
    Arena → List (ℕ × List (ℕ × ℕ)) → Except Fault (List (ℕ × Edge32) × Arena)
  | a, [] => .ok ([], a)
  | a, (d, group) :: groups => do
    let (e, a) ← build a group
    let (es, a) ← buildGroups build a groups
    pure ((d, e) :: es, a)

/-- `build_set_subtree` and `build_map_subtree`. -/
def buildSubtree (fl : Flavour) : ℕ → Arena → List (ℕ × ℕ) → ℕ → Except Fault (Edge32 × Arena)
  | 0, _, _, _ => .error .outOfFuel
  | fuel + 1, a, l, kb =>
    if l.length = 0 then .ok (.null, a)
    else if l.length ≤ immedCap fl kb then .ok (immedEdge fl kb (truncated kb l), a)
    else if kb = 1 then
      if l.length ≤ bitmapEnter fl then makeLeaf fl a 1 l
      else makeBitmap fl a (truncated 1 l)
    else if l.length ≤ leafMax fl then makeLeaf fl a kb l
    else do
      let (es, a) ← buildGroups (fun a l => buildSubtree fl fuel a l (kb - 1)) a
        (runsBy (fun e => digitAt e.1 kb) l)
      makeBranch (Form.built es.length) a kb es (l.length % COUNT_MOD)

variable {fl : Flavour} {kb h fuel vw : ℕ} {l : List (ℕ × ℕ)} {a a' : Arena} {C F : Cells} {d : Desc} {nd : Node}
  {form : Form} {es : List (ℕ × Edge32)}

/-- A plain arena after `n` allocations more. -/
structure Laid (a a' : Arena) (n : ℕ) : Prop where
  fixed : a'.fixed = a.fixed
  deferred : a'.deferred = a.deferred
  allocs : a'.allocs = a.allocs + n

theorem Laid.refl (a : Arena) : Laid a a 0 := ⟨rfl, rfl, rfl⟩

theorem Laid.trans {a'' : Arena} {m n : ℕ} (h : Laid a a' m) (h' : Laid a' a'' n) : Laid a a'' (m + n) :=
  ⟨h'.fixed.trans h.fixed, h'.deferred.trans h.deferred, by rw [h'.allocs, h.allocs, Nat.add_assoc]⟩

theorem Laid.plain {n : ℕ} (h : Laid a a' n) (hp : Plain a) : Plain a' :=
  ⟨h.fixed.trans hp.fixed, h.deferred.trans hp.deferred⟩

theorem alloc_laid (hp : Plain a) (ho : Owned a C) (hfit : d.Fits nd) :
    ∃ h a', a.alloc nd = .ok (h, a') ∧ Owned a' ((h, d) ::ₘ C) ∧ Laid a a' 1 := by
  obtain ⟨h, a', ha, ho', hs⟩ := alloc_spec ho (hp.room 1 0) hfit
  refine ⟨h, a', ha, ho', hs.fixed, hs.deferred, ?_⟩
  unfold Arena.alloc at ha
  split at ha
  · split_ifs at ha
    cases ha
    rfl
  · split_ifs at ha
    cases ha
    rfl

theorem leafBytes_truncated (hv : ∀ e ∈ l, e.2 < 256 ^ vw) :
    LeafHolds vw kb (truncated kb l) (leafBytes vw kb l) := by
  have hlen' : (truncated kb l).length = l.length := List.length_map _
  obtain ⟨h1, h2⟩ := area_fits vw kb (le_capClass l.length)
  obtain ⟨hlen, hvs, hks⟩ := @fillLeaf_spec vw kb (keysOff vw l.length) 0
    (List.replicate (leafSize vw kb l.length) 0) l (by rw [Nat.zero_add]; omega)
    (by rw [List.length_replicate, Nat.zero_add]; omega)
  rw [Nat.zero_add] at hvs hks
  refine ⟨by rw [leafBytes, hlen, List.length_replicate, hlen'], ?_, ?_⟩
  · rw [hlen', leafBytes, hvs, truncated, List.map_map]
    exact List.map_congr_left fun e he => Nat.mod_eq_of_lt (hv e he)
  · rw [hlen', leafBytes, hks, truncated, List.map_map]
    rfl

theorem makeLeaf_laid (hp : Plain a) (ho : Owned a C) (hv : ∀ e ∈ l, e.2 < 256 ^ valueWidth fl) :
    ∃ h a', makeLeaf fl a kb l = .ok (leafEdge fl kb h (truncated kb l).length, a') ∧
      Owned a' ((h, .leaf (valueWidth fl) kb (truncated kb l)) ::ₘ C) ∧ Laid a a' 1 := by
  have hf : (Desc.leaf (valueWidth fl) kb (truncated kb l)).Fits (.leaf (leafBytes (valueWidth fl) kb l)) :=
    ⟨_, rfl, leafBytes_truncated hv⟩
  obtain ⟨h, a', ha, ho', hlaid⟩ := alloc_laid hp ho hf
  refine ⟨h, a', ?_, ho', hlaid⟩
  rw [makeLeaf, ha, truncated, List.length_map]
  rfl

theorem makeBitmap_laid (hp : Plain a) (ho : Owned a C) (hs : KeySorted l) :
    ∃ h a', makeBitmap fl a l = .ok (bitmapEdge fl h, a') ∧ Owned a' ((h, .node (bitmapNode fl l)) ::ₘ C) ∧
      Laid a a' 1 := by
  obtain ⟨h, a', ha, ho', hlaid⟩ := alloc_laid hp ho (fits_node (bitmapNode fl l))
  refine ⟨h, a', ?_, ho', hlaid⟩
  cases fl with
  | set =>
    rw [makeBitmap]
    dsimp only
    rw [bitmapFromKeys_eq hs, show Node.bitmap (setBitmapOf l) = bitmapNode .set l from rfl, ha]
    rfl
  | map =>
    rw [makeBitmap]
    dsimp only
    rw [show Node.mapBitmap (mapBitmapOf l) = bitmapNode .map l from rfl, ha]
    rfl

theorem makeBranch_laid {level count : ℕ} (hp : Plain a) (ho : Owned a C) (hcap : es.length ≤ form.cap) :
    ∃ h a', makeBranch form a level es count = .ok (.branch form h, a') ∧
      Owned a' ((h, .node (branchNode form level count es)) ::ₘ C) ∧ Laid a a' 1 := by
  obtain ⟨h, a', ha, ho', hlaid⟩ := alloc_laid hp ho (fits_node (branchNode form level count es))
  refine ⟨h, a', ?_, ho', hlaid⟩
  cases form with
  | l2 =>
    rw [makeBranch]
    dsimp only
    rw [if_pos hcap, ha]
    rfl
  | l6 =>
    rw [makeBranch]
    dsimp only
    rw [if_pos hcap, ha]
    rfl
  | b =>
    rw [makeBranch]
    dsimp only
    rw [ha]
    rfl
  | u =>
    rw [makeBranch]
    dsimp only
    rw [ha]
    rfl

/-- Ascending keys that differ below `kb` bytes only, with values that fit. -/
structure Cluster (fl : Flavour) (kb : ℕ) (l : List (ℕ × ℕ)) : Prop where
  sorted : KeySorted l
  same : ∀ e ∈ l, ∀ e' ∈ l, e.1 / 256 ^ kb = e'.1 / 256 ^ kb
  vals : ∀ e ∈ l, e.2 < 256 ^ valueWidth fl

theorem low_lt_low {x y : ℕ} (h : x / 256 ^ kb = y / 256 ^ kb) (hlt : x < y) : low x kb < low y kb := by
  have hx := low_div_add x kb
  have hy := low_div_add y kb
  rw [h] at hx
  omega

/-- One digit more of a key that is cut off. -/
theorem div_digit (x kb : ℕ) : x / 256 ^ kb = x / 256 ^ (kb + 1) * 256 + digitAt x (kb + 1) := by
  rw [digitAt, digit, Nat.add_sub_cancel, Nat.pow_succ, ← Nat.div_div_eq_div_mul]
  exact (Nat.div_add_mod' _ 256).symm

namespace Cluster

theorem held (h : Cluster fl kb l) : Held fl kb (truncated kb l) where
  fit e he := by
    obtain ⟨x, hx, rfl⟩ := List.mem_map.mp he
    exact ⟨low_lt x.1 kb, h.vals x hx⟩
  sorted := by
    refine List.pairwise_map.mpr ?_
    exact h.sorted.imp_of_mem fun {x y} hx hy hlt => low_lt_low (h.same x hx y hy) hlt

theorem groups (h : Cluster fl (kb + 1) l) :
    (∀ d run, (d, run) ∈ runsBy (fun e => digitAt e.1 (kb + 1)) l → KeySorted run) ∧
      KeySorted (runsBy (fun e => digitAt e.1 (kb + 1)) l) := by
  refine runsBy_sorted _ h.sorted fun x hx y hy hlt => ?_
  have hle : x.1 / 256 ^ kb ≤ y.1 / 256 ^ kb := Nat.div_le_div_right hlt.le
  rw [div_digit x.1, div_digit y.1, h.same x hx y hy] at hle
  omega

theorem group {d : ℕ} {run : List (ℕ × ℕ)} (h : Cluster fl (kb + 1) l)
    (hm : (d, run) ∈ runsBy (fun e => digitAt e.1 (kb + 1)) l) : Cluster fl kb run := by
  have hmem := fun x (hx : x ∈ run) => mem_of_mem_runsBy _ hm hx
  obtain ⟨-, hd⟩ := mem_runsBy _ hm
  refine ⟨h.groups.1 d run hm, fun e he e' he' => ?_, fun e he => h.vals e (hmem e he)⟩
  rw [div_digit e.1, div_digit e'.1, h.same e (hmem e he) e' (hmem e' he'), hd e he, hd e' he']

end Cluster

/-- The groups, each cut down to its own level, fan out to the list. -/
theorem fanout_groups (kb : ℕ) (l : List (ℕ × ℕ)) :
    fanout (256 ^ kb) (truncated kb) (runsBy (fun e => digitAt e.1 (kb + 1)) l) = truncated (kb + 1) l := by
  have hrun : ∀ g ∈ runsBy (fun e => digitAt e.1 (kb + 1)) l,
      (truncated kb g.2).map (fun e => (g.1 * 256 ^ kb + e.1, e.2)) = truncated (kb + 1) g.2 := by
    rintro ⟨d, run⟩ hg
    obtain ⟨-, hd⟩ := mem_runsBy _ hg
    rw [truncated, truncated, List.map_map]
    refine List.map_congr_left fun e he => Prod.ext ?_ rfl
    have hlow := low_eq_digit (Nat.le_add_left 1 kb) e.1
    rw [Nat.add_sub_cancel] at hlow
    rw [hlow, ← hd e he]
    rfl
  rw [fanout, List.flatMap_congr hrun]
  conv_rhs => rw [← flatMap_runsBy (fun e => digitAt e.1 (kb + 1)) l, truncated, List.map_flatMap]
  rfl

/-- A tree that the entries `l` grow. -/
structure GrownOf (fl : Flavour) (kb : ℕ) (l : List (ℕ × ℕ)) (t : Tree) : Prop where
  ok : Ok fl kb t
  grown : Grown fl kb t
  entries : entries kb t = l

/-- What the builder leaves: a stored tree, and one allocation for each of its nodes. -/
def Builds (fl : Flavour) (kb : ℕ) (a : Arena) (F : Cells) (l : List (ℕ × ℕ))
    (r : Except Fault (Edge32 × Arena)) : Prop :=
  ∃ e a' t C, r = .ok (e, a') ∧ Rep fl kb e t C ∧ Owned a' (C + F) ∧ GrownOf fl kb l t ∧ Laid a a' (t.nodes kb)

theorem buildGroups_spec {build : Arena → List (ℕ × ℕ) → Except Fault (Edge32 × Arena)}
    {groups : List (ℕ × List (ℕ × ℕ))}
    (hbuild : ∀ g ∈ groups, ∀ a F, Plain a → Owned a F → Builds fl kb a F (truncated kb g.2) (build a g.2))
    (hp : Plain a) (ho : Owned a F) :
    ∃ es a' kids C, buildGroups build a groups = .ok (es, a') ∧ RepKids (Rep fl kb) es kids C ∧
      Owned a' (C + F) ∧
      List.Forall₂ (fun g c => c.1 = g.1 ∧ GrownOf fl kb (truncated kb g.2) c.2) groups kids ∧
      Laid a a' (kids.map fun c => c.2.nodes kb).sum := by
  induction groups generalizing a F with
  | nil => exact ⟨[], a, [], 0, rfl, rfl, by rwa [zero_add], .nil, Laid.refl a⟩
  | cons g groups ih =>
    obtain ⟨d, run⟩ := g
    obtain ⟨e, a₁, t, C₁, hr, hrep, ho₁, ht, hlaid₁⟩ := hbuild (d, run) List.mem_cons_self a F hp ho
    obtain ⟨es, a₂, kids, C₂, hrs, hreps, ho₂, hts, hlaid₂⟩ :=
      ih (fun g hg => hbuild g (List.mem_cons_of_mem _ hg)) (hlaid₁.plain hp) ho₁
    refine ⟨(d, e) :: es, a₂, (d, t) :: kids, C₁ + C₂, ?_, ⟨rfl, C₁, C₂, hrep, hreps, rfl⟩, ?_,
      .cons ⟨rfl, ht⟩ hts, ?_⟩
    · rw [buildGroups, hr, ok_bind]
      dsimp only
      rw [hrs]
      rfl
    · rwa [show C₁ + C₂ + F = C₂ + (C₁ + F) by abel]
    · rw [List.map_cons, List.sum_cons]
      exact hlaid₁.trans hlaid₂

theorem built_bounds {n : ℕ} (h256 : n ≤ 256) : (Form.built n).downAt ≤ n - 1 ∧ n ≤ (Form.built n).cap := by
  unfold Form.built
  split_ifs <;> simp only [Form.downAt, Form.cap, BRANCH_L2_CAP, BRANCH_L6_CAP, BRANCH_B_TO_UNCOMPRESSED,
    BRANCH_L6_DOWN, BRANCH_B_DOWN, BRANCH_U_DOWN] at * <;> omega

theorem grown_groups {gs : List (ℕ × List (ℕ × ℕ))} {kids : List (ℕ × Tree)}
    (hk : List.Forall₂ (fun g c => c.1 = g.1 ∧ GrownOf fl kb (truncated kb g.2) c.2) gs kids) :
    kids.map Prod.fst = gs.map Prod.fst ∧
      (∀ c ∈ kids, ∃ g ∈ gs, c.1 = g.1 ∧ GrownOf fl kb (truncated kb g.2) c.2) ∧
      fanout (256 ^ kb) (entries kb) kids = fanout (256 ^ kb) (truncated kb) gs := by
  induction hk with
  | nil => exact ⟨rfl, by simp, rfl⟩
  | @cons g c gs cs h _ ih =>
    obtain ⟨hkeys, hmem, hfan⟩ := ih
    obtain ⟨d, t⟩ := c
    obtain ⟨d', run⟩ := g
    obtain ⟨rfl, ht⟩ := h
    refine ⟨by rw [List.map_cons, List.map_cons, hkeys], fun c hc => ?_, ?_⟩
    · rcases List.mem_cons.mp hc with rfl | hc
      · exact ⟨(d, run), List.mem_cons_self, rfl, ht⟩
      · obtain ⟨g, hg, hgc⟩ := hmem c hc
        exact ⟨g, List.mem_cons_of_mem _ hg, hgc⟩
    · rw [fanout_cons, fanout_cons, hfan, ht.entries]

theorem kids_of_groups {kids : List (ℕ × Tree)} (hc : Cluster fl (kb + 1) l) (h1 : 1 ≤ kb)
    (hk : List.Forall₂ (fun g c => c.1 = g.1 ∧ GrownOf fl kb (truncated kb g.2) c.2)
      (runsBy (fun e => digitAt e.1 (kb + 1)) l) kids) :
    Fork fl kb (Form.built kids.length) kids ∧ fanout (256 ^ kb) (entries kb) kids = truncated (kb + 1) l ∧
      ∀ c ∈ kids, Grown fl kb c.2 := by
  obtain ⟨hkeys, hmem, hfan⟩ := grown_groups hk
  have hsorted : KeySorted kids := keySorted_iff.mpr (hkeys ▸ keySorted_iff.mp hc.groups.2)
  have hkids : ∀ c ∈ kids, c.1 < 256 ∧ c.2 ≠ null ∧ Ok fl kb c.2 := by
    intro c hm
    obtain ⟨g, hg, hd, hgrown⟩ := hmem c hm
    obtain ⟨hne, hdig⟩ := mem_runsBy _ hg
    obtain ⟨x, hx⟩ := List.exists_mem_of_ne_nil _ hne
    refine ⟨?_, ?_, hgrown.ok⟩
    · rw [hd, ← hdig x hx]
      exact digit_lt' _ _
    · intro hnull
      have hent := hgrown.entries
      rw [hnull, entries_null] at hent
      exact hne (List.map_eq_nil_iff.mp hent.symm)
  have h256 : kids.length ≤ 256 := hsorted.length_le fun x hx => by
    obtain ⟨c, hc, rfl⟩ := List.mem_map.mp hx
    exact (hkids c hc).1
  obtain ⟨hdown, hcap⟩ := built_bounds h256
  refine ⟨⟨h1, hsorted, hdown, hcap, hkids⟩, hfan.trans (fanout_groups kb l), fun c hm => ?_⟩
  obtain ⟨g, -, -, hgrown⟩ := hmem c hm
  exact hgrown.grown

/-- The builder lays out the tree that the entries grow. -/
theorem buildSubtree_spec (hc : Cluster fl kb l) (hp : Plain a) (ho : Owned a F) (h1 : 1 ≤ kb) (hf : kb ≤ fuel) :
    Builds fl kb a F (truncated kb l) (buildSubtree fl fuel a l kb) := by
  induction fuel generalizing kb l a F with
  | zero => omega
  | succ fuel ih =>
    have hlen : (truncated kb l).length = l.length := List.length_map _
    obtain ⟨m, rfl⟩ : ∃ m, kb = m + 1 := ⟨kb - 1, by omega⟩
    rw [buildSubtree]
    split_ifs with hnil himm hone hbit hleaf
    · refine ⟨.null, a, null, 0, rfl, rep_null.mpr ⟨rfl, rfl⟩, by rwa [zero_add],
        ⟨ok_null, grown_null, ?_⟩, Laid.refl a⟩
      rw [entries_null, List.length_eq_zero_iff.mp hnil]
      rfl
    · exact ⟨_, a, immed (truncated (m + 1) l), 0, rfl, rep_immed.mpr ⟨rfl, rfl⟩, by rwa [zero_add],
        ⟨ok_immed.mpr ⟨hc.held, by omega, by omega⟩, grown_immed, entries_immed⟩, Laid.refl a⟩
    · obtain ⟨h, a', hr, ho', hlaid⟩ := @makeLeaf_laid _ 1 _ _ _ hp ho hc.vals
      obtain rfl : m = 0 := by omega
      rw [Nat.zero_add] at hlen himm
      have himm' : immedCap fl 1 < (truncated 1 l).length := by omega
      refine ⟨_, a', leaf (truncated 1 l), _, hr, rep_leaf.mpr ⟨h, rfl, rfl⟩, by rwa [cells_single],
        ⟨ok_leaf.mpr ⟨hc.held, himm', ?_⟩, grown_leaf, entries_leaf⟩, hlaid⟩
      rw [leafTop, if_pos rfl]
      omega
    · obtain rfl : m = 0 := by omega
      rw [Nat.zero_add] at hlen
      obtain ⟨h, a', hr, ho', hlaid⟩ := @makeBitmap_laid fl _ _ _ hp ho hc.held.sorted
      have hle : bitmapLeave fl ≤ bitmapEnter fl := by cases fl <;> decide
      exact ⟨_, a', bitmap (truncated 1 l), _, hr, rep_bitmap.mpr ⟨h, rfl, rfl⟩, by rwa [cells_single],
        ⟨ok_bitmap.mpr ⟨rfl, hc.held, by omega⟩, grown_bitmap.mpr (by omega), entries_bitmap⟩, hlaid⟩
    · obtain ⟨h, a', hr, ho', hlaid⟩ := @makeLeaf_laid _ (m + 1) _ _ _ hp ho hc.vals
      refine ⟨_, a', leaf (truncated (m + 1) l), _, hr, rep_leaf.mpr ⟨h, rfl, rfl⟩, by rwa [cells_single],
        ⟨ok_leaf.mpr ⟨hc.held, by omega, ?_⟩, grown_leaf, entries_leaf⟩, hlaid⟩
      rw [leafTop, if_neg hone]
      omega
    · have h1' : 1 ≤ m := by omega
      obtain ⟨es, a₁, kids, Ck, hr, hreps, ho₁, hts, hlaid₁⟩ := @buildGroups_spec fl m _ _
        (fun a l => buildSubtree fl fuel a l (m + 1 - 1)) _
          (fun g hg a F hp ho => ih (hc.group hg) hp ho h1' (by omega))
        hp ho
      obtain ⟨hb, hfan, hgrown⟩ := kids_of_groups hc h1' hts
      obtain ⟨h, a₂, hr₂, ho₂, hlaid₂⟩ := @makeBranch_laid _ _ _ _ (m + 1) (l.length % COUNT_MOD)
        (hlaid₁.plain hp) ho₁
        (hreps.length ▸ hb.cap)
      have hcount : branchCount m kids = l.length % COUNT_MOD := by rw [branchCount, hfan, hlen]
      have hne : kids ≠ [] := by
        rintro rfl
        rw [fanout_nil] at hfan
        exact hnil (List.length_eq_zero_iff.mpr (List.map_eq_nil_iff.mp hfan.symm))
      rw [hr, ok_bind]
      dsimp only
      rw [hreps.length] at hr₂ ho₂ ⊢
      refine ⟨_, a₂, branch (Form.built kids.length) kids, _, hr₂,
        rep_branch.mpr ⟨h, es, Ck, rfl, hreps, rfl⟩, ?_,
        ⟨ok_branch.mpr ⟨hb, hne⟩, ⟨rfl, ?_, hgrown⟩, hfan⟩, ?_⟩
      · rw [cells_branch, hcount]
        exact ho₂
      · rw [hfan, hlen]
        omega
      · have := hlaid₁.trans hlaid₂
        rw [Tree.nodes, Nat.add_comm]
        exact this

end Expanse.Trie32
