import Expanse.Occ.Collector

/-!
# What an advance does with the blocks it takes

A stripe taken from a bin is split once: of the blocks before the split the unclassed ones
are freed, of those after it they are carried, and the classed ones on both sides go to the
freelists. The split leaves the call's freed bytes within the budget or at a single block.
-/

namespace Expanse.Occ

open Garbage

variable {c c' : Collector} {budget freed stripe bin : ℕ} {g : Garbage}
  {now now' l a b stale moved appended : List Garbage} {reclaimed : List Free} {taken : List Queued}

namespace Garbage

@[simp] theorem total_nil : total [] = 0 := rfl

@[simp] theorem total_cons (g : Garbage) (l : List Garbage) : total (g :: l) = g.bytes + total l :=
  rfl

@[simp] theorem total_append (l l' : List Garbage) : total (l ++ l') = total l + total l' := by
  simp [total]

theorem total_perm {l l' : List Garbage} (h : l.Perm l') : total l = total l' :=
  (h.map bytes).sum_eq

@[simp] theorem unclassed_nil : unclassed [] = [] := rfl

@[simp] theorem unclassed_append (l l' : List Garbage) :
    unclassed (l ++ l') = unclassed l ++ unclassed l' := List.filter_append ..

theorem unclassed_cons (g : Garbage) (l : List Garbage) :
    unclassed (g :: l) = if g.cls.isNone then g :: unclassed l else unclassed l := List.filter_cons ..

theorem total_split (l : List Garbage) : total l = total (classed l) + total (unclassed l) := by
  have hperm := List.filter_append_perm (fun g : Garbage => g.cls.isSome) l
  have hnot : l.filter (fun g => !g.cls.isSome) = unclassed l := by
    simp [unclassed]
  rw [hnot] at hperm
  rw [← total_append]
  exact (total_perm hperm).symm

theorem eq_nil_of_total (h : total l = 0) : l = [] := by
  cases l with
  | nil => rfl
  | cons g l =>
    have := g.pos
    simp only [total_cons] at h
    omega

theorem unclassed_of_mem (h : g ∈ unclassed l) : g.cls = none := by
  simpa using (List.mem_filter.mp h).2

theorem total_unclassed_le (l : List Garbage) : total (unclassed l) ≤ total l := by
  have := total_split l
  omega

end Garbage

/-- The blocks a call has freed, against its count: within the budget, or one block. -/
structure Fits (budget freed : ℕ) (now : List Garbage) : Prop where
  total_le : total now ≤ freed
  within : freed ≤ budget ∨ ∃ g, now = [g] ∧ freed = g.bytes
  zero : freed = 0 → now = []

theorem fits_nil (budget : ℕ) : Fits budget 0 [] := ⟨le_rfl, .inl (Nat.zero_le _), fun _ => rfl⟩

/-- The test both loops make before they free a block. -/
theorem Fits.free (h : Fits budget freed now) (hfree : freed = 0 ∨ freed + g.bytes ≤ budget) :
    Fits budget (freed + g.bytes) (now ++ [g]) where
  total_le := by
    have := h.total_le
    simp only [total_append, total_cons, total_nil]
    omega
  within := by
    rcases hfree with rfl | hle
    · exact .inr ⟨g, by simp [h.zero rfl], by simp⟩
    · exact .inl hle
  zero hz := by
    have := g.pos
    omega

/-- A bin that fits the budget with room for its classed blocks. -/
theorem Fits.whole (h : Fits budget freed now) (hle : freed + total l ≤ budget) :
    Fits budget (freed + total l) (now ++ unclassed l) where
  total_le := by
    have := h.total_le
    have := total_unclassed_le l
    simp only [total_append]
    omega
  within := .inl hle
  zero hz := by
    have hl : l = [] := eq_nil_of_total (by omega)
    simp [hl, h.zero (by omega)]

theorem Fits.le_max (h : Fits budget freed now) (hg : now.head? = some g) :
    total now ≤ max budget g.bytes := by
  rcases h.within with hle | ⟨g', rfl, -⟩
  · have := h.total_le
    omega
  · cases hg
    simp

/-- The blocks of a list under their class, as they are pushed. -/
def freesOf (stripe : ℕ) (l : List Garbage) : List Free :=
  l.filterMap fun g => g.cls.map fun cls => ⟨stripe, cls, g⟩

def Collector.settle (c : Collector) (stripe : ℕ) (freed reclaimed carried : List Garbage) : Collector :=
  { c with
    freed := c.freed ++ freed
    freelists := (freesOf stripe reclaimed).reverse ++ c.freelists
    carry := c.carry ++ carried
    carriedBlocks := c.carriedBlocks + carried.length
    carriedBytes := c.carriedBytes + total carried }

theorem map_block_freesOf (stripe : ℕ) (l : List Garbage) :
    (freesOf stripe l).map Free.block = classed l := by
  induction l with
  | nil => rfl
  | cons g l ih =>
    cases h : g.cls <;> simpa [freesOf, classed, h] using ih

theorem mem_freesOf {f : Free} (h : f ∈ freesOf stripe l) : f.block.cls = some f.cls := by
  obtain ⟨g, -, hg⟩ := List.mem_filterMap.mp h
  obtain ⟨cls, hcls, rfl⟩ := Option.map_eq_some_iff.mp hg
  exact hcls

theorem settle_nil (c : Collector) (stripe : ℕ) : c.settle stripe [] [] [] = c := by
  simp [Collector.settle, freesOf]

theorem settle_settle (c : Collector) (stripe : ℕ) (f r k f' r' k' : List Garbage) :
    (c.settle stripe f r k).settle stripe f' r' k' = c.settle stripe (f ++ f') (r ++ r') (k ++ k') := by
  simp [Collector.settle, freesOf, Nat.add_assoc]

theorem reclaimBlock_eq {cls : ℕ} (h : g.cls = some cls) :
    c.reclaimBlock g stripe cls = c.settle stripe [] [g] [] := by
  simp [Collector.reclaimBlock, Collector.settle, freesOf, h]

theorem freeRaw_eq (stripe : ℕ) (h : g.cls = none) : c.freeRaw g = c.settle stripe [g] [g] [] := by
  simp [Collector.freeRaw, Collector.settle, freesOf, h]

theorem reclaimClassed_eq (c : Collector) (stripe : ℕ) (l : List Garbage) :
    c.reclaimClassed stripe l = c.settle stripe [] l [] := by
  unfold Collector.reclaimClassed
  induction l generalizing c with
  | nil => exact (settle_nil c stripe).symm
  | cons g l ih =>
    rw [List.foldl_cons, ih]
    cases h : g.cls with
    | none => simp [Collector.settle, freesOf, h]
    | some cls => simp only [reclaimBlock_eq h, settle_settle]; rfl

theorem freeStripe_eq (c : Collector) (stripe : ℕ) (l : List Garbage) :
    c.freeStripe stripe l = c.settle stripe (unclassed l) l [] := by
  unfold Collector.freeStripe
  induction l generalizing c with
  | nil => exact (settle_nil c stripe).symm
  | cons g l ih =>
    rw [List.foldl_cons, ih, unclassed_cons]
    cases h : g.cls with
    | none => simp only [freeRaw_eq stripe h, settle_settle]; rfl
    | some cls => simp only [reclaimBlock_eq h, settle_settle]; rfl

/-- The budgeted loop stops at a split: it has freed or reclaimed what is before it. -/
theorem budgetedLoop_spec (c : Collector) (stripe : ℕ) (pre it : List Garbage) (done : ℕ)
    (hfit : Fits budget freed now) (hstale : stale = pre ++ it) :
    ∃ a b, it = a ++ b ∧
      Collector.budgetedLoop stale stripe budget it c freed done =
        (c.settle stripe (unclassed a) a [], freed + total (unclassed a), done + total a,
          if b = [] then none else some (pre ++ a).length) ∧
      Fits budget (freed + total (unclassed a)) (now ++ unclassed a) := by
  induction it generalizing c freed done pre now with
  | nil =>
    refine ⟨[], [], rfl, ?_, by simpa using hfit⟩
    simp [Collector.budgetedLoop, settle_nil]
  | cons g it ih =>
    have hpre : stale = (pre ++ [g]) ++ it := by simpa using hstale
    cases hcls : g.cls with
    | some cls =>
      obtain ⟨a, b, rfl, heq, hfit'⟩ :=
        ih (c.reclaimBlock g stripe cls) (pre ++ [g]) (done + g.bytes) hfit hpre
      have hun : unclassed (g :: a) = unclassed a := by simp [unclassed_cons, hcls]
      refine ⟨g :: a, b, rfl, ?_, by rwa [hun]⟩
      simp only [Collector.budgetedLoop, hcls]
      rw [heq, reclaimBlock_eq hcls, settle_settle, hun]
      simp [Nat.add_assoc]
    | none =>
      by_cases hfree : freed = 0 ∨ freed + g.bytes ≤ budget
      · obtain ⟨a, b, rfl, heq, hfit'⟩ :=
          ih (c.freeRaw g) (pre ++ [g]) (done + g.bytes) (hfit.free hfree) hpre
        have hun : unclassed (g :: a) = g :: unclassed a := by simp [unclassed_cons, hcls]
        refine ⟨g :: a, b, rfl, ?_, by simpa [hun, Nat.add_assoc] using hfit'⟩
        simp only [Collector.budgetedLoop, hcls, if_pos hfree]
        rw [heq, freeRaw_eq stripe hcls, settle_settle, hun]
        simp [Nat.add_assoc]
      · refine ⟨[], g :: it, rfl, ?_, by simpa using hfit⟩
        simp only [Collector.budgetedLoop, hcls, if_neg hfree, settle_nil, unclassed_nil]
        rw [if_neg (by simp), hstale]
        simp only [List.append_nil, List.length_append, List.length_cons, total_nil, Nat.add_zero]
        rw [show pre.length + (it.length + 1) - it.length - 1 = pre.length by omega]

theorem freeStripeBudgeted_spec (c : Collector) (stripe : ℕ) (stale : List Garbage)
    (hfit : Fits budget freed now) :
    ∃ a b, stale = a ++ b ∧
      c.freeStripeBudgeted stale stripe freed budget =
        (c.settle stripe (unclassed a) stale (unclassed b), freed + total (unclassed a),
          total a + total (classed b), total (unclassed b)) ∧
      Fits budget (freed + total (unclassed a)) (now ++ unclassed a) := by
  obtain ⟨a, b, rfl, heq, hfit'⟩ :=
    budgetedLoop_spec c stripe [] stale 0 hfit rfl
  refine ⟨a, b, rfl, ?_, hfit'⟩
  rw [List.nil_append] at heq
  unfold Collector.freeStripeBudgeted
  rw [heq]
  by_cases hb : b = []
  · subst hb
    simp [classed]
  · simp only [if_neg hb, Collector.carryTail, reclaimClassed_eq]
    simp [Collector.settle, freesOf]

/-- What holds between calls: nothing is lost or doubled, and every counter is exact. -/
structure Balanced (c : Collector) : Prop where
  conserved : c.retired.Perm
    (c.garbage.map Queued.block ++ c.carry ++ c.freelists.map Free.block ++ c.freed)
  retained : ∀ stripe, c.retainedBytes stripe =
    total ((c.garbage.filter (·.stripe = stripe)).map Queued.block)
  stripes : ∀ q ∈ c.garbage, q.stripe < NUM_EPOCH_STRIPES
  carriedBlocks : c.carriedBlocks = c.carry.length
  carriedBytes : c.carriedBytes = total c.carry
  classes : ∀ f ∈ c.freelists, f.block.cls = some f.cls
  unclassed : ∀ g ∈ c.carry ++ c.freed, g.cls = none

/-- From `c` to `c'` the blocks `taken` have left the bin: `moved` was freed, `reclaimed` went to
the freelists and `appended` to the carry list. -/
structure Drained (bin : ℕ) (c c' : Collector) (moved : List Garbage) (reclaimed : List Free)
    (appended : List Garbage) (taken : List Queued) : Prop where
  bins : ∀ q ∈ taken, q.bin = bin
  garbage : c.garbage.Perm (taken ++ c'.garbage)
  split : (taken.map Queued.block).Perm (moved ++ reclaimed.map Free.block ++ appended)
  classes : ∀ f ∈ reclaimed, f.block.cls = some f.cls
  unclassed : ∀ g ∈ moved ++ appended, g.cls = none
  freed : c'.freed = c.freed ++ moved
  freelists : c'.freelists = reclaimed ++ c.freelists
  carry : c'.carry = c.carry ++ appended

theorem drained_refl (bin : ℕ) (c : Collector) : Drained bin c c [] [] [] [] where
  bins := by simp
  garbage := .refl _
  split := .refl _
  classes := by simp
  unclassed := by simp
  freed := by simp
  freelists := by simp
  carry := by simp

theorem Drained.trans {c₁ c₂ c₃ : Collector} {m m' p p' : List Garbage} {r r' : List Free}
    {t t' : List Queued} (h : Drained bin c₁ c₂ m r p t) (h' : Drained bin c₂ c₃ m' r' p' t') :
    Drained bin c₁ c₃ (m ++ m') (r' ++ r) (p ++ p') (t ++ t') where
  bins q hq := (List.mem_append.mp hq).elim (h.bins q) (h'.bins q)
  garbage := by
    rw [List.append_assoc]
    exact h.garbage.trans (h'.garbage.append_left t)
  split := by
    rw [List.map_append, List.map_append]
    refine (h.split.append h'.split).trans ?_
    rw [← Multiset.coe_eq_coe]
    simp only [← Multiset.coe_add]
    abel
  classes f hf := (List.mem_append.mp hf).elim (h'.classes f) (h.classes f)
  unclassed g hg := by
    have := h.unclassed g
    have := h'.unclassed g
    simp only [List.mem_append] at *
    tauto
  freed := by rw [h'.freed, h.freed, List.append_assoc]
  freelists := by rw [h'.freelists, h.freelists, List.append_assoc]
  carry := by rw [h'.carry, h.carry, List.append_assoc]

/-- The collector after the turn of a stripe whose blocks were split into `a` and `b`. -/
def Collector.settled (c : Collector) (bin stripe : ℕ) (a b : List Garbage) : Collector :=
  { (c.take bin stripe).2.settle stripe (Garbage.unclassed a) (a ++ b) (Garbage.unclassed b) with
    retainedBytes := Function.update c.retainedBytes stripe (c.retainedBytes stripe - total (a ++ b)) }

theorem take_perm (c : Collector) (bin stripe : ℕ) :
    c.garbage.Perm ((c.garbage.filter fun q => q.bin = bin ∧ q.stripe = stripe) ++
      (c.take bin stripe).2.garbage) := by
  have hperm := List.filter_append_perm (fun q : Queued => decide (q.bin = bin ∧ q.stripe = stripe)) c.garbage
  simpa [Collector.take] using hperm.symm

theorem perm_split (l : List Garbage) : l.Perm (Garbage.unclassed l ++ classed l) := by
  have hperm := List.filter_append_perm (fun g : Garbage => g.cls.isNone) l
  have hnot : l.filter (fun g => !g.cls.isNone) = classed l := by simp [classed]
  rw [hnot] at hperm
  exact hperm.symm

theorem drained_settled (hab : c.queued bin stripe = a ++ b) :
    Drained bin c (c.settled bin stripe a b) (Garbage.unclassed a)
      (freesOf stripe (a ++ b)).reverse (Garbage.unclassed b)
      (c.garbage.filter fun q => q.bin = bin ∧ q.stripe = stripe) where
  bins q hq := (of_decide_eq_true (List.mem_filter.mp hq).2).1
  garbage := take_perm c bin stripe
  split := by
    change (c.queued bin stripe).Perm _
    rw [hab, List.map_reverse, map_block_freesOf]
    have hun := perm_split (a ++ b)
    rw [unclassed_append] at hun
    refine hun.trans ?_
    rw [← Multiset.coe_eq_coe]
    simp only [← Multiset.coe_add, Multiset.coe_reverse]
    abel
  classes f hf := mem_freesOf (List.mem_reverse.mp hf)
  unclassed g hg := (List.mem_append.mp hg).elim unclassed_of_mem unclassed_of_mem
  freed := rfl
  freelists := rfl
  carry := rfl

/-- What a stripe's counter holds covers what waits on it in one bin. -/
theorem Balanced.total_queued_le (h : Balanced c) (bin stripe : ℕ) :
    total (c.queued bin stripe) ≤ c.retainedBytes stripe := by
  have hperm := ((take_perm c bin stripe).filter (·.stripe = stripe)).map Queued.block
  have hsame : (c.garbage.filter fun q => q.bin = bin ∧ q.stripe = stripe).filter (·.stripe = stripe) =
      c.garbage.filter fun q => q.bin = bin ∧ q.stripe = stripe := by
    refine List.filter_eq_self.mpr fun q hq => ?_
    simpa using (of_decide_eq_true (List.mem_filter.mp hq).2).2
  rw [List.filter_append, hsame, List.map_append] at hperm
  rw [h.retained stripe, total_perm hperm, total_append]
  exact Nat.le_add_right _ _

theorem Balanced.drained (h : Balanced c) (hd : Drained bin c c' moved reclaimed appended taken)
    (hretired : c'.retired = c.retired)
    (hretained : ∀ stripe, c'.retainedBytes stripe =
      total ((c'.garbage.filter (·.stripe = stripe)).map Queued.block))
    (hblocks : c'.carriedBlocks = c.carriedBlocks + appended.length)
    (hbytes : c'.carriedBytes = c.carriedBytes + total appended) : Balanced c' where
  conserved := by
    rw [hretired, hd.carry, hd.freelists, hd.freed]
    refine h.conserved.trans ?_
    have hg := hd.garbage.map Queued.block
    rw [List.map_append] at hg
    have hs := hd.split
    rw [← Multiset.coe_eq_coe] at hg hs ⊢
    simp only [List.map_append, ← Multiset.coe_add] at *
    rw [hg, hs]
    abel
  retained := hretained
  stripes q hq := h.stripes q (hd.garbage.mem_iff.mpr (List.mem_append_right _ hq))
  carriedBlocks := by rw [hblocks, hd.carry, h.carriedBlocks, List.length_append]
  carriedBytes := by rw [hbytes, hd.carry, h.carriedBytes, total_append]
  classes f hf := by
    rw [hd.freelists] at hf
    exact (List.mem_append.mp hf).elim (hd.classes f) (h.classes f)
  unclassed g hg := by
    rw [hd.carry, hd.freed] at hg
    have := h.unclassed g
    have := hd.unclassed g
    simp only [List.mem_append] at *
    tauto

theorem balanced_settled (h : Balanced c) (hab : c.queued bin stripe = a ++ b) :
    Balanced (c.settled bin stripe a b) := by
  refine h.drained (drained_settled hab) rfl (fun i => ?_) rfl rfl
  have hperm := ((take_perm c bin stripe).filter (·.stripe = i)).map Queued.block
  rw [List.filter_append, List.map_append] at hperm
  have hnum : c.retainedBytes i = _ := (h.retained i).trans ((total_perm hperm).trans (total_append _ _))
  change Function.update _ _ _ i = _
  by_cases hi : i = stripe
  · subst hi
    have hsame : (c.garbage.filter fun q => q.bin = bin ∧ q.stripe = i).filter (·.stripe = i) =
        c.garbage.filter fun q => q.bin = bin ∧ q.stripe = i := by
      refine List.filter_eq_self.mpr fun q hq => ?_
      simpa using (of_decide_eq_true (List.mem_filter.mp hq).2).2
    rw [hsame] at hnum
    change c.retainedBytes i = total (c.queued bin i) + _ at hnum
    rw [Function.update_self, ← hab, hnum, Nat.add_sub_cancel_left]
    rfl
  · have hnone : (c.garbage.filter fun q => q.bin = bin ∧ q.stripe = stripe).filter (·.stripe = i) = [] := by
      refine List.filter_eq_nil_iff.mpr fun q hq => ?_
      have hq := (of_decide_eq_true (List.mem_filter.mp hq).2).2
      simp [hq, Ne.symm hi]
    rw [hnone] at hnum
    rw [Function.update_of_ne hi, hnum]
    simp [Collector.settled, Collector.settle]

theorem fetchSub_eq {n m : ℕ} (h : m ≤ n) : fetchSub n m = .ok (n - m) := if_pos h

/-- One stripe's turn: no counter wraps, the books stay balanced, and the budget is kept. -/
theorem drainStripe_spec (h : Balanced c) (hfit : Fits budget freed now) (bin stripe : ℕ) :
    ∃ freed' c' moved reclaimed appended taken,
      c.drainStripe bin stripe freed budget = .ok (freed', c') ∧ Balanced c' ∧
      Drained bin c c' moved reclaimed appended taken ∧ Fits budget freed' (now ++ moved) := by
  unfold Collector.drainStripe
  by_cases hempty : c.queued bin stripe = []
  · rw [if_pos hempty]
    exact ⟨freed, c, [], [], [], [], rfl, h, drained_refl bin c, by simpa using hfit⟩
  · rw [if_neg hempty]
    have hle := h.total_queued_le bin stripe
    by_cases hover : budget < freed + c.retainedBytes stripe
    · obtain ⟨a, b, hab, heq, hfit'⟩ := freeStripeBudgeted_spec (c.take bin stripe).2 stripe
        (c.queued bin stripe) hfit
      have hsum : total a + total (classed b) + total (Garbage.unclassed b) = total (a ++ b) := by
        rw [total_append, total_split b, Nat.add_assoc]
      rw [hab] at hle
      refine ⟨_, c.settled bin stripe a b, _, _, _, _, ?_, balanced_settled h hab,
        drained_settled hab, hfit'⟩
      change (if budget < freed + c.retainedBytes stripe then _ else _) = _
      rw [if_pos hover]
      dsimp only [Collector.take] at heq ⊢
      rw [heq, hab]
      simp only [hsum, Collector.subRetained]
      change (do
        let c' ← (do
          let held ← fetchSub (c.retainedBytes stripe) (total (a ++ b))
          pure { (c.take bin stripe).2.settle stripe _ _ _ with
            retainedBytes := Function.update c.retainedBytes stripe held })
        pure (_, c') : Except Fault (ℕ × Collector)) = _
      rw [fetchSub_eq hle]
      rfl
    · have hfits : freed + total (c.queued bin stripe) ≤ budget := by omega
      have hab : c.queued bin stripe = c.queued bin stripe ++ [] := (List.append_nil _).symm
      refine ⟨_, c.settled bin stripe (c.queued bin stripe) [], _, _, _, _, ?_,
        balanced_settled h hab, drained_settled hab, hfit.whole hfits⟩
      change (if budget < freed + c.retainedBytes stripe then _ else _) = _
      rw [if_neg hover]
      simp only [Collector.subRetained, freeStripe_eq]
      change (do
        let c' ← (do
          let held ← fetchSub (c.retainedBytes stripe) (total (c.queued bin stripe))
          pure { (c.take bin stripe).2.settle stripe _ _ _ with
            retainedBytes := Function.update c.retainedBytes stripe held })
        pure (_, c') : Except Fault (ℕ × Collector)) = _
      rw [fetchSub_eq hle]
      simp only [Collector.settled, List.append_nil]
      rfl

theorem drainStripes_spec (h : Balanced c) (hfit : Fits budget freed now) (bin : ℕ) (stripes : List ℕ) :
    ∃ freed' c' moved reclaimed appended taken,
      Collector.drainStripes bin budget stripes freed c = .ok c' ∧ Balanced c' ∧
      Drained bin c c' moved reclaimed appended taken ∧ Fits budget freed' (now ++ moved) := by
  induction stripes generalizing c freed now with
  | nil => exact ⟨freed, c, [], [], [], [], rfl, h, drained_refl bin c, by simpa using hfit⟩
  | cons stripe stripes ih =>
    obtain ⟨f₁, c₁, m₁, r₁, a₁, t₁, heq₁, h₁, hd₁, hfit₁⟩ := drainStripe_spec h hfit bin stripe
    obtain ⟨f₂, c₂, m₂, r₂, a₂, t₂, heq₂, h₂, hd₂, hfit₂⟩ := ih h₁ hfit₁
    refine ⟨f₂, c₂, m₁ ++ m₂, r₂ ++ r₁, a₁ ++ a₂, t₁ ++ t₂, ?_, h₂, hd₁.trans hd₂, ?_⟩
    · rw [Collector.drainStripes, heq₁]
      exact heq₂
    · rwa [← List.append_assoc]

/-- The loop of `free_carried` frees a front part of the reversed list, and a block at least. -/
theorem freeCarriedLoop_spec (hfit : Fits budget freed now) (l : List Garbage) :
    ∃ out left, l = out ++ left ∧ Collector.freeCarriedLoop budget freed l = (out, left) ∧
      Fits budget (freed + total out) (now ++ out) ∧ (freed = 0 → l ≠ [] → out ≠ []) := by
  induction l generalizing freed now with
  | nil => exact ⟨[], [], rfl, rfl, by simpa using hfit, fun _ hne => absurd rfl hne⟩
  | cons g l ih =>
    by_cases hover : freed ≠ 0 ∧ budget < freed + g.bytes
    · refine ⟨[], g :: l, rfl, ?_, by simpa using hfit, fun hz => absurd hz hover.1⟩
      rw [Collector.freeCarriedLoop, if_pos hover]
    · obtain ⟨out, left, rfl, heq, hfit', -⟩ := ih (hfit.free (g := g) (by omega))
      refine ⟨g :: out, left, rfl, ?_, by simpa [Nat.add_assoc] using hfit', fun _ _ => by simp⟩
      rw [Collector.freeCarriedLoop, if_neg hover, heq]

/-- The carry list's turn: blocks leave from its end, one at least, and the counters follow. -/
theorem freeCarry_spec (h : Balanced c) (budget : ℕ) :
    ∃ freed c' kept out, c.freeCarry budget = .ok (freed, c') ∧ Balanced c' ∧
      c.carry = kept ++ out.reverse ∧ (c.carry ≠ [] → out ≠ []) ∧ Fits budget freed out ∧
      (∀ g ∈ out, g.cls = none) ∧ c' = { c with
        carry := kept
        freed := c.freed ++ out
        carriedBlocks := kept.length
        carriedBytes := total kept } := by
  unfold Collector.freeCarry
  by_cases hempty : c.carry = []
  · refine ⟨0, c, [], [], by simp [hempty], h, by simpa using hempty, absurd hempty, fits_nil budget,
      by simp, ?_⟩
    have hblocks := h.carriedBlocks
    have hbytes := h.carriedBytes
    cases c
    simp_all
  · rw [if_neg (by simpa using hempty)]
    obtain ⟨out, left, hsplit, heq, hfit, hne⟩ := freeCarriedLoop_spec (fits_nil budget) c.carry.reverse
    have hcarry : c.carry = left.reverse ++ out.reverse := by
      rw [← List.reverse_append, ← hsplit, List.reverse_reverse]
    have hblocks : c.carriedBlocks - out.length = left.reverse.length := by
      rw [h.carriedBlocks, hcarry]
      simp
    have hbytes : c.carriedBytes = total left.reverse + total out := by
      rw [h.carriedBytes, hcarry, total_append, total_perm out.reverse_perm]
    have hout : ∀ g ∈ out, g.cls = none := fun g hg => h.unclassed g (by simp [hcarry, hg])
    refine ⟨total out, { c with
      carry := left.reverse
      freed := c.freed ++ out
      carriedBlocks := left.reverse.length
      carriedBytes := total left.reverse }, left.reverse, out, ?_, ?_, hcarry,
      fun _ => hne rfl (by simpa using hempty), by simpa using hfit, hout, rfl⟩
    · simp only [Collector.freeCarried, heq]
      rw [fetchSub_eq (by rw [h.carriedBlocks, hcarry]; simp), fetchSub_eq (by omega), hblocks, hbytes,
        Nat.add_sub_cancel]
      rfl
    · refine ⟨?_, h.retained, h.stripes, rfl, rfl, h.classes, ?_⟩
      · refine h.conserved.trans ?_
        rw [hcarry, ← Multiset.coe_eq_coe]
        simp only [← Multiset.coe_add, Multiset.coe_reverse]
        abel
      · intro g hg
        refine h.unclassed g ?_
        simp only [hcarry, List.mem_append, List.mem_reverse] at hg ⊢
        tauto

/-- What one advance does: `out` was freed from the end of the carry list, and of the blocks
`taken` from the bin two epochs back `moved` was freed, `reclaimed` went to the freelists and
`appended` was carried. -/
structure Accounts (c c' : Collector) (kept out moved appended : List Garbage) (reclaimed : List Free)
    (taken : List Queued) : Prop where
  carry : c.carry = kept ++ out.reverse
  carried : c'.carry = kept ++ appended
  freed : c'.freed = c.freed ++ (out ++ moved)
  freelists : c'.freelists = reclaimed ++ c.freelists
  garbage : c.garbage.Perm (taken ++ c'.garbage)
  bins : ∀ q ∈ taken, q.bin = (c.epoch + BINS - 1) % BINS
  split : (taken.map Queued.block).Perm (moved ++ reclaimed.map Free.block ++ appended)
  classes : ∀ f ∈ reclaimed, f.block.cls = some f.cls
  unclassed : ∀ g ∈ out ++ moved ++ appended, g.cls = none
  budget : ∀ g, (out ++ moved).head? = some g → total (out ++ moved) ≤ max c.freeBudget g.bytes
  progress : c.carry ≠ [] → out ≠ []

theorem tryAdvance_eq {c₁ : Collector} (h : c.freeCarry c.freeBudget = .ok (freed, c₁)) :
    c.tryAdvance = if c₁.readers.any fun slot => slot.isSome && slot != some c₁.epoch then .ok c₁
      else Collector.drainStripes ((c₁.epoch + BINS - 1) % BINS) c.freeBudget (List.range c₁.stripeBound)
        freed { c₁ with epoch := c₁.epoch + 1 } := by
  simp only [Collector.tryAdvance, h]
  rfl

theorem tryAdvance_spec (h : Balanced c) : ∃ c' kept out moved appended reclaimed taken,
    c.tryAdvance = .ok c' ∧ Balanced c' ∧ Accounts c c' kept out moved appended reclaimed taken := by
  obtain ⟨freed, c₁, kept, out, heq, h₁, hcarry, hne, hfit, hout, rfl⟩ := freeCarry_spec h c.freeBudget
  rw [tryAdvance_eq heq]
  split
  · refine ⟨_, kept, out, [], [], [], [], rfl, h₁, hcarry, by simp, by simp, by simp, by simp, by simp,
      by simp, by simp, by simpa using hout, fun g hg => ?_, hne⟩
    rw [List.append_nil] at hg ⊢
    exact hfit.le_max hg
  · have hnext := drainStripes_spec (c := { c with
      carry := kept
      freed := c.freed ++ out
      carriedBlocks := kept.length
      carriedBytes := total kept
      epoch := c.epoch + 1 }) ⟨h₁.conserved, h₁.retained, h₁.stripes, rfl, rfl, h₁.classes, h₁.unclassed⟩
      hfit ((c.epoch + BINS - 1) % BINS) (List.range c.stripeBound)
    obtain ⟨freed', c', moved, reclaimed, appended, taken, hdrain, h', hd, hfit'⟩ := hnext
    refine ⟨c', kept, out, moved, appended, reclaimed, taken, hdrain, h', hcarry, hd.carry, ?_,
      hd.freelists, hd.garbage, hd.bins, hd.split, hd.classes, fun g hg => ?_, fun g hg => hfit'.le_max hg,
      hne⟩
    · rw [hd.freed, List.append_assoc]
    · rw [List.append_assoc] at hg
      exact (List.mem_append.mp hg).elim (hout g) (hd.unclassed g)

theorem balanced_new (budget : ℕ) : Balanced (.new budget) where
  conserved := .refl _
  retained _ := rfl
  stripes := by simp [Collector.new]
  carriedBlocks := rfl
  carriedBytes := rfl
  classes := by simp [Collector.new]
  unclassed := by simp [Collector.new]

theorem balanced_retire (h : Balanced c) (g : Garbage) (slot : ℕ) : Balanced (c.retire g slot) where
  conserved := by
    have hc := h.conserved.append_right [g]
    rw [← Multiset.coe_eq_coe] at hc ⊢
    simp only [Collector.retire, List.map_append, ← Multiset.coe_add] at *
    rw [hc]
    simp only [List.map_cons, List.map_nil]
    abel
  retained i := by
    simp only [Collector.retire, List.filter_append, List.map_append, total_append]
    by_cases hi : i = slot % NUM_EPOCH_STRIPES
    · subst hi
      simp [h.retained]
    · simp [h.retained, Function.update_of_ne hi, Ne.symm hi]
  stripes q hq := by
    rcases List.mem_append.mp hq with hq | hq
    · exact h.stripes q hq
    · rw [List.mem_singleton.mp hq]
      exact Nat.mod_lt _ (by decide)
  carriedBlocks := h.carriedBlocks
  carriedBytes := h.carriedBytes
  classes := h.classes
  unclassed := h.unclassed

theorem balanced_call (h : Balanced c) (call : Call) : ∃ c', c.call call = .ok c' ∧ Balanced c' := by
  cases call with
  | retire g slot => exact ⟨_, rfl, balanced_retire h g slot⟩
  | tryAdvance =>
    obtain ⟨c', -, -, -, -, -, -, heq, h', -⟩ := tryAdvance_spec h
    exact ⟨c', heq, h'⟩
  | register =>
    exact ⟨_, rfl, h.conserved, h.retained, h.stripes, h.carriedBlocks, h.carriedBytes, h.classes, h.unclassed⟩
  | pin i =>
    exact ⟨_, rfl, h.conserved, h.retained, h.stripes, h.carriedBlocks, h.carriedBytes, h.classes, h.unclassed⟩
  | unpin i =>
    exact ⟨_, rfl, h.conserved, h.retained, h.stripes, h.carriedBlocks, h.carriedBytes, h.classes, h.unclassed⟩
  | setFreeBudget bytes =>
    exact ⟨_, rfl, h.conserved, h.retained, h.stripes, h.carriedBlocks, h.carriedBytes, h.classes, h.unclassed⟩

theorem balanced_run (h : Balanced c) (calls : List Call) : ∃ c', c.run calls = .ok c' ∧ Balanced c' := by
  induction calls generalizing c with
  | nil => exact ⟨c, rfl, h⟩
  | cons call calls ih =>
    obtain ⟨c₁, heq, h₁⟩ := balanced_call h call
    obtain ⟨c₂, hrun, h₂⟩ := ih h₁
    refine ⟨c₂, ?_, h₂⟩
    rw [Collector.run, heq]
    exact hrun

theorem sum_total_filter (n : ℕ) (l : List Queued) (hl : ∀ q ∈ l, q.stripe < n) :
    ((List.range n).map fun i => total ((l.filter (·.stripe = i)).map Queued.block)).sum =
      total (l.map Queued.block) := by
  rw [← List.sum_toFinset _ List.nodup_range, List.toFinset_range]
  induction l with
  | nil => simp
  | cons q l ih =>
    have hstep : ∀ i, total (((q :: l).filter (·.stripe = i)).map Queued.block) =
        (if q.stripe = i then q.block.bytes else 0) + total ((l.filter (·.stripe = i)).map Queued.block) := by
      intro i
      by_cases hi : q.stripe = i <;> simp [hi]
    simp only [hstep, Finset.sum_add_distrib, ih fun p hp => hl p (List.mem_cons_of_mem _ hp)]
    rw [Finset.sum_ite_eq, if_pos (Finset.mem_range.mpr (hl q List.mem_cons_self))]
    rfl

theorem Balanced.retained_eq (h : Balanced c) :
    c.retained = total (c.garbage.map Queued.block) + total c.carry := by
  have hsum := sum_total_filter NUM_EPOCH_STRIPES c.garbage h.stripes
  rw [Collector.retained, h.carriedBytes, Nat.add_comm, ← hsum]
  simp only [← h.retained]

/-- No run of calls wraps a counter; after it the books are balanced, the retained bytes are
those of the bins and of the carry list, and the next advance accounts for every block. -/
theorem collector_accounts (budget : ℕ) (calls : List Call) :
    ∃ c, (Collector.new budget).run calls = .ok c ∧ Balanced c ∧
      c.retained = total (c.garbage.map Queued.block) + total c.carry ∧
      ∃ c' kept out moved appended reclaimed taken, c.tryAdvance = .ok c' ∧
        Accounts c c' kept out moved appended reclaimed taken := by
  obtain ⟨c, hrun, h⟩ := balanced_run (balanced_new budget) calls
  obtain ⟨c', kept, out, moved, appended, reclaimed, taken, heq, -, hacc⟩ := tryAdvance_spec h
  exact ⟨c, hrun, h, h.retained_eq, c', kept, out, moved, appended, reclaimed, taken, heq, hacc⟩

end Expanse.Occ
