import Expanse.Engine.InsertSpec

/-!
# Inserts through the cached path

A warm insert stores at the end of a recorded route and leaves the populations of
the branches above it behind; a flush catches them up. The tree between two
flushes is described through the flushed one: it has the same entries, and a
store at the cached leaf is the same update of both.
-/

namespace Expanse

open Radix SortedAssoc

theorem Aux.pop0_setPop0_mod (aux level p : ℕ) :
    Aux.pop0 (Aux.setPop0 aux level p) level = p % 256 ^ level := by
  rw [Aux.pop0, Aux.setPop0, setSlice_low (Nat.zero_le level)]
  simp [Nat.mod_one]

theorem Aux.setPop0_pop0 (aux level : ℕ) : Aux.setPop0 aux level (Aux.pop0 aux level) = aux := by
  rw [Aux.setPop0, setSlice, Aux.pop0]
  have := low_div_add aux level
  have hm : low aux level % 256 ^ level = low aux level := Nat.mod_eq_of_lt (low_lt _ _)
  simp only [Nat.sub_zero, pow_zero, Nat.mul_one, Nat.mod_one, Nat.add_zero, hm]
  exact this

namespace Edge

variable {V : Type} {fl : Flavour} {P : Branch (Edge V) → Prop} {L n d u aux : ℕ} {ds route : List ℕ}
  {e t t' : Edge V} {node : Branch (Edge V)}

theorem resolve_null (h : resolve L (null : Edge V) route = some (u, t)) : t = null := by
  cases route with
  | nil =>
    rw [resolve] at h
    split_ifs at h
    cases h
    rfl
  | cons d ds => simp [resolve] at h

/-- A route through a branch passes one of its slots. -/
theorem resolve_cons (h : resolve L (branch aux node) (d :: ds) = some (u, t)) (ht : t ≠ null) :
    (node.find d).isSome ∧ ∃ u', resolve (node.level L - 1) (node.child d) ds = some (u', t) ∧
      u = slice aux (node.level L) L * 256 ^ (node.level L - 1) +
        d * 256 ^ (node.level L - 2) + u' := by
  rw [resolve, Option.map_eq_some_iff] at h
  obtain ⟨⟨u', t'⟩, hr, he⟩ := h
  cases he
  refine ⟨?_, u', hr, rfl⟩
  by_contra hn
  rw [Bool.not_eq_true, Option.isSome_eq_false_iff, Option.isNone_iff_eq_none] at hn
  rw [Branch.child, hn] at hr
  exact ht (resolve_null hr)

/-- A non-empty route starts at a branch. -/
theorem resolve_branch (h : resolve L e (d :: ds) = some (u, t)) :
    ∃ aux node, e = branch aux node := by
  cases e with
  | branch aux node => exact ⟨aux, node, rfl⟩
  | _ => simp [resolve] at h

theorem BranchReadable.store {c : Edge V} (h : BranchReadable fl P L node)
    (hd : (node.find d).isSome) (hc : Readable fl P (node.level L - 1) c) (hn : c ≠ null)
    (hP : P (node.setChild d c)) : BranchReadable fl P L (node.setChild d c) where
  ok := Branch.setChild_ok h.ok hd c
  filled := Branch.setChild_filled h.ok hd hn fun hs x e _ he => h.filled hs x e he
  holds := hP
  two_le := by
    rw [Branch.level_setChild]
    exact h.two_le
  le := by
    rw [Branch.level_setChild]
    exact h.le
  kids := by
    intro x e he
    rw [Branch.level_setChild]
    rw [Branch.find_setChild h.ok hd] at he
    split_ifs at he with hx
    · cases he
      exact hc
    · exact h.kids x e he

theorem flushRoute_ne_null (h : e ≠ null) : flushRoute n L e route ≠ null := by
  cases e <;> cases route <;> simp_all [flushRoute]

theorem storeAt_ne_null (h : e ≠ null) (ht : t' ≠ null) : storeAt t' e route ≠ null := by
  cases e <;> cases route <;> simp_all [storeAt]

/-- Adding nothing to the ancestors changes nothing. -/
theorem flushRoute_zero (h : Readable fl P L e) (hr : resolve L e route = some (u, t))
    (ht : t ≠ null) : flushRoute 0 L e route = e := by
  induction route generalizing L e u with
  | nil => cases e <;> rfl
  | cons d ds ih =>
    obtain ⟨aux, node, rfl⟩ := resolve_branch hr
    have hb := readable_branch.mp h
    obtain ⟨hd, u', hr', -⟩ := resolve_cons hr ht
    obtain ⟨c, hc⟩ := Option.isSome_iff_exists.mp hd
    have hchild : node.child d = c := by rw [Branch.child, hc]; rfl
    rw [flushRoute, ih (hb.child d) hr', hchild, Branch.setChild_find hb.ok hc]
    simp only [Nat.add_zero, Aux.setPop0_pop0, ite_self]

theorem slice_flushed {bl : ℕ} : slice (if bl ≤ 7 then Aux.setPop0 aux bl (Aux.pop0 aux bl + n)
    else aux) bl L = slice aux bl L := by
  split_ifs
  · exact Aux.slice_setPop0 le_rfl
  · rfl

/-- Byte composition below a branch that sits at level `l`. -/
theorem compose_byte {l a x : ℕ} (h2 : 2 ≤ l) :
    (a * 256 ^ (l - 1) + d * 256 ^ (l - 2) + u) * 256 + x =
      a * 256 ^ l + d * 256 ^ (l - 1) + (u * 256 + x) := by
  have e1 : 256 ^ l = 256 ^ (l - 1) * 256 := pow_pred (by omega)
  have e2 : 256 ^ (l - 1) = 256 ^ (l - 2) * 256 := by
    have := pow_pred (show 1 ≤ l - 1 by omega)
    rwa [show l - 1 - 1 = l - 2 by omega] at this
  rw [e1, e2]
  ring

/-- The bits above the end of a route, with a byte below them, fit in the slot's bytes. -/
theorem resolve_bound {x : ℕ} (h : Readable fl P L e) (hr : resolve L e route = some (u, t))
    (ht : t ≠ null) (hx : x < 256) : u * 256 + x < 256 ^ L := by
  induction route generalizing L e u with
  | nil =>
    rw [resolve] at hr
    split_ifs at hr with hL
    cases hr
    subst hL
    simpa using hx
  | cons d ds ih =>
    obtain ⟨aux, node, rfl⟩ := resolve_branch hr
    have hb := readable_branch.mp h
    have h2 := hb.two_le
    obtain ⟨hd, u', hr', rfl⟩ := resolve_cons hr ht
    obtain ⟨c, hc⟩ := Option.isSome_iff_exists.mp hd
    have hd256 := Branch.find_lt hb.ok hc
    have : node.level L - (node.level L - 1) = 1 := by omega
    rw [compose_byte h2, Nat.add_assoc]
    exact mul_add_lt hb.le (slice_lt _ _ _)
      (mul_add_lt (Nat.sub_le _ 1) (by simpa [this] using hd256) (ih (hb.child d) hr'))

/-- The descent for a key ends where a route leads that carries the key's bits. -/
theorem terminal_resolve {key : ℕ} (h : Readable fl P L e) (hr : resolve L e route = some (u, t))
    (ht : t ≠ null) (hn : ∀ aux node, t ≠ branch aux node) (hu : low key L / 256 = u) :
    terminal L e key = (1, t) := by
  induction route generalizing L e u with
  | nil =>
    rw [resolve] at hr
    split_ifs at hr with hL
    cases hr
    subst hL
    rw [terminal]
    exact hn
  | cons d ds ih =>
    obtain ⟨aux, node, rfl⟩ := resolve_branch hr
    have hb := readable_branch.mp h
    have h2 := hb.two_le
    have hl := hb.le
    obtain ⟨hd, u', hr', hu'⟩ := resolve_cons hr ht
    obtain ⟨c, hc⟩ := Option.isSome_iff_exists.mp hd
    have hlow : low key L = slice aux (node.level L) L * 256 ^ node.level L +
        d * 256 ^ (node.level L - 1) + (u' * 256 + digit key 1) := by
      rw [← compose_byte h2, ← hu', ← hu, ← low_one, ← low_low (show 1 ≤ L by omega)]
      simp only [low, pow_one]
      omega
    obtain ⟨hs, hdig, hlo⟩ := (eq_compose_iff (by omega) hl (low_lt key L)
      (Branch.find_lt hb.ok hc) (resolve_bound (hb.child d) hr' ht (digit_lt key 1))).mp hlow
    rw [slice_low le_rfl hl] at hs
    rw [digit_low (by omega) hl] at hdig
    rw [low_low (by omega)] at hlo
    rw [terminal, dif_pos ⟨by omega, hl⟩, if_pos hs, hdig]
    apply ih (hb.child d) hr'
    have := digit_lt key 1
    omega

theorem resolve_flushRoute (h : Readable fl P L e) (hr : resolve L e route = some (u, t))
    (ht : t ≠ null) : resolve L (flushRoute n L e route) route = some (u, t) := by
  induction route generalizing L e u with
  | nil => cases e <;> exact hr
  | cons d ds ih =>
    obtain ⟨aux, node, rfl⟩ := resolve_branch hr
    have hb := readable_branch.mp h
    obtain ⟨hd, u', hr', rfl⟩ := resolve_cons hr ht
    rw [flushRoute, resolve_setChild _ hb.ok hd (ih (hb.child d) hr'), slice_flushed]

theorem resolve_storeAt (h : Readable fl P L e) (hr : resolve L e route = some (u, t))
    (ht : t ≠ null) : resolve L (storeAt t' e route) route = some (u, t') := by
  induction route generalizing L e u with
  | nil =>
    rw [resolve] at hr ⊢
    split_ifs at hr with hL
    cases hr
    rw [if_pos hL, storeAt]
  | cons d ds ih =>
    obtain ⟨aux, node, rfl⟩ := resolve_branch hr
    have hb := readable_branch.mp h
    obtain ⟨hd, u', hr', rfl⟩ := resolve_cons hr ht
    rw [storeAt, resolve_setChild _ hb.ok hd (ih (hb.child d) hr')]

variable [Inhabited V] {lo : ℕ → ℕ → ℕ}

/-- Two branches with the same skipped digits and the same entries below every digit. -/
theorem entries_congr_child {aux' : ℕ} {node' : Branch (Edge V)} (h : BranchReadable fl P L node)
    (h' : BranchReadable fl P L node') (hlev : node'.level L = node.level L)
    (haux : slice aux' (node.level L) L = slice aux (node.level L) L)
    (hc : ∀ x, entries (node.level L - 1) (node'.child x) =
      entries (node.level L - 1) (node.child x)) :
    entries L (branch aux' node') = entries L (branch aux node) := by
  apply KeySorted.ext (readable_branch.mpr h').sorted (readable_branch.mpr h).sorted
  intro k v
  rw [h'.mem_entries, h.mem_entries, hlev, haux, hc]

theorem flushRoute_entries (h : Readable fl (fun _ => True) L e)
    (hr : resolve L e route = some (u, t)) (ht : t ≠ null) :
    Readable fl (fun _ => True) L (flushRoute n L e route) ∧
      entries L (flushRoute n L e route) = entries L e := by
  induction route generalizing L e u with
  | nil => cases e <;> exact ⟨h, rfl⟩
  | cons d ds ih =>
    obtain ⟨aux, node, rfl⟩ := resolve_branch hr
    have hb := readable_branch.mp h
    obtain ⟨hd, u', hr', rfl⟩ := resolve_cons hr ht
    obtain ⟨hread, hent⟩ := ih (hb.child d) hr'
    have hn : flushRoute n (node.level L - 1) (node.child d) ds ≠ null := by
      apply flushRoute_ne_null
      intro hnull
      rw [hnull] at hr'
      exact ht (resolve_null hr')
    have hb' := hb.store hd hread hn trivial
    rw [flushRoute]
    refine ⟨readable_branch.mpr hb', entries_congr_child hb hb' (by simp) slice_flushed ?_⟩
    intro x
    rw [Branch.child_setChild hb.ok hd]
    split_ifs with hx
    · rw [hx, hent]
    · rfl

/-- The keys below the end of a route are those of the whole tree with the route's bits. -/
theorem mem_entries_resolve {x : ℕ} {v : V} (h : Readable fl P L e)
    (hr : resolve L e route = some (u, t)) (ht : t ≠ null) (hx : x < 256) :
    (u * 256 + x, v) ∈ entries L e ↔ (x, v) ∈ entries 1 t := by
  induction route generalizing L e u with
  | nil =>
    rw [resolve] at hr
    split_ifs at hr with hL
    cases hr
    rw [hL, Nat.zero_mul, Nat.zero_add]
  | cons d ds ih =>
    obtain ⟨aux, node, rfl⟩ := resolve_branch hr
    have hb := readable_branch.mp h
    have h2 := hb.two_le
    have hl := hb.le
    obtain ⟨hd, u', hr', rfl⟩ := resolve_cons hr ht
    have hd256 : d < 256 := by
      obtain ⟨c, hc⟩ := Option.isSome_iff_exists.mp hd
      exact Branch.find_lt hb.ok hc
    have hb1 : u' * 256 + x < 256 ^ (node.level L - 1) := resolve_bound (hb.child d) hr' ht hx
    rw [compose_byte h2, hb.mem_entries, ← ih (hb.child d) hr']
    have hk : slice aux (node.level L) L * 256 ^ node.level L + d * 256 ^ (node.level L - 1) +
        (u' * 256 + x) < 256 ^ L := by
      rw [Nat.add_assoc]
      have : node.level L - (node.level L - 1) = 1 := by omega
      exact mul_add_lt hl (slice_lt _ _ _)
        (mul_add_lt (Nat.sub_le _ 1) (by simpa [this] using hd256) hb1)
    obtain ⟨hs, hdig, hlow⟩ := (eq_compose_iff (by omega) hl hk hd256 hb1).mp rfl
    rw [hs, hdig, hlow]
    simp [hk]

/-- A store at the cached leaf, seen from the root: it updates the entries at the leaf's own key
bits, and one more deferred increment for a new key keeps the flushed tree well formed. -/
theorem storeAt_spec {x b : ℕ} {v : V} (h : Readable fl (fun _ => True) L e)
    (hw : WF fl lo L (flushRoute n L e route)) (hr : resolve L e route = some (u, t))
    (ht : t ≠ null) (ht' : t' ≠ null) (hwt : WF fl lo 1 t') (hx : x < 256)
    (hu : Updated x v (entries 1 t) (entries 1 t'))
    (hb : b = if x ∈ (entries 1 t).map Prod.fst then 0 else 1) :
    Readable fl (fun _ => True) L (storeAt t' e route) ∧
      WF fl lo L (flushRoute (n + b) L (storeAt t' e route) route) ∧
      Updated (u * 256 + x) v (entries L e) (entries L (storeAt t' e route)) := by
  induction route generalizing L e u with
  | nil =>
    rw [resolve] at hr
    split_ifs at hr with hL
    cases hr
    subst hL
    have he : flushRoute (n + b) 1 t' [] = t' := by cases t' <;> rfl
    rw [storeAt, he]
    exact ⟨hwt.1.readable, hwt, by simpa [storeAt] using hu⟩
  | cons d ds ih =>
    obtain ⟨aux, node, rfl⟩ := resolve_branch hr
    have hbr := readable_branch.mp h
    have h2 := hbr.two_le
    have hl := hbr.le
    have hmem := fun v => mem_entries_resolve (v := v) h hr ht hx
    obtain ⟨hfr, hfe⟩ := flushRoute_entries (n := n) h hr ht
    obtain ⟨hd, u', hr', rfl⟩ := resolve_cons hr ht
    have hcn : node.child d ≠ null := by
      intro hnull
      rw [hnull] at hr'
      exact ht (resolve_null hr')
    have hd256 : d < 256 := by
      obtain ⟨c, hc⟩ := Option.isSome_iff_exists.mp hd
      exact Branch.find_lt hbr.ok hc
    -- the flushed branch, with the flushed child in its slot
    rw [flushRoute] at hw hfr hfe
    set bl := node.level L with hbl
    set c1 := flushRoute n (bl - 1) (node.child d) ds
    set aux1 := if bl ≤ 7 then Aux.setPop0 aux bl (Aux.pop0 aux bl + n) else aux with haux1
    have hs1 := shape_branch.mp hw.1
    have hlev : (node.setChild d c1).level L = bl := by simp [hbl]
    have hfind1 : ((node.setChild d c1).find d).isSome := by
      rw [Branch.find_setChild hbr.ok hd, if_pos rfl]
      rfl
    have hc1 : WF fl lo (bl - 1) c1 := by
      have := hs1.kids d c1 (by rw [Branch.find_setChild hbr.ok hd, if_pos rfl])
      rwa [hlev] at this
    obtain ⟨hread, hwf, hupd⟩ := ih (hbr.child d) hc1 hr'
    set s := storeAt t' (node.child d) ds
    have hsn : s ≠ null := storeAt_ne_null hcn ht'
    have hbs := hbr.store hd hread hsn trivial
    have hstore : storeAt t' (branch aux node) (d :: ds) = branch aux (node.setChild d s) := by
      rw [storeAt]
    rw [hstore]
    -- the new flushed branch, as a store into the old flushed one
    set c2 := flushRoute (n + b) (bl - 1) s ds
    set aux2 := if bl ≤ 7 then Aux.setPop0 aux bl (Aux.pop0 aux bl + (n + b)) else aux with haux2
    have hc2n : c2 ≠ null := flushRoute_ne_null hsn
    have hflush : flushRoute (n + b) L (branch aux (node.setChild d s)) (d :: ds) =
        branch aux2 ((node.setChild d c1).setChild d c2) := by
      rw [flushRoute, Branch.level_setChild, Branch.child_setChild hbr.ok hd, if_pos rfl,
        Branch.setChild_setChild, Branch.setChild_setChild]
    have o := Opened.refl hs1 hfind1
    have hwf' : WF fl lo ((node.setChild d c1).level L - 1) c2 := by rw [hlev]; exact hwf
    have hs2 := hs1.store o hwf' hc2n
    have hsl1 : slice aux1 bl L = slice aux bl L := slice_flushed
    have hsl2 : slice aux2 bl L = slice aux bl L := slice_flushed
    have hroute : resolve (bl - 1) s ds = some (u', t') := resolve_storeAt (hbr.child d) hr' ht
    have hent1 : entries (bl - 1) c1 = entries (bl - 1) (node.child d) :=
      (flushRoute_entries (hbr.child d) hr' ht).2
    have hent2 : entries (bl - 1) c2 = entries (bl - 1) s := (flushRoute_entries hread hroute ht').2
    have hent : entries L (branch aux2 ((node.setChild d c1).setChild d c2)) =
        entries L (branch aux (node.setChild d s)) := by
      refine entries_congr_child hbs hs2.readable (by simp) (by simpa using hsl2) ?_
      intro y
      rw [Branch.level_setChild, Branch.setChild_setChild, Branch.child_setChild hbr.ok hd,
        Branch.child_setChild hbr.ok hd]
      split_ifs
      · exact hent2
      · rfl
    -- the update below the slot is an update of the branch
    have hxu : u' * 256 + x < 256 ^ (bl - 1) := resolve_bound (hbr.child d) hr' ht hx
    have hup := updated_store hs1 o aux1 aux2 (x := u' * 256 + x) (v := v)
      hwf' hc2n (by rw [hlev, hsl2, hsl1]) hd256 (by rw [hlev]; exact hxu) (by
        rw [hlev, Branch.child_setChild hbr.ok hd, if_pos rfl, hent1, hent2]
        exact hupd)
    rw [hlev, hsl1, hfe, hent, ← compose_byte h2] at hup
    refine ⟨readable_branch.mpr hbs, ?_, hup⟩
    rw [hflush]
    refine ⟨shape_branch.mpr hs2, ?_⟩
    intro h7
    have hlength := hup.length h.sorted (readable_branch.mpr hbs).sorted
    have hle := hs2.length_le aux2
    simp only [Branch.level_setChild] at h7 hle ⊢
    rw [← hbl] at h7 hle ⊢
    rw [hent] at hle ⊢
    have hx1 := hw.2
    rw [Exact, hfe, hlev, haux1, if_pos h7, Aux.pop0_setPop0_mod] at hx1
    have hx1 := hx1 h7
    rw [haux2, if_pos h7, Aux.pop0_setPop0_mod]
    have hin : (slice aux bl L * 256 ^ (bl - 1) + d * 256 ^ (bl - 2) + u') * 256 + x ∈
        (entries L (branch aux node)).map Prod.fst ↔ x ∈ (entries 1 t).map Prod.fst := by
      simp only [List.mem_map, Prod.exists, exists_and_right, exists_eq_right, hmem]
    simp only [hin] at hlength
    have hlength' : (entries L (branch aux (node.setChild d s))).length =
        (entries L (branch aux node)).length + b := by
      rw [hlength, hb]
      split_ifs <;> rfl
    rw [hlength'] at hle ⊢
    rw [← Nat.add_assoc, Nat.add_mod, Nat.mod_eq_of_lt (a := (_ % _) + b % _)]
    · rw [Nat.mod_eq_of_lt (a := b)]
      · omega
      · omega
    · have := Nat.mod_le b (256 ^ bl)
      omega

end Edge

end Expanse
