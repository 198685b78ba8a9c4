import Expanse.StrMap.Neighbours
import Expanse.StrMap.Tidy

/-!
# The searches find the neighbours

Each search returns the first or the last entry of a part of the ascending list of
entries. One level cuts its items at the chunk of the probe: the items below the chunk hold
smaller keys and the items above it greater ones, so only the item at the chunk is searched
further, and a level that has nothing hands over to the levels on the stack.
-/

namespace Expanse.StrMap

open SortedAssoc BigEndian NodeAlloc Runs

variable {M : WordMap} {C : M.Correct} {s : ExpanseStrMap M} {a : NodeAlloc M} {kids l l₁ l₂ g : Kids}
  {c p q v : ℕ} {x : Item} {k key out : List ℕ} {slot : ValueSlot M} {min : Bool}

def ends {α : Type} (min : Bool) (l : List α) : Option α := if min then l.head? else l.getLast?

section Ends

variable {α β : Type} {r r₁ r₂ : List α} {e : α}

@[simp] theorem ends_nil : ends min ([] : List α) = none := by cases min <;> rfl

@[simp] theorem ends_singleton : ends min [e] = some e := by cases min <;> rfl

theorem ends_map (f : α → β) : ends min (r.map f) = (ends min r).map f := by
  cases min
  · exact List.getLast?_map
  · exact List.head?_map

theorem ends_append_right (h : ends false r₂ = some e) : ends false (r₁ ++ r₂) = some e := by
  simp only [ends, Bool.false_eq_true, if_false] at h ⊢
  rw [List.getLast?_append, h, Option.some_or]

theorem ends_append_left (h : ends true r₁ = some e) : ends true (r₁ ++ r₂) = some e := by
  simp only [ends, if_true] at h ⊢
  rw [List.head?_append, h, Option.some_or]

theorem ends_mem (h : ends min r = some e) : e ∈ r := by
  cases min
  · exact List.mem_of_getLast? h
  · exact List.mem_of_head? h

theorem ends_isSome (h : r ≠ []) : ∃ e, ends min r = some e := by
  cases min
  · exact ⟨_, List.getLast?_eq_some_getLast h⟩
  · exact ⟨_, List.head?_eq_some_head h⟩

end Ends

/-- The extreme entry of a level is the extreme entry of its extreme item. -/
theorem ends_entries {e : List ℕ × ℕ} (hk : ends min l = some (c, x)) (he : ends min (x.entries c) = some e) :
    ends min (entries l) = some e := by
  cases min
  · obtain ⟨r, rfl⟩ := List.getLast?_eq_some_iff.mp hk
    rw [entries_append]
    refine ends_append_right ?_
    rw [entries, entries, List.append_nil]
    exact he
  · obtain ⟨r, rfl⟩ := List.head?_eq_some_iff.mp hk
    rw [entries]
    exact ends_append_left he

/-- The entry `(k, v)` below the shell at `p` keeps its value in `slot`. -/
inductive Slots (C : M.Correct) (a : NodeAlloc M) : ℕ → Kids → List ℕ → ℕ → ValueSlot M → Prop
  | value {p c v : ℕ} {kids : Kids} {m : M.Map} {sl : M.Slot} : (c, .value v) ∈ kids →
      a.cells.lookup p = some (.shell m) → M.getSlotPtr m c = some sl →
      Slots C a p kids (termBytes c) v (.word p sl)
  | suffix {p c q v : ℕ} {kids : Kids} {bs : List ℕ} : (c, .suffix q bs v) ∈ kids →
      Slots C a p kids (beBytes c ++ bs) v (.suffix q)
  | child {p c q v : ℕ} {kids g : Kids} {k : List ℕ} {slot : ValueSlot M} : (c, .child q g) ∈ kids →
      Slots C a q g k v slot → Slots C a p kids (beBytes c ++ k) v slot

theorem Slots.locate {fuel off : ℕ} (h : Slots C a p kids (key.drop off) v slot) (hnode : Node C a p kids)
    (hs : a.Sound) (hn : NulFree key) (hf : Enough key off fuel) :
    ∃ f, locateKey a key fuel p off = .ok f ∧
      ((∃ m q c sl, f = .terminal q c ∧ slot = .word q sl ∧ a.cells.lookup q = some (.shell m) ∧
        M.getSlotPtr m c = some sl ∧ M.readSlot m sl = some v) ∨
      ∃ q bs, f = .suffix q ∧ slot = .suffix q ∧ a.cells.lookup q = some (.suffix bs v)) := by
  induction fuel generalizing p kids off with
  | zero => exact absurd hf (Nat.not_lt_zero _)
  | succ fuel ih =>
    generalize hd : key.drop off = k at h
    cases h with
    | @value _ c _ _ m sl hx hm hsl =>
      obtain ⟨l₁, l₂, rfl, -⟩ := exists_cut_of_mem hnode.wf.sorted hx
      have hw := hnode.item.2.1
      rw [Item.Wf] at hw
      obtain ⟨t, ht, hlt, rfl⟩ := hw
      obtain ⟨m', hm', hok, hent⟩ := hnode.shell
      rw [hm] at hm'
      cases hm'
      rw [termBytes_pack ht hlt] at hd
      subst hd
      refine ⟨_, locateKey_terminal hlt, .inl ⟨m, p, _, sl, rfl, rfl, hm, hsl, ?_⟩⟩
      rw [C.readSlot_eq hok (pack_lt_word ht) hsl, hent, lookup_words hnode.wf.sorted hx]
      rfl
    | @suffix _ c q _ _ bs hx =>
      obtain ⟨l₁, l₂, rfl, -⟩ := exists_cut_of_mem hnode.wf.sorted hx
      obtain ⟨hheld, hw, -⟩ := hnode.item
      rw [Item.Wf] at hw
      rw [Item.Held] at hheld
      have hc : pack CHUNK (key.drop off) = c := by rw [hd, hw.1.pack_append]
      have hle : CHUNK ≤ (key.drop off).length := by simp [hd]
      refine ⟨_, locateKey_suffix hnode hs hn hle (by rw [hc]; exact hx), .inr ⟨q, bs, ?_, rfl, hheld⟩⟩
      rw [if_pos]
      rw [← List.drop_drop, hd, List.drop_left' length_beBytes]
    | @child _ c q _ _ g k' _ hx hrest =>
      obtain ⟨l₁, l₂, rfl, -⟩ := exists_cut_of_mem hnode.wf.sorted hx
      have hw := hnode.item.2.1
      rw [Item.Wf] at hw
      have hc : pack CHUNK (key.drop off) = c := by rw [hd, hw.1.pack_append]
      have hle : CHUNK ≤ (key.drop off).length := by simp [hd]
      rw [locateKey_child hnode hs hn hle (by rw [hc]; exact hx)]
      refine ih ?_ hnode.child (hf.next hle)
      rw [← List.drop_drop, hd, List.drop_left' length_beBytes]
      exact hrest

theorem Slots.getValueSlot (h : Rep C s kids) (hr : s.root = some p) (key : NulFreeStr)
    (hsl : Slots C s.alloc p kids key.bytes v slot) :
    s.getValueSlot key = .ok (some slot) ∧ s.alloc.readSlot slot = some v := by
  obtain ⟨hnode, -⟩ := h.node hr
  rw [← List.drop_zero (l := key.bytes)] at hsl
  obtain ⟨f, hloc, hf⟩ := hsl.locate hnode h.sound key.nulFree (enough_turns key.bytes)
  unfold ExpanseStrMap.getValueSlot
  simp only [hr, hloc, ok_bind]
  rcases hf with ⟨m, q, c, sl, rfl, rfl, hm, hslot, hread⟩ | ⟨q, bs, rfl, rfl, hl⟩
  · simp only [shell_eq hm, ok_bind, hslot, readSlot, hm, hread]
    exact ⟨rfl, trivial⟩
  · simp only [readSlot, hl]
    exact ⟨rfl, trivial⟩

theorem Slots.mem (h : Slots C a p kids k v slot) : (k, v) ∈ entries kids := by
  induction h with
  | value hx => exact entries_eq _ ▸ List.mem_flatMap.mpr ⟨_, hx, by rw [Item.entries]; simp⟩
  | suffix hx => exact entries_eq _ ▸ List.mem_flatMap.mpr ⟨_, hx, by rw [Item.entries]; simp⟩
  | child hx _ ih =>
    refine entries_eq _ ▸ List.mem_flatMap.mpr ⟨_, hx, ?_⟩
    rw [Item.entries]
    exact List.mem_map.mpr ⟨_, ih, rfl⟩

theorem Node.value_slot (h : Node C a p kids) (hx : (c, .value v) ∈ kids) :
    ∃ m sl, a.cells.lookup p = some (.shell m) ∧ M.getSlotPtr m c = some sl := by
  obtain ⟨m, hm, hok, hent⟩ := h.shell
  have hw := (wf_iff.mp h.wf).2 _ hx
  rw [Item.Wf] at hw
  have hsome : (M.getSlotPtr m c).isSome := by
    rw [C.getSlotPtr_isSome hok hw.lt_word, hent, lookup_words h.wf.sorted hx]
    rfl
  obtain ⟨sl, hsl⟩ := Option.isSome_iff_exists.mp hsome
  exact ⟨m, sl, hm, hsl⟩

theorem present_spec (h : Node C a p kids) (hx : (c, .value v) ∈ kids) :
    ∃ sl, present a p c = .ok (.word p sl) ∧ Slots C a p kids (termBytes c) v (.word p sl) := by
  obtain ⟨m, sl, hm, hsl⟩ := h.value_slot hx
  refine ⟨sl, ?_, .value hx hm hsl⟩
  simp only [present, shell_eq hm, ok_bind, hsl]
  rfl

theorem endOf_eq {m : M.Map} (h : C.Ok m) : endOf min m = ends min (C.entries m) := by
  cases min
  · exact C.last_eq h
  · exact C.first_eq h

theorem ends_words (h : ends min l = some (c, x)) : ends min (words l) = some (c, x.word) := by
  rw [words, ends_map, h]
  rfl

theorem Node.visits (h : Node C a p kids) : (addrs kids).length < visits a := by
  have hsub : (p :: addrs kids).Subperm a.cells.keys :=
    h.nodup.subperm fun q hq => AList.mem_keys.mp (h.mem q hq)
  have := hsub.length_le
  rw [List.length_cons] at this
  rw [StrMap.visits]
  omega

theorem length_addrs_child (h : (c, Item.child q g) ∈ kids) : (addrs g).length < (addrs kids).length := by
  obtain ⟨l₁, l₂, rfl⟩ := List.append_of_mem h
  rw [addrs_cut, Item.addrs]
  simp only [List.length_append, List.length_cons]
  omega

/-- The descent to the extreme entry of a level. No level below it is empty, so it never
turns back. -/
theorem extremeDescend_spec {self fuel : ℕ} (min : Bool) (out : List ℕ) (h : Node C a p kids)
    (hs : a.Sound) (hne : kids ≠ [])
    (hf : (addrs kids).length < fuel) :
    ∃ k v slot, extremeDescend a min self fuel p out = .ok (some slot, out ++ k) ∧
      ends min (entries kids) = some (k, v) ∧ Slots C a p kids k v slot := by
  induction fuel generalizing p kids out with
  | zero => exact absurd hf (Nat.not_lt_zero _)
  | succ fuel ih =>
    obtain ⟨m, hm, hok, hent⟩ := h.shell
    obtain ⟨⟨c, x⟩, hcx⟩ : ∃ e, ends min kids = some e := ends_isSome hne
    have hx := ends_mem hcx
    obtain ⟨l₁, l₂, hcut, -⟩ := exists_cut_of_mem h.wf.sorted hx
    have hw := (wf_iff.mp h.wf).2 _ hx
    rw [extremeDescend, shell_eq hm, ok_bind, endOf_eq hok, hent, ends_words hcx]
    simp only
    cases x with
    | value v =>
      rw [Item.Wf] at hw
      obtain ⟨sl, hsl, hslots⟩ := present_spec h hx
      rw [if_pos hw.isTerminal, hsl, ok_bind, pushTerminal_eq _ hw]
      refine ⟨_, v, _, rfl, ends_entries hcx ?_, hslots⟩
      rw [Item.entries, ends_singleton]
    | suffix q bs v =>
      rw [Item.Wf] at hw
      subst hcut
      have hheld := h.item.1
      rw [Item.Held] at hheld
      have hal := h.aligned_suffix hs
      rw [if_neg (by rw [hw.1.not_isTerminal]; simp), Item.word, if_pos (isSuffixPtr_packSuffix hal),
        unpackSuffix_packSuffix hal, suffix_eq hheld, ok_bind]
      refine ⟨beBytes c ++ bs, v, .suffix q, by rw [← List.append_assoc]; rfl, ends_entries hcx ?_,
        .suffix hx⟩
      rw [Item.entries, ends_singleton]
    | child q g =>
      rw [Item.Wf] at hw
      subst hcut
      have hal := h.aligned_child hs
      obtain ⟨k, v, slot, hdesc, hend, hslots⟩ := ih (out ++ beBytes c) h.child hw.2.1
        (by have := length_addrs_child hx; omega)
      rw [if_neg (by rw [hw.1.not_isTerminal]; simp), Item.word,
        if_neg (by rw [isSuffixPtr_packChild hal]; simp)]
      refine ⟨beBytes c ++ k, v, slot, by rw [← List.append_assoc]; exact hdesc, ends_entries hcx ?_,
        .child hx hslots⟩
      rw [Item.entries, ends_map, hend]
      rfl

theorem extremeEntry_spec (min : Bool) (out : List ℕ) (h : Node C a p kids) (hs : a.Sound) (hne : kids ≠ []) :
    ∃ k v slot, extremeEntry a min p out = .ok (some slot, out ++ k) ∧
      ends min (entries kids) = some (k, v) ∧ Slots C a p kids k v slot :=
  extremeDescend_spec min out h hs hne h.visits

/-- What a level gives when it searches the items `l` of its own. -/
theorem takeFrom_spec (min : Bool) (out : List ℕ) (h : Node C a p kids) (hs : a.Sound) (hl : ∀ e ∈ l, e ∈ kids) :
    (∃ k v slot, takeFrom a min p (ends min (words l)) out = .ok (some slot, out ++ k) ∧
      ends min (entries l) = some (k, v) ∧ Slots C a p kids k v slot) ∨
    l = [] ∧ takeFrom a min p (ends min (words l)) out = .ok (none, out) := by
  by_cases hne : l = []
  · subst hne
    refine .inr ⟨rfl, ?_⟩
    rw [words, List.map_nil, ends_nil]
    rfl
  left
  obtain ⟨⟨c, x⟩, hcx⟩ : ∃ e, ends min l = some e := ends_isSome hne
  have hx := hl _ (ends_mem hcx)
  obtain ⟨l₁, l₂, hcut, -⟩ := exists_cut_of_mem h.wf.sorted hx
  have hw := (wf_iff.mp h.wf).2 _ hx
  rw [ends_words hcx, takeFrom]
  cases x with
  | value v =>
    rw [Item.Wf] at hw
    obtain ⟨sl, hsl, hslots⟩ := present_spec h hx
    rw [if_pos hw.isTerminal, hsl, ok_bind, pushTerminal_eq _ hw]
    refine ⟨_, v, _, rfl, ends_entries hcx ?_, hslots⟩
    rw [Item.entries, ends_singleton]
  | suffix q bs v =>
    rw [Item.Wf] at hw
    subst hcut
    have hheld := h.item.1
    rw [Item.Held] at hheld
    have hal := h.aligned_suffix hs
    rw [if_neg (by rw [hw.1.not_isTerminal]; simp), Item.word, if_pos (isSuffixPtr_packSuffix hal),
      unpackSuffix_packSuffix hal, suffix_eq hheld, ok_bind]
    refine ⟨beBytes c ++ bs, v, .suffix q, by rw [← List.append_assoc]; rfl, ends_entries hcx ?_,
      .suffix hx⟩
    rw [Item.entries, ends_singleton]
  | child q g =>
    rw [Item.Wf] at hw
    subst hcut
    have hal := h.aligned_child hs
    obtain ⟨k, v, slot, hdesc, hend, hslots⟩ := extremeEntry_spec min (out ++ beBytes c)
      h.child hs hw.2.1
    rw [if_neg (by rw [hw.1.not_isTerminal]; simp), Item.word,
      if_neg (by rw [isSuffixPtr_packChild hal]; simp)]
    refine ⟨beBytes c ++ k, v, slot, ?_, ends_entries hcx ?_, .child hx hslots⟩
    · show (extremeEntry a min q (out ++ beBytes c) >>= _) = _
      rw [hdesc, ok_bind, ← List.append_assoc]
      rfl
    · rw [Item.entries, ends_map, hend]
      rfl

/-- A search at a level returns the extreme entry of `r`, or there is none and it goes on
with the levels on the stack. -/
def Searches (C : M.Correct) (a : NodeAlloc M) (min : Bool) (p : ℕ) (kids : Kids)
    (stack : List (ℕ × ℕ × ℕ)) (out : List ℕ) (r : List (List ℕ × ℕ)) (res : Except Fault (Hit M)) :
    Prop :=
  (∃ k v slot, res = .ok (some slot, out ++ k) ∧ ends min r = some (k, v) ∧ Slots C a p kids k v slot) ∨
    r = [] ∧ ∃ t, res = unwind a min stack (out ++ t)

theorem level_searches (min : Bool) (stack : List (ℕ × ℕ × ℕ)) (out : List ℕ) (h : Node C a p kids)
    (hs : a.Sound) (hl : ∀ e ∈ l, e ∈ kids) :
    Searches C a min p kids stack out (entries l)
      (takeFrom a min p (ends min (words l)) out >>= orUnwind a min stack) := by
  rcases takeFrom_spec min out h hs hl with
    ⟨k, v, slot, htake, hend, hslots⟩ | ⟨rfl, htake⟩
  · exact .inl ⟨k, v, slot, by rw [htake]; rfl, hend, hslots⟩
  · refine .inr ⟨by rw [entries], [], ?_⟩
    rw [htake, List.append_nil]
    rfl

/-- An item that has nothing hands over to the siblings past it. -/
theorem unwind_searches {stack : List (ℕ × ℕ × ℕ)} {m : M.Map} {t : List ℕ} (h : Node C a p kids)
    (hs : a.Sound) (hm : a.cells.lookup p = some (.shell m)) (hl : ∀ e ∈ l, e ∈ kids)
    (hb : beyond min m c = ends min (words l)) :
    Searches C a min p kids stack out (entries l)
      (unwind a min ((p, c, out.length) :: stack) (out ++ t)) := by
  rw [unwind, shell_eq hm, ok_bind, hb, List.take_left]
  rcases takeFrom_spec min out h hs hl with
    ⟨k, v, slot, htake, hend, hslots⟩ | ⟨rfl, htake⟩
  · exact .inl ⟨k, v, slot, by rw [htake]; rfl, hend, hslots⟩
  · refine .inr ⟨by rw [entries], [], ?_⟩
    rw [htake, List.append_nil]
    rfl

section Cut

variable {rest : List ℕ} {t : ℕ} {X : Kids} {m : M.Map}

theorem lt_of_below (hn : NulFree rest) (hw : ∀ e ∈ l, e.2.Wf e.1) (hb : ∀ e ∈ l, e.1 < pack CHUNK rest) :
    ∀ e ∈ entries l, e.1 < rest := by
  intro e he
  rw [entries_eq] at he
  obtain ⟨⟨c, x⟩, hx, he⟩ := List.mem_flatMap.mp he
  obtain ⟨hnul, hpack⟩ := Item.nulFree_of_mem c x (hw _ hx) he
  exact lt_of_pack_lt hnul hn (by rw [hpack]; exact hb _ hx)

theorem lt_of_above (hn : NulFree rest) (hw : ∀ e ∈ l, e.2.Wf e.1) (hb : ∀ e ∈ l, pack CHUNK rest < e.1) :
    ∀ e ∈ entries l, rest < e.1 := by
  intro e he
  rw [entries_eq] at he
  obtain ⟨⟨c, x⟩, hx, he⟩ := List.mem_flatMap.mp he
  obtain ⟨hnul, hpack⟩ := Item.nulFree_of_mem c x (hw _ hx) he
  exact lt_of_pack_lt hn hnul (by rw [hpack]; exact hb _ hx)

section Filter

variable {α : Type} {P : α → Bool} {r r₁ r₂ : List α}

theorem filter_keep_right (h₁ : ∀ e ∈ r₁, P e = false) (h₂ : ∀ e ∈ r₂, P e = true) :
    (r₁ ++ (r ++ r₂)).filter P = r.filter P ++ r₂ := by
  rw [List.filter_append, List.filter_append, List.filter_eq_self.mpr h₂,
    List.filter_eq_nil_iff.mpr fun e he => by rw [h₁ e he]; simp, List.nil_append]

theorem filter_keep_left (h₁ : ∀ e ∈ r₁, P e = true) (h₂ : ∀ e ∈ r₂, P e = false) :
    (r₁ ++ (r ++ r₂)).filter P = r₁ ++ r.filter P := by
  rw [List.filter_append, List.filter_append, List.filter_eq_self.mpr h₁,
    (List.filter_eq_nil_iff (l := r₂)).mpr fun e he => by rw [h₂ e he]; simp, List.append_nil]

end Filter

theorem entries_cut_lt (hn : NulFree rest) (hw : Wf (l₁ ++ (X ++ l₂)))
    (hcut : CutAt (pack CHUNK rest) l₁ l₂) :
    (∀ e ∈ entries l₁, e.1 < rest) ∧ ∀ e ∈ entries l₂, rest < e.1 := by
  have hwf := (wf_iff.mp hw).2
  exact ⟨lt_of_below hn (fun e he => hwf e (by simp [he])) hcut.below,
    lt_of_above hn (fun e he => hwf e (by simp [he])) hcut.above⟩

theorem filter_ge_cut (hn : NulFree rest) (hw : Wf (l₁ ++ (X ++ l₂))) (hcut : CutAt (pack CHUNK rest) l₁ l₂) :
    ((entries (l₁ ++ (X ++ l₂))).filter fun e => rest ≤ e.1) =
      ((entries X).filter fun e => rest ≤ e.1) ++ entries l₂ := by
  obtain ⟨h₁, h₂⟩ := entries_cut_lt hn hw hcut
  rw [entries_append, entries_append]
  exact filter_keep_right (fun e he => by simpa using h₁ e he) fun e he => by simpa using (h₂ e he).le

theorem before_of_lt {exclusive : Bool} (h : k < rest) : Before exclusive rest k := by
  cases exclusive
  · exact h.le
  · exact h

theorem not_before_of_lt {exclusive : Bool} (h : rest < k) : ¬ Before exclusive rest k := by
  cases exclusive
  · exact not_le_of_gt h
  · exact lt_asymm h

theorem filter_before_cut (exclusive : Bool) (hn : NulFree rest) (hw : Wf (l₁ ++ (X ++ l₂)))
    (hcut : CutAt (pack CHUNK rest) l₁ l₂) :
    ((entries (l₁ ++ (X ++ l₂))).filter fun e => Before exclusive rest e.1) =
      entries l₁ ++ (entries X).filter fun e => Before exclusive rest e.1 := by
  obtain ⟨h₁, h₂⟩ := entries_cut_lt hn hw hcut
  rw [entries_append, entries_append]
  exact filter_keep_left (fun e he => decide_eq_true (before_of_lt (h₁ e he)))
    fun e he => decide_eq_false (not_before_of_lt (h₂ e he))

variable (hok : C.Ok m) (hent : C.entries m = words (l₁ ++ (X ++ l₂))) (hcut : CutAt t l₁ l₂)
  (hX : ∀ e ∈ X, e.1 = t)
include hok hent hcut hX

theorem nextAtOrAfter_cut (ht : t < WORD) : M.nextAtOrAfter m t = ends true (words (X ++ l₂)) := by
  have h₃ : ∀ e ∈ words X, e.1 = t := List.forall_mem_map.mpr fun e he => hX e he
  rw [C.nextAtOrAfter_eq hok ht, hent, words_append, words_append,
    filter_keep_right (fun e he => by simpa using (cutAt_words hcut).below e he)
      (fun e he => by simpa using ((cutAt_words hcut).above e he).le),
    List.filter_eq_self.mpr fun e he => by simpa using (h₃ e he).ge]
  rfl

theorem nextAfter_cut : M.nextAfter m t = ends true (words l₂) := by
  have h₃ : ∀ e ∈ words X, e.1 = t := List.forall_mem_map.mpr fun e he => hX e he
  rw [C.nextAfter_eq hok, hent, words_append, words_append,
    filter_keep_right (fun e he => by simpa using ((cutAt_words hcut).below e he).le)
      (fun e he => by simpa using (cutAt_words hcut).above e he),
    List.filter_eq_nil_iff.mpr fun e he => by simpa using (h₃ e he).le]
  rfl

theorem prevAtOrBefore_cut (ht : t < WORD) : M.prevAtOrBefore m t = ends false (words (l₁ ++ X)) := by
  have h₃ : ∀ e ∈ words X, e.1 = t := List.forall_mem_map.mpr fun e he => hX e he
  rw [C.prevAtOrBefore_eq hok ht, hent, words_append, words_append, words_append,
    filter_keep_left (fun e he => by simpa using ((cutAt_words hcut).below e he).le)
      (fun e he => by simpa using (cutAt_words hcut).above e he),
    List.filter_eq_self.mpr fun e he => by simpa using (h₃ e he).le]
  rfl

theorem prevBefore_cut (ht : t < WORD) : M.prevBefore m t = ends false (words l₁) := by
  have h₃ : ∀ e ∈ words X, e.1 = t := List.forall_mem_map.mpr fun e he => hX e he
  rw [C.prevBefore_eq hok ht, hent, words_append, words_append,
    filter_keep_left (fun e he => by simpa using (cutAt_words hcut).below e he)
      (fun e he => by simpa using ((cutAt_words hcut).above e he).le),
    List.filter_eq_nil_iff.mpr fun e he => by simpa using (h₃ e he).ge, List.append_nil]
  rfl

end Cut

section Probe

variable {fuel off : ℕ} {bs : List ℕ}

theorem remAfter_eq (h : CHUNK ≤ (key.drop off).length) : remAfter key off = key.drop (off + CHUNK) := by
  have : 0 < CHUNK := by decide
  rw [List.length_drop] at h
  rw [remAfter, min_eq_left (by omega), min_eq_left (by omega)]

theorem entries_value (hn : NulFree key) (hlt : key.length < CHUNK) :
    entries [(pack CHUNK key, .value v)] = [(key, v)] := by
  rw [entries, entries, Item.entries, termBytes_pack hn hlt]
  rfl

theorem entries_suffix : entries [(c, .suffix q bs v)] = [(beBytes c ++ bs, v)] := by
  rw [entries, entries, Item.entries]
  rfl

theorem entries_child : entries [(c, .child q g)] = (entries g).map (underChunk c) := by
  rw [entries, entries, Item.entries, List.append_nil]

variable (hn : NulFree key) (hle : CHUNK ≤ (key.drop off).length)
include hn hle

theorem le_under_iff : key.drop off ≤ beBytes (pack CHUNK (key.drop off)) ++ bs ↔
    key.drop (off + CHUNK) ≤ bs := by
  conv_lhs => lhs; rw [split_key hn hle]
  exact append_le_append_iff _

theorem before_under_iff (exclusive : Bool) :
    Before exclusive (key.drop off) (beBytes (pack CHUNK (key.drop off)) ++ bs) ↔
      Before exclusive (key.drop (off + CHUNK)) bs := by
  cases exclusive
  · show _ ++ _ ≤ _ ↔ _
    conv_lhs => rhs; rw [split_key hn hle]
    exact append_le_append_iff _
  · show _ ++ _ < _ ↔ _
    conv_lhs => rhs; rw [split_key hn hle]
    exact append_lt_append_iff _

theorem filter_ge_child :
    ((entries [(pack CHUNK (key.drop off), Item.child q g)]).filter fun e => key.drop off ≤ e.1) =
      ((entries g).filter fun e => key.drop (off + CHUNK) ≤ e.1).map
        (underChunk (pack CHUNK (key.drop off))) := by
  rw [entries_child, List.filter_map]
  congr 1
  apply List.filter_congr
  intro e _
  rw [Function.comp_apply, decide_eq_decide, underChunk]
  exact le_under_iff hn hle

theorem filter_before_child (exclusive : Bool) :
    ((entries [(pack CHUNK (key.drop off), Item.child q g)]).filter fun e =>
      Before exclusive (key.drop off) e.1) =
      ((entries g).filter fun e => Before exclusive (key.drop (off + CHUNK)) e.1).map
        (underChunk (pack CHUNK (key.drop off))) := by
  rw [entries_child, List.filter_map]
  congr 1
  apply List.filter_congr
  intro e _
  rw [Function.comp_apply, decide_eq_decide, underChunk]
  exact before_under_iff hn hle exclusive

end Probe

section Descent

variable {fuel off : ℕ}

theorem nextLoop_spec (stack : List (ℕ × ℕ × ℕ)) (out : List ℕ) (hf : Enough key off fuel)
    (h : Node C a p kids) (hs : a.Sound) (hn : NulFree key) :
    Searches C a true p kids stack out ((entries kids).filter fun e => key.drop off ≤ e.1)
      (nextLoop a key fuel p off stack out) := by
  induction fuel generalizing p kids off stack out with
  | zero => exact absurd hf (Nat.not_lt_zero _)
  | succ fuel ih =>
    obtain ⟨m, hm, hok, hent⟩ := h.shell
    have hnr := hn.drop off
    have ht := pack_lt_word hnr
    have htarget : (chunkAt key off).1 = pack CHUNK (key.drop off) := rfl
    rw [nextLoop, shell_eq hm, ok_bind]
    simp only [htarget]
    rcases h.wf.cases (pack CHUNK (key.drop off)) with ⟨x, l₁, l₂, rfl, hcut⟩ | ⟨l₁, l₂, rfl, hcut, -⟩
    · -- the level has an item at the chunk of the probe
      have hX : ∀ e ∈ [(pack CHUNK (key.drop off), x)], e.1 = pack CHUNK (key.drop off) := by simp
      have hsplit := filter_ge_cut (X := [(pack CHUNK (key.drop off), x)]) hnr h.wf hcut
      rw [List.singleton_append] at hsplit
      have hcur : M.nextAtOrAfter m (pack CHUNK (key.drop off)) =
          some (pack CHUNK (key.drop off), x.word) := nextAtOrAfter_cut hok hent hcut hX ht
      have hmem : ∀ e ∈ l₂, e ∈ l₁ ++ (pack CHUNK (key.drop off), x) :: l₂ := by
        intro e he
        simp [he]
      have hx : (pack CHUNK (key.drop off), x) ∈ l₁ ++ (pack CHUNK (key.drop off), x) :: l₂ := by simp
      rw [hsplit]
      simp only [hcur, true_and]
      by_cases hlt : (key.drop off).length < CHUNK
      · have hlast := lastChunk_of_lt hnr hlt
        obtain ⟨v, rfl⟩ := Item.value_of_last h.item.2.1 hlast
        rw [if_neg (by rw [hlast.isTerminal]; simp), List.filter_eq_self.mpr, ← entries_append]
        · exact level_searches true stack out h hs fun e he => List.mem_append_right _ he
        · rw [entries_value hnr hlt]
          simp
      · have hle : CHUNK ≤ (key.drop off).length := Nat.le_of_not_lt hlt
        have hfull := fullChunk_of_le hnr hle
        rw [if_pos hfull.not_isTerminal]
        cases x with
        | value v => exact absurd rfl (Item.not_value_of_full h.item.2.1 hfull v)
        | suffix q bs v =>
          have hheld := h.item.1
          rw [Item.Held] at hheld
          have hal := h.aligned_suffix hs
          rw [Item.word, if_pos (isSuffixPtr_packSuffix hal), unpackSuffix_packSuffix hal,
            suffix_eq hheld, ok_bind, entries_suffix]
          simp only [remAfter_eq hle]
          by_cases hcmp : key.drop (off + CHUNK) ≤ bs
          · rw [if_pos hcmp, List.filter_cons_of_pos (by simpa using (le_under_iff hn hle).mpr hcmp)]
            exact .inl ⟨_, v, .suffix q, by rw [List.append_assoc]; rfl, rfl, .suffix hx⟩
          · rw [if_neg hcmp,
              List.filter_cons_of_neg (by rw [decide_eq_true_iff, le_under_iff hn hle]; exact hcmp),
              nextAfter_cut hok hent hcut hX]
            exact level_searches true stack out h hs hmem
        | child q g =>
          have hal := h.aligned_child hs
          rw [Item.word, if_neg (by rw [isSuffixPtr_packChild hal]; simp), filter_ge_child hn hle]
          rcases ih ((p, pack CHUNK (key.drop off), out.length) :: stack)
            (out ++ beBytes (pack CHUNK (key.drop off))) (hf.next hle) h.child with
            ⟨k, v, slot, hres, hend, hslots⟩ | ⟨hnil, t, hres⟩
          · refine .inl ⟨_, v, slot, by rw [← List.append_assoc]; exact hres, ends_append_left ?_,
              .child hx hslots⟩
            rw [ends_map, hend]
            rfl
          · rw [hnil, List.map_nil, List.nil_append]
            show Searches C a true p _ stack out (entries l₂) (nextLoop a key fuel q _ _ _)
            rw [hres, List.append_assoc]
            exact unwind_searches h hs hm hmem (nextAfter_cut hok hent hcut hX)
    · -- no item at the chunk: the answer is the first entry above it
      have hX : ∀ e ∈ ([] : Kids), e.1 = pack CHUNK (key.drop off) := by simp
      have hcur : M.nextAtOrAfter m (pack CHUNK (key.drop off)) = ends true (words l₂) :=
        nextAtOrAfter_cut hok hent hcut hX ht
      have hsplit := filter_ge_cut (X := []) hnr h.wf hcut
      rw [List.nil_append, entries] at hsplit
      rw [hsplit, hcur]
      have hlev := level_searches true stack out h hs fun e he => List.mem_append_right l₁ he
      cases hw : ends true (words l₂) with
      | none =>
        rw [hw] at hlev
        exact hlev
      | some e =>
        rw [hw] at hlev
        have habove := (cutAt_words hcut).above e (ends_mem hw)
        simp only
        rw [if_neg (by rintro ⟨hc, -⟩; omega)]
        exact hlev

theorem prevLoop_spec (exclusive : Bool) (stack : List (ℕ × ℕ × ℕ)) (out : List ℕ)
    (hf : Enough key off fuel) (h : Node C a p kids) (hs : a.Sound) (hn : NulFree key) :
    Searches C a false p kids stack out ((entries kids).filter fun e => Before exclusive (key.drop off) e.1)
      (prevLoop a key exclusive fuel p off stack out) := by
  induction fuel generalizing p kids off stack out with
  | zero => exact absurd hf (Nat.not_lt_zero _)
  | succ fuel ih =>
    obtain ⟨m, hm, hok, hent⟩ := h.shell
    have hnr := hn.drop off
    have ht := pack_lt_word hnr
    rw [prevLoop, shell_eq hm, ok_bind]
    by_cases hlt : (key.drop off).length < CHUNK
    · -- the probe ends in this chunk, whose item is a value
      have hlast := lastChunk_of_lt hnr hlt
      simp only [chunkAt_of_lt hlt, if_true, true_and]
      rcases h.wf.cases (pack CHUNK (key.drop off)) with ⟨x, l₁, l₂, rfl, hcut⟩ | ⟨l₁, l₂, rfl, hcut, -⟩
      · have hX : ∀ e ∈ [(pack CHUNK (key.drop off), x)], e.1 = pack CHUNK (key.drop off) := by simp
        have hsplit := filter_before_cut (X := [(pack CHUNK (key.drop off), x)]) exclusive hnr h.wf hcut
        rw [List.singleton_append] at hsplit
        rw [hsplit]
        obtain ⟨v, rfl⟩ := Item.value_of_last h.item.2.1 hlast
        rw [entries_value hnr hlt]
        cases exclusive with
        | false =>
          rw [if_pos rfl, prevAtOrBefore_cut hok hent hcut hX ht, List.filter_cons_of_pos (by simp [Before]),
            List.filter_nil, ← entries_value hnr hlt, ← entries_append]
          refine level_searches false stack out h hs fun e he => ?_
          simp only [List.mem_append, List.mem_cons, List.not_mem_nil, or_false] at he ⊢
          tauto
        | true =>
          rw [if_neg (by simp), prevBefore_cut hok hent hcut hX ht, List.filter_cons_of_neg (by simp [Before]),
            List.filter_nil, List.append_nil]
          exact level_searches false stack out h hs fun e he => List.mem_append_left _ he
      · have hX : ∀ e ∈ ([] : Kids), e.1 = pack CHUNK (key.drop off) := by simp
        have hsplit := filter_before_cut (X := []) exclusive hnr h.wf hcut
        rw [List.nil_append, entries, List.filter_nil, List.append_nil] at hsplit
        have hcur : (if exclusive = false then M.prevAtOrBefore m (pack CHUNK (key.drop off))
            else M.prevBefore m (pack CHUNK (key.drop off))) = ends false (words l₁) := by
          split_ifs
          · rw [prevAtOrBefore_cut hok hent hcut hX ht, List.append_nil]
          · exact prevBefore_cut hok hent hcut hX ht
        rw [hsplit, hcur]
        exact level_searches false stack out h hs fun e he => List.mem_append_left _ he
    · have hle : CHUNK ≤ (key.drop off).length := Nat.le_of_not_lt hlt
      have hfull := fullChunk_of_le hnr hle
      simp only [chunkAt_of_le hle, Bool.false_eq_true, if_false, false_and]
      rcases h.wf.cases (pack CHUNK (key.drop off)) with ⟨x, l₁, l₂, rfl, hcut⟩ | ⟨l₁, l₂, rfl, hcut, hno⟩
      · have hX : ∀ e ∈ [(pack CHUNK (key.drop off), x)], e.1 = pack CHUNK (key.drop off) := by simp
        have hsplit := filter_before_cut (X := [(pack CHUNK (key.drop off), x)]) exclusive hnr h.wf hcut
        rw [List.singleton_append] at hsplit
        have hx : (pack CHUNK (key.drop off), x) ∈ l₁ ++ (pack CHUNK (key.drop off), x) :: l₂ := by simp
        have hmem : ∀ e ∈ l₁, e ∈ l₁ ++ (pack CHUNK (key.drop off), x) :: l₂ :=
          fun e he => List.mem_append_left _ he
        have hget : M.get m (pack CHUNK (key.drop off)) = some x.word := by
          rw [C.get_eq hok ht, hent, lookup_words h.wf.sorted hx]
        rw [hsplit, hget]
        simp only
        cases x with
        | value v => exact absurd rfl (Item.not_value_of_full h.item.2.1 hfull v)
        | suffix q bs v =>
          have hheld := h.item.1
          rw [Item.Held] at hheld
          have hal := h.aligned_suffix hs
          rw [Item.word, if_pos (isSuffixPtr_packSuffix hal), unpackSuffix_packSuffix hal,
            suffix_eq hheld, ok_bind, entries_suffix]
          simp only [remAfter_eq hle]
          by_cases hcmp : Before exclusive (key.drop (off + CHUNK)) bs
          · rw [if_pos hcmp,
              List.filter_cons_of_pos
                (by rw [decide_eq_true_iff]; exact (before_under_iff hn hle exclusive).mpr hcmp)]
            exact .inl ⟨_, v, .suffix q, by rw [List.append_assoc]; rfl, ends_append_right rfl, .suffix hx⟩
          · rw [if_neg hcmp, List.filter_cons_of_neg
              (by rw [decide_eq_true_iff, before_under_iff hn hle]; exact hcmp),
              prevBefore_cut hok hent hcut hX ht, List.filter_nil, List.append_nil]
            exact level_searches false stack out h hs hmem
        | child q g =>
          have hal := h.aligned_child hs
          rw [Item.word, if_neg (by rw [isSuffixPtr_packChild hal]; simp), filter_before_child hn hle]
          rcases ih ((p, pack CHUNK (key.drop off), out.length) :: stack)
            (out ++ beBytes (pack CHUNK (key.drop off))) (hf.next hle) h.child with
            ⟨k, v, slot, hres, hend, hslots⟩ | ⟨hnil, t, hres⟩
          · refine .inl ⟨_, v, slot, by rw [← List.append_assoc]; exact hres, ends_append_right ?_,
              .child hx hslots⟩
            rw [ends_map, hend]
            rfl
          · rw [hnil, List.map_nil, List.append_nil]
            show Searches C a false p _ stack out (entries l₁) (prevLoop a key exclusive fuel q _ _ _)
            rw [hres, List.append_assoc]
            exact unwind_searches h hs hm hmem (prevBefore_cut hok hent hcut hX ht)
      · have hX : ∀ e ∈ ([] : Kids), e.1 = pack CHUNK (key.drop off) := by simp
        have hsplit := filter_before_cut (X := []) exclusive hnr h.wf hcut
        rw [List.nil_append, entries, List.filter_nil, List.append_nil] at hsplit
        have hget : M.get m (pack CHUNK (key.drop off)) = none := by
          rw [C.get_eq hok ht, hent, lookup_words_none h.wf.sorted hno]
        rw [hsplit, hget]
        simp only
        rw [prevBefore_cut hok hent hcut hX ht]
        exact level_searches false stack out h hs fun e he => List.mem_append_left _ he

end Descent

/-- A search answers with the entry `e`: its key, and the slot that a lookup of the key
finds, which holds its value. -/
def Answers (s : ExpanseStrMap M) (e : Option (List ℕ × ℕ))
    (r : Except Fault (Option (List ℕ × ValueSlot M))) : Prop :=
  match e with
  | none => r = .ok none
  | some (k, v) => ∃ slot, r = .ok (some (k, slot)) ∧ s.alloc.readSlot slot = some v ∧
      ∀ key : NulFreeStr, key.bytes = k → s.getValueSlot key = .ok (some slot)

theorem fromRoot_answers (min : Bool) {search : ℕ → Except Fault (Hit M)} {r : List (List ℕ × ℕ)}
    (h : Rep C s kids) (hr : ∀ p, s.root = some p → Node C s.alloc p kids →
      Searches C s.alloc min p kids [] [] r (search p))
    (hnil : kids = [] → r = []) : Answers s (ends min r) (s.fromRoot search) := by
  unfold ExpanseStrMap.fromRoot
  cases hroot : s.root with
  | none =>
    rw [hnil (h.nil hroot), ends_nil]
    rfl
  | some p =>
    simp only
    rcases hr p hroot (h.node hroot).1 with ⟨k, v, slot, hres, hend, hslots⟩ | ⟨hempty, t, hres⟩
    · rw [hend, hres, ok_bind, List.nil_append]
      have hnul := nulFree_of_mem kids h.wf hslots.mem
      have hget := Slots.getValueSlot h hroot ⟨k, hnul⟩ hslots
      refine ⟨slot, rfl, hget.2, ?_⟩
      rintro ⟨k', hk'⟩ rfl
      exact hget.1
    · rw [hempty, ends_nil, hres, unwind, ok_bind]
      rfl

/-- A key and one more byte `1` is the least NUL-free string above the key. -/
theorem append_one_le_iff {k' : List ℕ} (hk : NulFree k') : k ++ [1] ≤ k' ↔ k < k' := by
  induction k generalizing k' with
  | nil =>
    cases k' with
    | nil => decide
    | cons b t =>
      have hb := hk.head.1
      rw [List.nil_append, ← not_lt]
      simp only [List.cons_lt_cons_iff, List.not_lt_nil, and_false, or_false, List.nil_lt_cons, iff_true]
      omega
  | cons d k ih =>
    cases k' with
    | nil => simp [← not_lt]
    | cons b t =>
      have := ih hk.tail
      rw [← not_lt] at this ⊢
      rw [List.cons_append, List.cons_lt_cons_iff, List.cons_lt_cons_iff, not_or, not_and]
      constructor
      · rintro ⟨h₁, h₂⟩
        by_cases hd : d = b
        · exact .inr ⟨hd, this.mp (h₂ hd.symm)⟩
        · exact .inl (by omega)
      · rintro (hlt | ⟨rfl, hlt⟩)
        · exact ⟨by omega, fun hb => by omega⟩
        · exact ⟨by omega, fun _ => this.mpr hlt⟩

variable (key : NulFreeStr)

theorem nextAtOrAfter_answers (h : Rep C s kids) :
    Answers s ((entries kids).filter fun e => key.bytes ≤ e.1).head? (s.nextAtOrAfter key) := by
  refine fromRoot_answers true h (fun p _ hnode => ?_) fun hk => by rw [hk, entries]; rfl
  have := nextLoop_spec [] [] (enough_turns key.bytes) hnode h.sound key.nulFree
  rwa [List.drop_zero] at this

theorem nextAfter_answers (h : Rep C s kids) :
    Answers s ((entries kids).filter fun e => key.bytes < e.1).head? (s.nextAfter key) := by
  have := nextAtOrAfter_answers ⟨key.bytes ++ [1], key.nulFree.append (by decide)⟩ h
  rw [List.filter_congr fun e he => decide_eq_decide.mpr
    (append_one_le_iff (nulFree_of_mem kids h.wf he))] at this
  exact this

theorem prevLoop_answers (exclusive : Bool) (h : Rep C s kids) :
    Answers s ((entries kids).filter fun e => Before exclusive key.bytes e.1).getLast?
      (s.fromRoot fun root => prevLoop s.alloc key.bytes exclusive (turns key.bytes) root 0 [] []) := by
  refine fromRoot_answers false h (fun p _ hnode => ?_) fun hk => by rw [hk, entries]; rfl
  have := prevLoop_spec exclusive [] [] (enough_turns key.bytes) hnode h.sound key.nulFree
  rwa [List.drop_zero] at this

theorem first_answers (h : Rep C s kids) : Answers s (entries kids).head? s.first := by
  have := nextAtOrAfter_answers ⟨[], nulFree_nil⟩ h
  rwa [List.filter_eq_self.mpr fun e _ => decide_eq_true (not_lt.mp (List.not_lt_nil e.1))] at this

theorem last_answers (h : Rep C s kids) : Answers s (entries kids).getLast? s.last := by
  refine fromRoot_answers false h (fun p hr hnode => ?_) fun hk => by rw [hk, entries]
  have hne : kids ≠ [] := by
    have ht := h.tree
    rw [RootHolds, hr] at ht
    exact ht.1
  exact .inl (extremeEntry_spec false [] hnode h.sound hne)

/-- The searches of `s` answer with the neighbours of the probe in `l`. -/
structure FindsNeighbours (s : ExpanseStrMap M) (l : List (List ℕ × ℕ)) : Prop where
  nextAtOrAfter : ∀ key : NulFreeStr,
    Answers s (l.filter fun e => key.bytes ≤ e.1).head? (s.nextAtOrAfter key)
  nextAfter : ∀ key : NulFreeStr, Answers s (l.filter fun e => key.bytes < e.1).head? (s.nextAfter key)
  prevAtOrBefore : ∀ key : NulFreeStr,
    Answers s (l.filter fun e => e.1 ≤ key.bytes).getLast? (s.prevAtOrBefore key)
  prevBefore : ∀ key : NulFreeStr,
    Answers s (l.filter fun e => e.1 < key.bytes).getLast? (s.prevBefore key)
  first : Answers s l.head? s.first
  last : Answers s l.getLast? s.last

/-- `l` is the ascending list of the entries that `get` finds. -/
structure Lists (s : ExpanseStrMap M) (l : List (List ℕ × ℕ)) : Prop where
  ordered : Ordered l
  nulFree : ∀ e ∈ l, NulFree e.1
  get_iff : ∀ (key : NulFreeStr) v, s.get key = .ok (some v) ↔ (key.bytes, v) ∈ l

theorem Rep.lists (h : Rep C s kids) : Lists s (entries kids) where
  ordered := h.ordered
  nulFree _ he := nulFree_of_mem kids h.wf he
  get_iff key v := by
    rw [h.get_eq key h.graph, Except.ok.injEq]
    exact h.graph key.bytes v

/-- Over a correct word map, in every reachable string map the searches return the
neighbours of the probe in the ascending list of the stored entries. -/
theorem searches_find_neighbours (C : M.Correct) {P : Placement} (h : s.Reachable P) :
    ∃ l, Lists s l ∧ FindsNeighbours s l := by
  obtain ⟨kids, hrep⟩ := h.rep (C := C)
  exact ⟨entries kids, hrep.lists,
    fun key => nextAtOrAfter_answers key hrep, fun key => nextAfter_answers key hrep,
    fun key => prevLoop_answers key false hrep, fun key => prevLoop_answers key true hrep,
    first_answers hrep, last_answers hrep⟩

/-- A map with a split suffix leaf and a terminal entry. -/
theorem searches_find_neighbours_split :
    ∃ (s : ExpanseStrMap WordMap.sortedList) (l : List (List ℕ × ℕ)),
      run (ExpanseStrMap.step Placement.above) ExpanseStrMap.new
        [.insert ⟨[1, 2, 3, 4, 5, 6, 7, 8, 9, 10], by decide⟩ 5,
          .insert ⟨[1, 2, 3, 4, 5, 6, 7, 8, 9], by decide⟩ 6] = .ok ([.value none, .value none], s) ∧
      Lists s l ∧ FindsNeighbours s l := by
  obtain ⟨s₁, h₁⟩ : ∃ s₁, ExpanseStrMap.step (M := WordMap.sortedList) Placement.above
      ExpanseStrMap.new (.insert ⟨[1, 2, 3, 4, 5, 6, 7, 8, 9, 10], by decide⟩ 5) =
        .ok (.value none, s₁) := ⟨_, rfl⟩
  obtain ⟨s₂, h₂⟩ : ∃ s₂, ExpanseStrMap.step Placement.above s₁
      (.insert ⟨[1, 2, 3, 4, 5, 6, 7, 8, 9], by decide⟩ 6) = .ok (.value none, s₂) := by
    cases h₁
    exact ⟨_, rfl⟩
  obtain ⟨l, hl, hn⟩ := searches_find_neighbours WordMap.sortedListCorrect
    (ExpanseStrMap.Reachable.step (.step .new h₁) h₂)
  exact ⟨s₂, l, by simp only [run, h₁, h₂], hl, hn⟩

end Expanse.StrMap
