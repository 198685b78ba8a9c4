import Expanse.StrMap.InsertSpec

/-!
# Removal and the unwind of emptied levels

The descent takes one binding out and leaves a path of levels, of which only the lowest
can be empty. Its contract is about the unwind that follows: whatever the unwind of the
outer path guarantees for a level without that binding, the unwind of the whole path
guarantees too.
-/

namespace Expanse.StrMap

open SortedAssoc BigEndian NodeAlloc

variable {M : WordMap} {C : M.Correct} {a a' a₂ : NodeAlloc M} {kids kids' l₁ l₂ g g' : Kids}
  {c p q off : ℕ} {key : List ℕ} {v w : ℕ} {path : List (ℕ × ℕ)}

/-- The binding of `key` to `v` has left the level of `p`, which may now be empty. -/
structure Took (C : M.Correct) (a : NodeAlloc M) (p : ℕ) (kids : Kids) (key : List ℕ) (v : ℕ)
    (a' : NodeAlloc M) (kids' : Kids) : Prop where
  node : Node C a' p kids'
  sound : a'.Sound
  edits : Edits a a' (p :: addrs kids) (p :: addrs kids')
  without : Inserted key v (entries kids') (entries kids)

/-- The nearest level on the path leads to `p`, and is none of its blocks. -/
def Linked (C : M.Correct) (a : NodeAlloc M) (path : List (ℕ × ℕ)) (p : ℕ) (kids : Kids) : Prop :=
  ∀ e ∈ path.head?, e.1 ∉ p :: addrs kids ∧ ∃ m, a.cells.lookup e.1 = some (.shell m) ∧ C.Ok m ∧
    e.2 < WORD ∧ (C.entries m).lookup e.2 = some (packChild p)

/-- The result of the descent, before the unwind. -/
def Detaches (C : M.Correct) (a : NodeAlloc M) (p : ℕ) (kids : Kids) (key : List ℕ)
    (path : List (ℕ × ℕ)) : Option (ℕ × NodeAlloc M × List (ℕ × ℕ)) → Prop
  | none => ∀ v, (key, v) ∉ entries kids
  | some (v, a₁, path₁) => ∀ Q : NodeAlloc M → Prop,
      (∀ a₂ kids', Took C a p kids key v a₂ kids' → Ensures True (prune path a₂) Q) →
        Ensures True (prune path₁ a₁) Q

theorem Linked.edits (h : Linked C a path p kids)
    (hE : Edits a a' (p :: addrs kids) (p :: addrs kids')) : Linked C a' path p kids' := by
  intro e he
  obtain ⟨hout, m, hm, hok, hlt, hl⟩ := h e he
  refine ⟨fun hin => ?_, m, hE.lookup hout hm, hok, hlt, hl⟩
  rcases hE.fresh _ hin with h' | h'
  · exact hout h'
  · exact h' (mem_of_lookup hm)

theorem prune_stop (hn : Node C a p kids) (hs : a.Sound) (hne : kids ≠ []) (h : Linked C a path p kids) :
    prune path a = .ok a := by
  cases path with
  | nil => rfl
  | cons e path =>
    obtain ⟨-, m, hm, hok, hlt, hl⟩ := h e rfl
    obtain ⟨mp, hmp, hokp, hent⟩ := hn.shell
    have hp : RAW_ALIGN ∣ p := hs.aligned p (mem_of_lookup hmp)
    have hempty : M.isEmpty mp = false := by
      rw [← Bool.not_eq_true, C.isEmpty_iff hokp, hent, words_eq_nil]
      exact hne
    rw [prune, shell_eq hm, ok_bind, C.get_eq hok hlt, hl]
    simp only [isSuffixPtr_packChild hp, Bool.false_eq_true, if_false]
    rw [show unpackChild (packChild p) = p from rfl, shell_eq hmp, ok_bind, hempty]
    rfl

/-- A level gives up the item at a chunk whose blocks, if it had any, are gone. -/
theorem took_item {x : Item} {m m' : M.Map} (h : Node C a p (l₁ ++ (c, x) :: l₂))
    (hent : C.entries m = words (l₁ ++ (c, x) :: l₂))
    (hE : Edits a a' (p :: x.addrs) [p]) (hs : a'.Sound) (hm' : a'.cells.lookup p = some (.shell m'))
    (hok' : C.Ok m') (hent' : C.entries m' = del c (C.entries m)) (hx : x.entries c = [(key, v)]) :
    Took C a p (l₁ ++ (c, x) :: l₂) key v a' (l₁ ++ l₂) := by
  have hcut := h.wf.sorted.of_cut.2.2
  have hX : addrs [(c, x)] = x.addrs := by rw [addrs, addrs, List.append_nil]
  have hnil : addrs [] = [] := by rw [addrs]
  have hsh : Shell C a' p (l₁ ++ l₂) := by
    refine ⟨m', hm', hok', ?_⟩
    rw [hent', hent, words_cut, del_cut_mem (cutAt_words hcut), words_append]
  obtain ⟨h1, h2⟩ := Node.splice (X := [(c, x)]) (Y := []) h (by rw [hX, hnil]; exact hE) hsh
    trivial (by simp [hnil]) (by simp [hnil]) (wf_cut_del h.wf)
  refine ⟨h1, hs, h2, ?_⟩
  rw [entries_cut, entries_append, hx]
  exact ⟨entries l₁, entries l₂, rfl, rfl⟩

/-- One level of the unwind, after its child lost a binding. -/
theorem prune_child {Q : NodeAlloc M → Prop} (h : Node C a p (l₁ ++ (c, .child q g) :: l₂))
    (hs : a.Sound) (hl : Linked C a path p (l₁ ++ (c, .child q g) :: l₂))
    (ht : Took C a q g key v a₂ g')
    (hQ : ∀ a₃ kids', Took C a p (l₁ ++ (c, .child q g) :: l₂) (beBytes c ++ key) v a₃ kids' →
      Ensures True (prune path a₃) Q) :
    Ensures True (prune ((p, c) :: path) a₂) Q := by
  obtain ⟨-, hwf, -⟩ := h.item
  rw [Item.Wf] at hwf
  obtain ⟨m, hm, hok, hent⟩ := h.shell
  have hp := h.not_mem_item
  rw [Item.addrs] at hp
  have hm₂ : a₂.cells.lookup p = some (.shell m) := ht.edits.lookup hp hm
  by_cases hne : g' = []
  · subst hne
    obtain ⟨mq, hmq, hokq, hentq⟩ := ht.node.shell
    have hq : RAW_ALIGN ∣ q := h.aligned_child hs
    have hpq : p ≠ q := fun he => hp (he ▸ List.mem_cons_self)
    have hget : M.get m c = some (packChild q) := by
      rw [C.get_eq hok hwf.1.1, hent, lookup_words h.wf.sorted List.mem_append_cons_self]
      rfl
    have hempty : M.isEmpty mq = true := by
      rw [C.isEmpty_iff hokq, hentq]
      rfl
    rw [prune, shell_eq hm₂, ok_bind, hget]
    simp only [isSuffixPtr_packChild hq, Bool.false_eq_true, if_false]
    rw [show unpackChild (packChild q) = q from rfl, shell_eq hmq, ok_bind, if_pos hempty]
    obtain ⟨m', hrem, hok', hent'⟩ := C.remove_ok hok hwf.1.1
    obtain ⟨a₃, hst, hp₃, hE₃, hs₃⟩ := store_spec hm₂ (.shell m')
    have hq₃ : a₃.cells.lookup q = some (.shell mq) := hE₃.lookup (by simpa using Ne.symm hpq) hmq
    obtain ⟨a₄, hfr, hE₄, hs₄⟩ := free_spec hq₃
    simp only [hrem, hst, hfr, ok_bind]
    have hnil : addrs [] = [] := by rw [addrs]
    have hE : Edits a a₄ (p :: q :: addrs g) [p] := by
      have h1 : Edits a a₂ ([p] ++ (q :: addrs g)) ([p] ++ (q :: addrs [])) :=
        ht.edits.frame (by simpa using mem_of_lookup hm) (by simpa using hp)
      have h2 : Edits a₂ a₃ ([q] ++ [p]) ([q] ++ [p]) :=
        hE₃.frame (by simpa using mem_of_lookup hmq) (by simpa using hpq)
      have h3 : Edits a₃ a₄ ([p] ++ [q]) ([p] ++ []) :=
        hE₄.frame (by simpa using mem_of_lookup hp₃) (by simpa using Ne.symm hpq)
      refine ((h1.trans_of h2 ?_).trans_of h3 ?_).congr ?_ ?_
      all_goals
        intro x
        simp [hnil, or_comm]
    have hone : entries g = [(key, v)] := by
      obtain ⟨r₁, r₂, hnil', heq⟩ := ht.without
      rw [entries, eq_comm, List.append_eq_nil_iff] at hnil'
      rw [heq, hnil'.1, hnil'.2]
      rfl
    refine hQ a₄ _ (took_item h hent (by rw [Item.addrs]; exact hE) (hs₄ (hs₃ ht.sound))
      (hE₄.lookup (by simpa using hpq) hp₃) hok' hent' ?_)
    rw [Item.entries, hone]
    rfl
  · obtain ⟨h1, h2⟩ := h.replace (y := .child q g')
      (by rw [Item.addrs, Item.addrs]; exact ht.edits)
      (by rw [Item.Held]; exact ⟨ht.node.shell, ht.node.held⟩) (by rw [Item.addrs]; exact ht.node.nodup)
      (by rw [Item.Wf]; exact ⟨hwf.1, hne, ht.node.wf⟩) rfl
    have hlink : Linked C a₂ ((p, c) :: path) q g' := by
      rintro _ ⟨⟩
      refine ⟨?_, m, hm₂, hok, hwf.1.1, ?_⟩
      · have := h1.not_mem_item
        rwa [Item.addrs] at this
      · rw [hent, lookup_words h.wf.sorted List.mem_append_cons_self]
        rfl
    have htook : Took C a p (l₁ ++ (c, .child q g) :: l₂) (beBytes c ++ key) v a₂
        (l₁ ++ (c, .child q g') :: l₂) := by
      refine ⟨h1, ht.sound, h2, ?_⟩
      rw [entries_cut, entries_cut, Item.entries, Item.entries]
      exact (ht.without.map (beBytes c ++ ·)).append
    have hrest := hQ a₂ _ htook
    rw [prune_stop h1 ht.sound (by simp) (hl.edits h2)] at hrest
    rwa [prune_stop ht.node ht.sound hne hlink]

theorem removeKey_spec {fuel : ℕ} (hf : Enough key off fuel) (h : Node C a p kids) (hs : a.Sound)
    (hn : NulFree key) (hl : Linked C a path p kids) :
    Ensures True (removeKey key fuel a p off path) (Detaches C a p kids (key.drop off) path) := by
  induction fuel generalizing p kids off path with
  | zero => exact absurd hf (Nat.not_lt_zero _)
  | succ fuel ih =>
    obtain ⟨m, hm, hok, hent⟩ := h.shell
    have hlt' := pack_lt_word (hn.drop off)
    rw [removeKey]
    by_cases hlt : (key.drop off).length < CHUNK
    · rw [chunkAt_of_lt hlt]
      have hlast := lastChunk_of_lt (hn.drop off) hlt
      simp only [shell_eq hm, ok_bind, if_true]
      obtain ⟨m', hrem, hok', hent'⟩ := C.remove_ok hok hlt'
      simp only [hrem, ok_bind]
      rcases h.wf.cases (pack CHUNK (key.drop off)) with ⟨x, l₁, l₂, rfl, hcut⟩ | ⟨l₁, l₂, rfl, hcut, hno⟩
      · obtain ⟨w, rfl⟩ := Item.value_of_last h.item.2.1 hlast
        have hw : (C.entries m).lookup (pack CHUNK (key.drop off)) = some w := by
          rw [hent, lookup_words h.wf.sorted List.mem_append_cons_self]
          rfl
        obtain ⟨a₂, hst, hp₂, hE₂, hs₂⟩ := store_spec hm (.shell m')
        simp only [hw, hst, ok_bind, pure_eq_ok, ensures_ok]
        intro Q hQ
        refine hQ a₂ _ (took_item h hent (by rw [Item.addrs]; exact hE₂) (hs₂ hs) hp₂ hok' hent' ?_)
        rw [Item.entries, termBytes_pack (hn.drop off) hlt]
      · have hw : (C.entries m).lookup (pack CHUNK (key.drop off)) = none := by
          rw [hent, lookup_words_none h.wf.sorted hno]
        simp only [hw, pure_eq_ok, ensures_ok]
        intro v hv
        obtain ⟨x, hx, -⟩ := (mem_entries_iff h.wf).mp hv
        exact hno x hx
    · have hle : CHUNK ≤ (key.drop off).length := Nat.not_lt.mp hlt
      have hsplit := split_key hn hle
      have hfull := fullChunk_of_le (hn.drop off) hle
      rw [chunkAt_of_le hle]
      simp only [shell_eq hm, ok_bind, Bool.false_eq_true, if_false]
      rcases h.wf.cases (pack CHUNK (key.drop off)) with ⟨x, l₁, l₂, rfl, hcut⟩ | ⟨l₁, l₂, rfl, hcut, hno⟩
      · have hget : M.get m (pack CHUNK (key.drop off)) = some x.word := by
          rw [C.get_eq hok hlt', hent, lookup_words h.wf.sorted List.mem_append_cons_self]
        simp only [hget]
        cases x with
        | value w => exact absurd rfl (Item.not_value_of_full h.item.2.1 hfull w)
        | suffix q bs w =>
          have hq := h.aligned_suffix hs
          have hheld := h.item.1
          rw [Item.Held] at hheld
          have hpq : p ≠ q := by simpa [Item.addrs] using h.not_mem_item
          simp only [Item.word, isSuffixPtr_packSuffix hq, unpackSuffix_packSuffix hq, if_true,
            suffix_eq hheld, ok_bind]
          by_cases hb : key.drop (off + CHUNK) = bs
          · rw [if_pos hb]
            obtain ⟨m', hrem, hok', hent'⟩ := C.remove_ok hok hlt'
            obtain ⟨a₂, hst, hp₂, hE₂, hs₂⟩ := store_spec hm (.shell m')
            have hq₂ : a₂.cells.lookup q = some (.suffix bs w) :=
              hE₂.lookup (by simpa using Ne.symm hpq) hheld
            obtain ⟨a₃, hfr, hE₃, hs₃⟩ := free_spec hq₂
            simp only [hrem, hst, hfr, ok_bind, pure_eq_ok, ensures_ok]
            have hE : Edits a a₃ (p :: [q]) [p] := by
              have h1 : Edits a a₂ ([q] ++ [p]) ([q] ++ [p]) :=
                hE₂.frame (by simpa using mem_of_lookup hheld) (by simpa using hpq)
              have h2 : Edits a₂ a₃ ([p] ++ [q]) ([p] ++ []) :=
                hE₃.frame (by simpa using mem_of_lookup hp₂) (by simpa using Ne.symm hpq)
              refine (h1.trans_of h2 ?_).congr ?_ ?_
              all_goals
                intro x
                simp [or_comm]
            intro Q hQ
            refine hQ a₃ _ (took_item h hent (by rw [Item.addrs]; exact hE) (hs₃ (hs₂ hs))
              (hE₃.lookup (by simpa using hpq) hp₂) hok' hent' ?_)
            rw [Item.entries, ← hb, ← hsplit]
          · rw [if_neg hb, pure_eq_ok, ensures_ok]
            intro v hv
            obtain ⟨x, hx, he⟩ := (mem_entries_iff h.wf).mp hv
            have hxe : x = .suffix q bs w :=
              KeySorted.value_unique h.wf.sorted hx List.mem_append_cons_self
            rw [hxe, Item.entries, List.mem_singleton, Prod.mk.injEq] at he
            exact hb (List.append_cancel_left (hsplit.symm.trans he.1))
        | child q g =>
          have hq := h.aligned_child hs
          have hlink : Linked C a ((p, pack CHUNK (key.drop off)) :: path) q g := by
            rintro _ ⟨⟩
            refine ⟨by have := h.not_mem_item; rwa [Item.addrs] at this, m, hm, hok, hlt', ?_⟩
            rw [hent, lookup_words h.wf.sorted List.mem_append_cons_self]
            rfl
          simp only [Item.word, isSuffixPtr_packChild hq, Bool.false_eq_true, if_false]
          refine (ih (hf.next hle) h.child hlink).mono fun r hr => ?_
          cases r with
          | none =>
            intro v hv
            obtain ⟨x, hx, he⟩ := (mem_entries_iff h.wf).mp hv
            have hxe : x = .child q g :=
              KeySorted.value_unique h.wf.sorted hx List.mem_append_cons_self
            rw [hxe, Item.entries, List.mem_map] at he
            obtain ⟨e, he, heq⟩ := he
            rw [underChunk, Prod.mk.injEq] at heq
            have hk : e.1 = key.drop (off + CHUNK) := List.append_cancel_left (heq.1.trans hsplit)
            exact hr e.2 (hk ▸ he)
          | some r =>
            obtain ⟨v, a₁, path₁⟩ := r
            intro Q hQ
            refine hr Q fun a₂ g' ht => prune_child h hs hl ht ?_
            rw [← hsplit]
            exact hQ
      · have hget : M.get m (pack CHUNK (key.drop off)) = none := by
          rw [C.get_eq hok hlt', hent, lookup_words_none h.wf.sorted hno]
        simp only [hget, pure_eq_ok, ensures_ok]
        intro v hv
        obtain ⟨x, hx, -⟩ := (mem_entries_iff h.wf).mp hv
        exact hno x hx

/-- Removal takes out the binding of the key, or finds none. -/
def Removes (C : M.Correct) (a : NodeAlloc M) (p : ℕ) (kids : Kids) (key : List ℕ) :
    Option (ℕ × NodeAlloc M) → Prop
  | none => ∀ v, (key, v) ∉ entries kids
  | some (v, a') => ∃ kids', Took C a p kids key v a' kids'

theorem removeImpl_spec (h : Node C a p kids) (hs : a.Sound) (hn : NulFree key) :
    Ensures True (removeImpl a p key) (Removes C a p kids key) := by
  unfold removeImpl
  refine (removeKey_spec (enough_turns key) h hs hn (by rintro _ ⟨⟩)).bind fun r hr => ?_
  rw [List.drop_zero] at hr
  cases r with
  | none => exact hr
  | some r =>
    obtain ⟨v, a₁, path₁⟩ := r
    refine Ensures.bind (hr (fun a₂ => ∃ kids', Took C a p kids key v a₂ kids') ?_) fun a₂ h₂ => h₂
    intro a₂ kids' ht
    exact ⟨kids', ht⟩

/-- The blocks of a list of subtrees, each given by its root and level. -/
def forestAddrs (fs : List (ℕ × Kids)) : List ℕ := fs.flatMap fun f => f.1 :: addrs f.2

theorem forestAddrs_append (fs fs' : List (ℕ × Kids)) :
    forestAddrs (fs ++ fs') = forestAddrs fs ++ forestAddrs fs' := List.flatMap_append

theorem Node.congr (h : Node C a p kids)
    (hq : ∀ q ∈ p :: addrs kids, a'.cells.lookup q = a.cells.lookup q) : Node C a' p kids :=
  ⟨h.shell.congr (hq p List.mem_cons_self),
    h.held.congr _ fun q hm => hq q (List.mem_cons_of_mem p hm), h.nodup, h.wf⟩

/-- Queueing a level frees its suffixes and leaves its children on the stack. -/
theorem queueKids_spec (hs : a.Sound) (h : Held C a kids) (hw : ∀ e ∈ kids, e.2.Wf e.1)
    (hn : (addrs kids).Nodup) (stack : List ℕ) :
    ∃ a' fs, queueKids (words kids) a stack = .ok (a', fs.map Prod.fst ++ stack) ∧ a'.Sound ∧
      Edits a a' (addrs kids) (forestAddrs fs) ∧ (∀ f ∈ fs, Node C a' f.1 f.2) ∧
      (forestAddrs fs).Nodup ∧ forestAddrs fs ⊆ addrs kids := by
  induction kids generalizing a stack with
  | nil =>
    refine ⟨a, [], rfl, hs, ?_, by simp, by simp [forestAddrs], by simp [forestAddrs]⟩
    rw [addrs]
    exact Edits.refl a (by simp)
  | cons e kids ih =>
    obtain ⟨c, x⟩ := e
    have hwx : x.Wf c := hw _ List.mem_cons_self
    have hwk : ∀ e ∈ kids, e.2.Wf e.1 := fun e he => hw e (List.mem_cons_of_mem _ he)
    have hmem := h.mem
    rw [Held] at h
    rw [addrs, List.nodup_append] at hn
    obtain ⟨hnx, hnk, hdis⟩ := hn
    have hword : words ((c, x) :: kids) = (c, x.word) :: words kids := rfl
    rw [hword]
    cases x with
    | value v =>
      rw [Item.Wf] at hwx
      obtain ⟨a', fs, hq, h1, h2, h3, h4, h5⟩ := ih hs h.2 hwk hnk stack
      refine ⟨a', fs, ?_, h1, ?_, h3, h4, ?_⟩
      · rw [queueKids, if_pos hwx.isTerminal, hq]
      · rw [addrs, Item.addrs, List.nil_append]
        exact h2
      · rw [addrs, Item.addrs, List.nil_append]
        exact h5
    | suffix q bs v =>
      rw [Item.Wf] at hwx
      rw [Item.Held] at h
      rw [Item.addrs] at hdis
      have hq : RAW_ALIGN ∣ q := hs.aligned q (mem_of_lookup h.1)
      have hqk : q ∉ addrs kids := fun hm => hdis q (List.mem_singleton.mpr rfl) q hm rfl
      obtain ⟨a₁, hfr, hE₁, hs₁⟩ := free_spec h.1
      have hheld : Held C a₁ kids := h.2.congr _ fun r hr =>
        hE₁.keep r (h.2.mem _ r hr) fun he => hqk (List.mem_singleton.mp he ▸ hr)
      obtain ⟨a', fs, hqk', h1, h2, h3, h4, h5⟩ := ih (hs₁ hs) hheld hwk hnk stack
      refine ⟨a', fs, ?_, h1, ?_, h3, h4, ?_⟩
      · rw [queueKids, if_neg (by rw [hwx.1.not_isTerminal]; simp), Item.word,
          if_pos (isSuffixPtr_packSuffix hq), unpackSuffix_packSuffix hq, hfr, ok_bind, hqk']
      · have hf : Edits a a₁ (addrs kids ++ [q]) (addrs kids ++ []) :=
          hE₁.frame (h.2.mem _) (by simpa using hqk)
        refine (hf.trans_of h2 (by simp)).congr ?_ fun _ => Iff.rfl
        intro r
        simp [addrs, Item.addrs, or_comm]
      · rw [addrs]
        exact fun r hr => List.mem_append_right _ (h5 hr)
    | child q g =>
      rw [Item.Wf] at hwx
      rw [Item.Held] at h
      rw [Item.addrs] at hdis hnx
      obtain ⟨mq, hmq, -⟩ := h.1.1
      have hq : RAW_ALIGN ∣ q := hs.aligned q (mem_of_lookup hmq)
      obtain ⟨a', fs, hqk', h1, h2, h3, h4, h5⟩ := ih hs h.2 hwk hnk (q :: stack)
      have hnode : Node C a q g := ⟨h.1.1, h.1.2, hnx, hwx.2.2⟩
      have hout : ∀ r ∈ q :: addrs g, r ∉ addrs kids := fun r hr hr' => hdis r hr r hr' rfl
      have hone : forestAddrs [(q, g)] = q :: addrs g := by simp [forestAddrs]
      refine ⟨a', fs ++ [(q, g)], ?_, h1, ?_, ?_, ?_, ?_⟩
      · rw [queueKids, if_neg (by rw [hwx.1.not_isTerminal]; simp), Item.word,
          if_neg (by rw [isSuffixPtr_packChild hq]; simp), show unpackChild (packChild q) = q from rfl,
          hqk']
        simp
      · have hf := h2.frame (G := q :: addrs g) hnode.mem fun r hr hr' => hout r hr hr'
        refine hf.congr ?_ ?_
        · intro r
          simp [addrs, Item.addrs]
        · intro r
          rw [forestAddrs_append, hone, List.mem_append, List.mem_append, or_comm]
      · intro f hf
        rcases List.mem_append.mp hf with hf | hf
        · exact h3 f hf
        · rw [List.mem_singleton] at hf
          subst hf
          exact hnode.congr fun r hr => h2.keep r (hnode.mem r hr) (hout r hr)
      · rw [forestAddrs_append, hone, List.nodup_append]
        exact ⟨h4, hnx, fun r hr r' hr' he => hout r' hr' (h5 (he ▸ hr))⟩
      · rw [forestAddrs_append, hone, addrs, Item.addrs]
        intro r hr
        rcases List.mem_append.mp hr with hr | hr
        · exact List.mem_append_right _ (h5 hr)
        · exact List.mem_append_left _ hr

theorem disposeTree_spec {fuel : ℕ} {fs : List (ℕ × Kids)} (hs : a.Sound)
    (h : ∀ f ∈ fs, Node C a f.1 f.2) (hn : (forestAddrs fs).Nodup)
    (hf : (forestAddrs fs).length ≤ fuel) :
    ∃ a', disposeTree fuel a (fs.map Prod.fst) = .ok a' ∧ a'.Sound ∧ Edits a a' (forestAddrs fs) [] := by
  induction fuel generalizing a fs with
  | zero =>
    cases fs with
    | nil => exact ⟨a, rfl, hs, Edits.refl a (F := []) (by simp)⟩
    | cons f fs => simp [forestAddrs] at hf
  | succ fuel ih =>
    cases fs with
    | nil => exact ⟨a, rfl, hs, Edits.refl a (F := []) (by simp)⟩
    | cons f fs =>
      obtain ⟨p, kids⟩ := f
      have hnode : Node C a p kids := h _ List.mem_cons_self
      have hrest : ∀ f ∈ fs, Node C a f.1 f.2 := fun f hf => h f (List.mem_cons_of_mem _ hf)
      have hcons : forestAddrs ((p, kids) :: fs) = (p :: addrs kids) ++ forestAddrs fs := by
        simp [forestAddrs]
      rw [hcons, List.nodup_append] at hn
      rw [hcons, List.length_append, List.length_cons] at hf
      obtain ⟨hnp, hnf, hdis⟩ := hn
      obtain ⟨hpk, hnk⟩ := List.nodup_cons.mp hnp
      obtain ⟨m, hm, hok, hent⟩ := hnode.shell
      have hfmem : ∀ q ∈ forestAddrs fs, q ∈ a.cells := by
        intro q hq
        obtain ⟨f, hf, hq⟩ := List.mem_flatMap.mp hq
        exact (hrest f hf).mem q hq
      obtain ⟨a₁, fs₁, hqueue, hs₁, hE₁, hnodes, hn₁, hsub⟩ :=
        queueKids_spec hs hnode.held (wf_iff.mp hnode.wf).2 hnk (fs.map Prod.fst)
      have hm₁ : a₁.cells.lookup p = some (.shell m) := hE₁.lookup hpk hm
      obtain ⟨a₂, hfr, hE₂, hs₂⟩ := free_spec hm₁
      have hp₁ : ∀ q ∈ forestAddrs fs₁, q ∉ [p] := fun q hq he =>
        hpk (hsub (List.mem_singleton.mp he ▸ hq))
      have hmem₁ : ∀ q ∈ forestAddrs fs₁, q ∈ a₁.cells := fun q hq => (hE₁.mem q).mpr (.inl hq)
      have hout : ∀ q ∈ forestAddrs fs, q ∉ p :: addrs kids := fun q hq hq' => hdis q hq' q hq rfl
      -- the subtrees still queued are untouched by freeing the level
      have hall : ∀ f ∈ fs₁ ++ fs, Node C a₂ f.1 f.2 := by
        intro f hf
        rcases List.mem_append.mp hf with hf | hf
        · have hin : ∀ q ∈ f.1 :: addrs f.2, q ∈ forestAddrs fs₁ := fun q hq =>
            List.mem_flatMap.mpr ⟨f, hf, hq⟩
          exact (hnodes f hf).congr fun q hq => hE₂.keep q (hmem₁ q (hin q hq)) (hp₁ q (hin q hq))
        · have hin : ∀ q ∈ f.1 :: addrs f.2, q ∈ forestAddrs fs := fun q hq =>
            List.mem_flatMap.mpr ⟨f, hf, hq⟩
          refine (hrest f hf).congr fun q hq => ?_
          have ho := hout q (hin q hq)
          rw [List.mem_cons, not_or] at ho
          rw [hE₂.keep q ((hE₁.mem q).mpr (.inr ⟨hfmem q (hin q hq), ho.2⟩)) (by simpa using ho.1),
            hE₁.keep q (hfmem q (hin q hq)) ho.2]
      have hnd : (forestAddrs (fs₁ ++ fs)).Nodup := by
        rw [forestAddrs_append, List.nodup_append]
        exact ⟨hn₁, hnf, fun q hq r hr he =>
          hout r hr (List.mem_cons_of_mem p (hsub (he ▸ hq)))⟩
      have hlen : (forestAddrs (fs₁ ++ fs)).length ≤ fuel := by
        have := (hn₁.subperm hsub).length_le
        rw [forestAddrs_append, List.length_append]
        omega
      obtain ⟨a', hd, hs', hE'⟩ := ih (hs₂ hs₁) hall hnd hlen
      refine ⟨a', ?_, hs', ?_⟩
      · rw [List.map_cons, disposeTree, shell_eq hm, ok_bind, C.iter_eq hok, hent, hqueue, ok_bind]
        simp only [hfr, ok_bind]
        rw [← List.map_append]
        exact hd
      · have h1 := hE₁.frame (G := p :: forestAddrs fs) (by
          rw [List.forall_mem_cons]
          exact ⟨mem_of_lookup hm, hfmem⟩) (fun q hq hq' => by
            rcases List.mem_cons.mp hq with rfl | hq
            · exact hpk hq'
            · exact hout q hq (List.mem_cons_of_mem p hq'))
        have h2 := hE₂.frame (G := forestAddrs (fs₁ ++ fs)) (by
          rw [forestAddrs_append, List.forall_mem_append]
          refine ⟨hmem₁, fun q hq => ?_⟩
          have ho := hout q hq
          rw [List.mem_cons, not_or] at ho
          exact (hE₁.mem q).mpr (.inr ⟨hfmem q hq, ho.2⟩)) (fun q hq he => by
            rw [forestAddrs_append, List.mem_append] at hq
            rcases hq with hq | hq
            · exact hp₁ q hq he
            · exact hout q hq (List.mem_singleton.mp he ▸ List.mem_cons_self))
        refine ((h1.trans_of h2 ?_).trans_of hE' ?_).congr ?_ fun _ => Iff.rfl
        all_goals
          intro q
          simp only [forestAddrs_append, hcons, List.mem_append, List.mem_cons, List.not_mem_nil,
            or_false]
          try tauto

end Expanse.StrMap
