import Expanse.Library.Ensures
import Expanse.StrMap.Trie

/-!
# How the blocks of a trie change

`Sound` is what every allocator call keeps: the byte counter is the sum over the live
blocks, and every address is aligned. `Edits a a' F F'` says that a heap changed only in
the blocks `F`, which became the blocks `F'`, each kept or new. One lemma (`Node.splice`)
turns a change of some items of a level into a change of the level.
-/

namespace Expanse.StrMap

open SortedAssoc BigEndian

variable {M : WordMap}

namespace NodeAlloc

def total (cells : AList fun _ : ℕ => Cell M) : ℕ := (cells.entries.map fun e => e.2.bytes).sum

structure Sound (a : NodeAlloc M) : Prop where
  bytes : a.bytesInUse = total a.cells
  aligned : ∀ q ∈ a.cells, RAW_ALIGN ∣ q

/-- From `a` to `a'` the blocks `F` became the blocks `F'`; no other block changed. -/
structure Edits (a a' : NodeAlloc M) (F F' : List ℕ) : Prop where
  keep : ∀ q ∈ a.cells, q ∉ F → a'.cells.lookup q = a.cells.lookup q
  mem : ∀ q, q ∈ a'.cells ↔ q ∈ F' ∨ q ∈ a.cells ∧ q ∉ F
  fresh : ∀ q ∈ F', q ∈ F ∨ q ∉ a.cells

variable {a a' a'' : NodeAlloc M} {F F' F'' G : List ℕ} {p q : ℕ} {c : Cell M}

theorem Edits.refl (a : NodeAlloc M) (h : ∀ q ∈ F, q ∈ a.cells) : Edits a a F F where
  keep _ _ _ := rfl
  mem q := by
    have := h q
    tauto
  fresh q hq := .inl hq

theorem Edits.frame (h : Edits a a' F F') (hG : ∀ q ∈ G, q ∈ a.cells) (hd : G.Disjoint F) :
    Edits a a' (G ++ F) (G ++ F') where
  keep q hq hn := h.keep q hq fun hF => hn (List.mem_append_right G hF)
  mem q := by
    have h1 := hG q
    have h2 : q ∈ G → q ∉ F := fun a b => hd a b
    rw [h.mem, List.mem_append, List.mem_append]
    tauto
  fresh q hq := by
    rcases List.mem_append.mp hq with hq | hq
    · exact .inl (List.mem_append_left F hq)
    · exact (h.fresh q hq).imp_left (List.mem_append_right G)

theorem Edits.trans (h : Edits a a' F F') (h' : Edits a' a'' F' F'') : Edits a a'' F F'' where
  keep q hq hn := by
    have hn' : q ∉ F' := fun hF' => (h.fresh q hF').elim hn fun hna => hna hq
    have hmem : q ∈ a'.cells := (h.mem q).mpr (.inr ⟨hq, hn⟩)
    rw [h'.keep q hmem hn', h.keep q hq hn]
  mem q := by
    have hf := h.fresh q
    rw [h'.mem, h.mem]
    tauto
  fresh q hq := by
    have hm := h.mem q
    have hf := h.fresh q
    rcases h'.fresh q hq with h1 | h1
    · exact hf h1
    · tauto

theorem Edits.congr (h : Edits a a' F F') {G G' : List ℕ} (hF : ∀ q, q ∈ F ↔ q ∈ G)
    (hF' : ∀ q, q ∈ F' ↔ q ∈ G') : Edits a a' G G' where
  keep q hq hn := h.keep q hq fun hm => hn ((hF q).mp hm)
  mem q := by rw [h.mem, hF, hF']
  fresh q hq := by
    rw [← hF]
    exact h.fresh q ((hF' q).mpr hq)

theorem Edits.trans_of (h : Edits a a' F F') (h' : Edits a' a'' G F'') (hG : ∀ q, q ∈ F' ↔ q ∈ G) :
    Edits a a'' F F'' :=
  h.trans (h'.congr (fun q => (hG q).symm) fun _ => Iff.rfl)

theorem Edits.lookup (h : Edits a a' F F') (hn : q ∉ F) (hl : a.cells.lookup q = some c) :
    a'.cells.lookup q = some c := by
  rw [h.keep q (AList.lookup_isSome.mp (by rw [hl]; rfl)) hn, hl]

theorem mem_of_lookup (h : a.cells.lookup q = some c) : q ∈ a.cells :=
  AList.lookup_isSome.mp (by rw [h]; rfl)

theorem total_erase {cells : AList fun _ : ℕ => Cell M} (h : cells.lookup p = some c) :
    total (cells.erase p) + c.bytes = total cells := by
  have hmem : p ∈ cells.entries.keys := AList.mem_keys.mp (AList.lookup_isSome.mp (by rw [h]; rfl))
  obtain ⟨b, l₁, l₂, hp, hl, he⟩ := List.exists_of_kerase hmem
  have hb : c = b := by
    have hin : (⟨p, b⟩ : Sigma fun _ : ℕ => Cell M) ∈ cells.entries := by simp [hl]
    have := (AList.mem_lookup_iff (s := cells)).mpr hin
    rw [h] at this
    exact Option.some.inj this
  have hent : (cells.erase p).entries = l₁ ++ l₂ := he
  subst hb
  rw [total, total, hent, hl]
  simp only [List.map_append, List.map_cons, List.sum_append, List.sum_cons]
  omega

theorem total_insert {cells : AList fun _ : ℕ => Cell M} :
    total (cells.insert p c) = c.bytes + total (cells.erase p) := by
  rw [total, AList.entries_insert]
  rfl

theorem erase_of_not_mem {cells : AList fun _ : ℕ => Cell M} (h : p ∉ cells) :
    total (cells.erase p) = total cells := by
  have : (cells.erase p).entries = cells.entries :=
    List.kerase_of_notMem_keys fun hm => h (AList.mem_keys.mpr hm)
  rw [total, this, total]

theorem alloc_spec (P : Placement) (a : NodeAlloc M) (c : Cell M) :
    ∃ p a', a.alloc P c = (p, a') ∧ a'.cells.lookup p = some c ∧ Edits a a' [] [p] ∧
      p ∉ a.cells ∧ (a.Sound → a'.Sound) := by
  have hp : P.pick a.requests a.cells.keys ∉ a.cells :=
    fun hm => P.fresh a.requests a.cells.keys (AList.mem_keys.mp hm)
  refine ⟨_, _, rfl, AList.lookup_insert a.cells, ⟨?_, ?_, ?_⟩, hp, fun h => ⟨?_, ?_⟩⟩
  · intro q hq _
    exact AList.lookup_insert_ne fun he => hp (he ▸ hq)
  · intro q
    simp only [AList.mem_insert, List.mem_singleton, List.not_mem_nil, not_false_eq_true, and_true]
  · intro q hq
    rw [List.mem_singleton] at hq
    exact .inr (hq ▸ hp)
  · rw [total_insert, erase_of_not_mem hp, h.bytes, Nat.add_comm]
  · intro q hq
    rcases (AList.mem_insert a.cells).mp hq with rfl | hq
    · exact P.aligned a.requests a.cells.keys
    · exact h.aligned q hq

theorem store_spec {old : Cell M} (h : a.cells.lookup p = some old) (c : Cell M) :
    ∃ a', a.store p c = .ok a' ∧ a'.cells.lookup p = some c ∧ Edits a a' [p] [p] ∧
      (a.Sound → a'.Sound) := by
  have hp := mem_of_lookup h
  unfold store
  rw [h]
  refine ⟨_, rfl, AList.lookup_insert a.cells, ⟨?_, ?_, ?_⟩, fun hs => ⟨?_, ?_⟩⟩
  · intro q _ hq
    exact AList.lookup_insert_ne fun he => hq (by simp [he])
  · intro q
    simp only [AList.mem_insert, List.mem_singleton]
    tauto
  · intro q hq
    exact .inl hq
  · have := total_erase h
    have := hs.bytes
    show a.bytesInUse + c.bytes - old.bytes = total (a.cells.insert p c)
    rw [total_insert]
    omega
  · intro q hq
    rcases (AList.mem_insert a.cells).mp hq with rfl | hq
    · exact hs.aligned q hp
    · exact hs.aligned q hq

theorem free_spec (h : a.cells.lookup p = some c) :
    ∃ a', a.free p = .ok a' ∧ Edits a a' [p] [] ∧ (a.Sound → a'.Sound) := by
  unfold free
  rw [h]
  refine ⟨_, rfl, ⟨?_, ?_, ?_⟩, fun hs => ⟨?_, ?_⟩⟩
  · intro q _ hq
    exact AList.lookup_erase_ne fun he => hq (by simp [he])
  · intro q
    simp only [AList.mem_erase, List.mem_singleton, List.not_mem_nil, false_or]
    tauto
  · intro q hq
    exact absurd hq List.not_mem_nil
  · have := total_erase h
    have := hs.bytes
    show a.bytesInUse - c.bytes = total (a.cells.erase p)
    omega
  · intro q hq
    exact hs.aligned q (AList.mem_erase.mp hq).2

theorem shell_eq {m : M.Map} (h : a.cells.lookup p = some (.shell m)) : a.shell p = .ok m := by
  rw [shell, h]

theorem suffix_eq {bs : List ℕ} {v : ℕ} (h : a.cells.lookup p = some (.suffix bs v)) :
    a.suffix p = .ok (bs, v) := by
  rw [suffix, h]

end NodeAlloc

open NodeAlloc

variable {C : M.Correct} {a a' : NodeAlloc M} {kids l₁ l₂ X Y : Kids} {c p q : ℕ} {x y : Item}

mutual

theorem Item.Held.mem (x : Item) (h : x.Held C a) : ∀ q ∈ x.addrs, q ∈ a.cells := by
  cases x with
  | value v => rw [Item.addrs]; simp
  | suffix p bs v =>
    rw [Item.Held] at h
    rw [Item.addrs]
    simpa using mem_of_lookup h
  | child p kids =>
    rw [Item.Held] at h
    rw [Item.addrs, List.forall_mem_cons]
    obtain ⟨m, hm, -⟩ := h.1
    exact ⟨mem_of_lookup hm, Held.mem kids h.2⟩

theorem Held.mem (kids : Kids) (h : Held C a kids) : ∀ q ∈ addrs kids, q ∈ a.cells := by
  cases kids with
  | nil => rw [addrs]; simp
  | cons e kids =>
    rw [Held] at h
    rw [addrs, List.forall_mem_append]
    exact ⟨Item.Held.mem e.2 h.1, Held.mem kids h.2⟩

end

theorem Shell.congr (h : Shell C a p kids) (hq : a'.cells.lookup p = a.cells.lookup p) :
    Shell C a' p kids := by
  obtain ⟨m, hm, hok, hw⟩ := h
  exact ⟨m, by rw [hq, hm], hok, hw⟩

mutual

theorem Item.Held.congr (x : Item) (h : x.Held C a)
    (hq : ∀ q ∈ x.addrs, a'.cells.lookup q = a.cells.lookup q) : x.Held C a' := by
  cases x with
  | value v => trivial
  | suffix p bs v =>
    rw [Item.Held] at h ⊢
    rw [hq p (by simp [Item.addrs]), h]
  | child p kids =>
    rw [Item.addrs, List.forall_mem_cons] at hq
    rw [Item.Held] at h ⊢
    exact ⟨h.1.congr hq.1, Held.congr kids h.2 hq.2⟩

theorem Held.congr (kids : Kids) (h : Held C a kids)
    (hq : ∀ q ∈ addrs kids, a'.cells.lookup q = a.cells.lookup q) : Held C a' kids := by
  cases kids with
  | nil => trivial
  | cons e kids =>
    rw [addrs, List.forall_mem_append] at hq
    rw [Held] at h ⊢
    exact ⟨Item.Held.congr e.2 h.1 hq.1, Held.congr kids h.2 hq.2⟩

end

theorem Held.append : Held C a (l₁ ++ l₂) ↔ Held C a l₁ ∧ Held C a l₂ := by
  simp only [held_iff, List.forall_mem_append]

theorem Node.mem (h : Node C a p kids) : ∀ q ∈ p :: addrs kids, q ∈ a.cells := by
  rw [List.forall_mem_cons]
  obtain ⟨m, hm, -⟩ := h.shell
  exact ⟨mem_of_lookup hm, h.held.mem⟩

/-- Items `X` of a level, with the level's own shell, became items `Y`. -/
theorem Node.splice (h : Node C a p (l₁ ++ (X ++ l₂)))
    (hE : Edits a a' (p :: addrs X) (p :: addrs Y)) (hs : Shell C a' p (l₁ ++ (Y ++ l₂)))
    (hX : Held C a' Y) (hn : (addrs Y).Nodup) (hp : p ∉ addrs Y)
    (hw : Wf (l₁ ++ (Y ++ l₂))) :
    Node C a' p (l₁ ++ (Y ++ l₂)) ∧
      Edits a a' (p :: addrs (l₁ ++ (X ++ l₂))) (p :: addrs (l₁ ++ (Y ++ l₂))) := by
  have hnd := h.nodup
  have hmem := h.mem
  simp only [addrs_append, List.nodup_cons, List.nodup_append, List.mem_append, not_or,
    List.forall_mem_cons] at hnd hmem
  obtain ⟨⟨hp₁, hpX, hp₂⟩, hn₁, ⟨hnX, hn₂, hX₂⟩, h₁⟩ := hnd
  -- the items on both sides are live and untouched
  have hout : ∀ q ∈ addrs l₁ ++ addrs l₂, q ∈ a.cells ∧ q ∉ p :: addrs X := by
    intro q hq
    rcases List.mem_append.mp hq with hq | hq
    · refine ⟨hmem.2 q (.inl hq), ?_⟩
      rw [List.mem_cons]
      rintro (rfl | hx)
      · exact hp₁ hq
      · exact h₁ q hq q (.inl hx) rfl
    · refine ⟨hmem.2 q (.inr (.inr hq)), ?_⟩
      rw [List.mem_cons]
      rintro (rfl | hx)
      · exact hp₂ hq
      · exact hX₂ q hx q hq rfl
  have hout' : ∀ q ∈ addrs l₁ ++ addrs l₂, q ∉ addrs Y := by
    intro q hq hx
    rcases hE.fresh q (List.mem_cons_of_mem p hx) with h' | h'
    · exact (hout q hq).2 h'
    · exact h' (hout q hq).1
  have hsame : ∀ q ∈ addrs l₁ ++ addrs l₂, a'.cells.lookup q = a.cells.lookup q :=
    fun q hq => hE.keep q (hout q hq).1 (hout q hq).2
  have hheld := h.held
  rw [Held.append, Held.append] at hheld
  constructor
  · refine ⟨hs, ?_, ?_, hw⟩
    · rw [Held.append, Held.append]
      exact ⟨hheld.1.congr _ fun q hq => hsame q (List.mem_append_left _ hq), hX,
        hheld.2.2.congr _ fun q hq => hsame q (List.mem_append_right _ hq)⟩
    · simp only [addrs_append, List.nodup_cons, List.nodup_append, List.mem_append, not_or]
      refine ⟨⟨hp₁, hp, hp₂⟩, hn₁, ⟨hn, hn₂, ?_⟩, ?_⟩
      · rintro q hq _ hq' rfl
        exact hout' q (List.mem_append_right _ hq') hq
      · rintro q hq _ hq' rfl
        rcases hq' with hq' | hq'
        · exact hout' q (List.mem_append_left _ hq) hq'
        · exact h₁ q hq q (.inr hq') rfl
  · have hf := hE.frame (fun q hq => (hout q hq).1) (fun q hq hx => (hout q hq).2 hx)
    refine hf.congr ?_ ?_
    · intro q
      simp only [addrs_append, List.mem_append, List.mem_cons]
      tauto
    · intro q
      simp only [addrs_append, List.mem_append, List.mem_cons]
      tauto

theorem wf_cut (h : Wf (l₁ ++ (c, x) :: l₂)) (hx : y.Wf c) : Wf (l₁ ++ (c, y) :: l₂) := by
  obtain ⟨hs, hall⟩ := wf_iff.mp h
  obtain ⟨h₁, h₂, hcut⟩ := hs.of_cut
  refine wf_iff.mpr ⟨keySorted_cut h₁ h₂ hcut y, fun e he => ?_⟩
  rcases List.mem_append.mp he with he | he
  · exact hall e (List.mem_append_left _ he)
  · rcases List.mem_cons.mp he with rfl | he
    · exact hx
    · exact hall e (List.mem_append_right _ (List.mem_cons_of_mem _ he))

theorem wf_cut_new (h : Wf (l₁ ++ l₂)) (hcut : CutAt c l₁ l₂) (hx : y.Wf c) :
    Wf (l₁ ++ (c, y) :: l₂) := by
  obtain ⟨hs, hall⟩ := wf_iff.mp h
  refine wf_iff.mpr ⟨keySorted_cut hs.of_append.1 hs.of_append.2 hcut y, fun e he => ?_⟩
  rcases List.mem_append.mp he with he | he
  · exact hall e (List.mem_append_left _ he)
  · rcases List.mem_cons.mp he with rfl | he
    · exact hx
    · exact hall e (List.mem_append_right _ he)

theorem wf_cut_del (h : Wf (l₁ ++ (c, x) :: l₂)) : Wf (l₁ ++ l₂) := by
  obtain ⟨hs, hall⟩ := wf_iff.mp h
  have hsub : (l₁ ++ l₂).Sublist (l₁ ++ (c, x) :: l₂) :=
    (List.Sublist.refl l₁).append (List.sublist_cons_self _ l₂)
  exact wf_iff.mpr ⟨hs.sublist hsub, fun e he => hall e (hsub.subset he)⟩

theorem Node.item (h : Node C a p (l₁ ++ (c, x) :: l₂)) : x.Held C a ∧ x.Wf c ∧ x.addrs.Nodup := by
  have hm : (c, x) ∈ l₁ ++ (c, x) :: l₂ := by simp
  refine ⟨held_iff.mp h.held _ hm, (wf_iff.mp h.wf).2 _ hm, ?_⟩
  have hnd := h.nodup
  rw [addrs_cut, List.nodup_cons, List.nodup_append, List.nodup_append] at hnd
  exact hnd.2.2.1.1

theorem Node.not_mem_item (h : Node C a p (l₁ ++ (c, x) :: l₂)) : p ∉ x.addrs := by
  have hnd := h.nodup
  rw [addrs_cut, List.nodup_cons, List.mem_append, List.mem_append] at hnd
  tauto

theorem Node.child {g : Kids} (h : Node C a p (l₁ ++ (c, .child q g) :: l₂)) : Node C a q g := by
  obtain ⟨hh, hw, hn⟩ := h.item
  rw [Item.Held] at hh
  rw [Item.Wf] at hw
  rw [Item.addrs] at hn
  exact ⟨hh.1, hh.2, hn, hw.2.2⟩

/-- One item changed below its word; the level's shell stays as it was. -/
theorem Node.replace (h : Node C a p (l₁ ++ (c, x) :: l₂)) (hE : Edits a a' x.addrs y.addrs)
    (hx : y.Held C a') (hn : y.addrs.Nodup) (hw : y.Wf c) (hword : y.word = x.word) :
    Node C a' p (l₁ ++ (c, y) :: l₂) ∧
      Edits a a' (p :: addrs (l₁ ++ (c, x) :: l₂)) (p :: addrs (l₁ ++ (c, y) :: l₂)) := by
  have hp := h.not_mem_item
  have hpm : p ∈ a.cells := h.mem p List.mem_cons_self
  have hpy : p ∉ y.addrs := by
    intro hm
    rcases hE.fresh p hm with h' | h'
    · exact hp h'
    · exact h' hpm
  have hsh : Shell C a' p (l₁ ++ (c, y) :: l₂) := by
    obtain ⟨m, hm, hok, hent⟩ := h.shell
    refine ⟨m, hE.lookup hp hm, hok, ?_⟩
    rw [hent, words_cut, words_cut, hword]
  have hE' : Edits a a' ([p] ++ x.addrs) ([p] ++ y.addrs) :=
    hE.frame (by simpa using hpm) (by simpa using hp)
  have h1 : addrs [(c, x)] = x.addrs := by rw [addrs, addrs, List.append_nil]
  have h2 : addrs [(c, y)] = y.addrs := by rw [addrs, addrs, List.append_nil]
  exact Node.splice (X := [(c, x)]) (Y := [(c, y)]) h (by rw [h1, h2]; exact hE') hsh
    (by rw [Held, Held]; exact ⟨hx, trivial⟩) (by rw [h2]; exact hn) (by rw [h2]; exact hpy)
    (wf_cut h.wf hw)

end Expanse.StrMap
