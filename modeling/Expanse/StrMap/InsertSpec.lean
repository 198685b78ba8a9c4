import Expanse.StrMap.Locate

/-!
# Reaching the place of a key that is to be bound

The chunk loop of an insertion keeps every binding. It splits each suffix that diverges
from the key into a child with the suffix's own continuation, and it ends at the place a
lookup would find afterwards: a terminal entry still to be written, the suffix of the key,
or a new suffix that binds the key.
-/

namespace Expanse.StrMap

open SortedAssoc BigEndian NodeAlloc

variable {M : WordMap} {C : M.Correct} {a a' : NodeAlloc M} {kids l₁ l₂ g : Kids} {c p q off : ℕ}
  {key : List ℕ} {v w : ℕ} (P : Placement)

namespace WordMap.Correct

variable (C : M.Correct) {m : M.Map} {k : ℕ}

theorem ensures_insert (h : C.Ok m) (hk : k < WORD) (v : ℕ) :
    Ensures C.Total (M.insert m k v) fun r =>
      C.Ok r.2 ∧ C.entries r.2 = put k v (C.entries m) ∧ r.1 = (C.entries m).lookup k :=
  ensures_intro (fun _ hr => C.insert_ok h hk hr) fun hT => hT.insert m k v h hk

theorem ensures_insSlot (h : C.Ok m) (hk : k < WORD) :
    Ensures C.Total (M.insSlot m k) fun r =>
      C.Ok r.2 ∧ C.entries r.2 = put k (((C.entries m).lookup k).getD 0) (C.entries m) ∧
        M.getSlotPtr r.2 k = some r.1 :=
  ensures_intro (fun _ hr => C.insSlot_ok h hk hr) fun hT => hT.insSlot m k h hk

end WordMap.Correct

theorem words_eq_nil : words kids = [] ↔ kids = [] := by
  rw [words, List.map_eq_nil_iff]

theorem node_single {x : Item} (hl : ∃ m, a.cells.lookup p = some (.shell m) ∧ C.Ok m ∧
    C.entries m = [(c, x.word)]) (hx : x.Held C a) (hn : (p :: x.addrs).Nodup) (hw : x.Wf c) :
    Node C a p [(c, x)] where
  shell := hl
  held := by
    rw [Held, Held]
    exact ⟨hx, trivial⟩
  nodup := by
    rw [addrs, addrs, List.append_nil]
    exact hn
  wf := by
    rw [Wf, Wf]
    exact ⟨hw, by simp, trivial⟩

theorem buildSplitChild_spec {bs : List ℕ} (hs : a.Sound) (hb : NulFree bs)
    (hq : a.cells.lookup q = some (.suffix bs w)) :
    Ensures C.Total (buildSplitChild P a q) fun r => ∃ g, Node C r.2 r.1 g ∧ r.2.Sound ∧
      Edits a r.2 [] (r.1 :: addrs g) ∧ entries g = [(bs, w)] ∧ g ≠ [] := by
  obtain ⟨p, a₁, halloc, hp, hE₁, hfresh, hs₁⟩ := alloc_spec P a (.shell M.new)
  have hq₁ : a₁.cells.lookup q = some (.suffix bs w) := hE₁.lookup (by simp) hq
  have hdrop : bs.drop 0 = bs := List.drop_zero
  unfold buildSplitChild
  simp only [halloc, suffix_eq hq₁, shell_eq hp, ok_bind]
  by_cases hlt : bs.length < CHUNK
  · rw [chunkAt_of_lt (by rwa [hdrop]), hdrop]
    simp only [if_true]
    refine (C.ensures_insert C.new_ok (pack_lt_word hb) w).bind fun r hr => ?_
    obtain ⟨hok, hent, -⟩ := hr
    obtain ⟨a₂, hst, hp₂, hE₂, hs₂⟩ := store_spec hp (.shell r.2)
    simp only [hst, ok_bind, pure_eq_ok, ensures_ok]
    refine ⟨[(pack CHUNK bs, .value w)], node_single ⟨r.2, hp₂, hok, ?_⟩ trivial (by simp [Item.addrs])
      ?_, hs₂ (hs₁ hs), ?_, ?_, by simp⟩
    · rw [hent, C.entries_new]
      rfl
    · rw [Item.Wf]
      exact lastChunk_of_lt hb hlt
    · simpa [addrs, Item.addrs] using hE₁.trans hE₂
    · rw [entries, entries, Item.entries, termBytes_pack hb hlt]
      rfl
  · have hle : CHUNK ≤ bs.length := Nat.not_lt.mp hlt
    obtain ⟨s, a₂, halloc₂, hsl, hE₂, hfresh₂, hs₂⟩ := alloc_spec P a₁ (.suffix (bs.drop CHUNK) w)
    have hps : p ≠ s := fun he => hfresh₂ (he ▸ mem_of_lookup hp)
    rw [chunkAt_of_le (by rwa [hdrop]), hdrop]
    simp only [Bool.false_eq_true, if_false, halloc₂]
    refine (C.ensures_insert C.new_ok (pack_lt_word hb) (packSuffix s)).bind fun r hr => ?_
    obtain ⟨hok, hent, -⟩ := hr
    have hp₂ : a₂.cells.lookup p = some (.shell M.new) := hE₂.lookup (by simp) hp
    obtain ⟨a₃, hst, hp₃, hE₃, hs₃⟩ := store_spec hp₂ (.shell r.2)
    simp only [hst, ok_bind, pure_eq_ok, ensures_ok]
    refine ⟨[(pack CHUNK bs, .suffix s (bs.drop CHUNK) w)], node_single ⟨r.2, hp₃, hok, ?_⟩ ?_
      (by simp [Item.addrs, hps]) ?_, hs₃ (hs₂ (hs₁ hs)), ?_, ?_, by simp⟩
    · rw [hent, C.entries_new]
      rfl
    · rw [Item.Held]
      exact hE₃.lookup (by simpa using Ne.symm hps) hsl
    · rw [Item.Wf]
      exact ⟨fullChunk_of_le hb hle, hb.drop CHUNK⟩
    · have hf₂ : Edits a₁ a₂ ([p] ++ []) ([p] ++ [s]) :=
        hE₂.frame (by simpa using mem_of_lookup hp) (by simp)
      have hf₃ : Edits a₂ a₃ ([s] ++ [p]) ([s] ++ [p]) :=
        hE₃.frame (by simpa using mem_of_lookup hsl) (by simpa using hps)
      refine ((hE₁.trans hf₂).trans_of hf₃ ?_).congr ?_ ?_
      all_goals
        intro x
        simp [addrs, Item.addrs, or_comm]
    · rw [entries, entries, Item.entries, beBytes_append_drop hb hle]
      rfl

theorem splitSuffix_spec {bs : List ℕ} (hs : a.Sound)
    (h : Node C a p (l₁ ++ (c, .suffix q bs w) :: l₂)) :
    Ensures C.Total (splitSuffix P a p c q) fun r => ∃ g, Node C r.2 p (l₁ ++ (c, .child r.1 g) :: l₂) ∧
      r.2.Sound ∧ Edits a r.2 (p :: addrs (l₁ ++ (c, .suffix q bs w) :: l₂))
        (p :: addrs (l₁ ++ (c, .child r.1 g) :: l₂)) ∧ entries g = [(bs, w)] := by
  obtain ⟨hheld, hwf, -⟩ := h.item
  rw [Item.Held] at hheld
  rw [Item.Wf] at hwf
  obtain ⟨m, hm, hok, hent⟩ := h.shell
  have hpq : p ≠ q := by
    have := h.not_mem_item
    simpa [Item.addrs] using this
  unfold splitSuffix
  refine (buildSplitChild_spec P hs hwf.2 hheld).bind fun r hr => ?_
  obtain ⟨g, hg, hs₁, hE₁, hentg, hne⟩ := hr
  obtain ⟨b, a₁⟩ := r
  have hm₁ : a₁.cells.lookup p = some (.shell m) := hE₁.lookup (by simp) hm
  have hq₁ : a₁.cells.lookup q = some (.suffix bs w) := hE₁.lookup (by simp) hheld
  have hnew : ∀ x ∈ b :: addrs g, x ∉ a.cells := fun x hx =>
    (hE₁.fresh x hx).resolve_left List.not_mem_nil
  have hpb : p ∉ b :: addrs g := fun hx => hnew p hx (mem_of_lookup hm)
  have hqb : q ∉ b :: addrs g := fun hx => hnew q hx (mem_of_lookup hheld)
  simp only [shell_eq hm₁, ok_bind]
  refine (C.ensures_insert hok hwf.1.1 (packChild b)).bind fun r hr => ?_
  obtain ⟨hok', hent', -⟩ := hr
  obtain ⟨a₂, hst, hp₂, hE₂, hs₂⟩ := store_spec hm₁ (.shell r.2)
  have hq₂ : a₂.cells.lookup q = some (.suffix bs w) := hE₂.lookup (by simpa using Ne.symm hpq) hq₁
  obtain ⟨a₃, hfr, hE₃, hs₃⟩ := free_spec hq₂
  simp only [hst, hfr, ok_bind, pure_eq_ok, ensures_ok]
  -- the three edits, seen from the blocks of the level's shell and the old suffix
  have hE : Edits a a₃ (p :: [q]) (p :: b :: addrs g) := by
    have h1 : Edits a a₁ ([p, q] ++ []) ([p, q] ++ (b :: addrs g)) :=
      hE₁.frame (by simpa using ⟨mem_of_lookup hm, mem_of_lookup hheld⟩) (by simp)
    have h2 : Edits a₁ a₂ ((q :: b :: addrs g) ++ [p]) ((q :: b :: addrs g) ++ [p]) := by
      refine hE₂.frame (fun x hx => ?_) ?_
      · rcases List.mem_cons.mp hx with rfl | hx
        · exact mem_of_lookup hq₁
        · exact hg.mem x hx
      · simp only [List.disjoint_singleton, List.mem_cons, not_or]
        exact ⟨hpq, by simpa using hpb⟩
    have h3 : Edits a₂ a₃ ((p :: b :: addrs g) ++ [q]) ((p :: b :: addrs g) ++ []) := by
      refine hE₃.frame (fun x hx => ?_) ?_
      · rw [hE₂.mem]
        rcases List.mem_cons.mp hx with rfl | hx
        · exact .inl (by simp)
        · exact .inr ⟨hg.mem x hx, fun hxp => hpb (List.mem_singleton.mp hxp ▸ hx)⟩
      · simp only [List.disjoint_singleton, List.mem_cons, not_or]
        exact ⟨Ne.symm hpq, by simpa using hqb⟩
    refine ((h1.trans_of h2 ?_).trans_of h3 ?_).congr ?_ ?_
    all_goals
      intro x
      simp only [List.mem_append, List.mem_cons, List.not_mem_nil, or_false]
      try tauto
  have hg₃ : Node C a₃ b g := by
    have hsame : ∀ x ∈ b :: addrs g, a₃.cells.lookup x = a₁.cells.lookup x := by
      intro x hx
      have hxp : x ∉ [p] := fun he => hpb (List.mem_singleton.mp he ▸ hx)
      have hxq : x ∉ [q] := fun he => hqb (List.mem_singleton.mp he ▸ hx)
      rw [hE₃.keep x ((hE₂.mem x).mpr (.inr ⟨hg.mem x hx, hxp⟩)) hxq, hE₂.keep x (hg.mem x hx) hxp]
    exact ⟨hg.shell.congr (hsame b List.mem_cons_self),
      hg.held.congr _ fun x hx => hsame x (List.mem_cons_of_mem _ hx), hg.nodup, hg.wf⟩
  have hcut := (h.wf.sorted.of_cut).2.2
  have hX : addrs [(c, Item.suffix q bs w)] = [q] := by simp [addrs, Item.addrs]
  have hX' : addrs [(c, Item.child b g)] = b :: addrs g := by
    rw [addrs, addrs, Item.addrs, List.append_nil]
  have hsh : Shell C a₃ p (l₁ ++ (c, .child b g) :: l₂) := by
    refine ⟨r.2, hE₃.lookup (by simpa using hpq) hp₂, hok', ?_⟩
    rw [hent', hent, words_cut, put_cut_mem (cutAt_words hcut), words_cut]
    rfl
  obtain ⟨h1, h2⟩ := Node.splice (X := [(c, .suffix q bs w)]) (Y := [(c, .child b g)]) h
    (by rw [hX, hX']; exact hE) hsh (by rw [Held, Held, Item.Held]; exact ⟨⟨hg₃.shell, hg₃.held⟩, trivial⟩)
    (by rw [hX']; exact hg.nodup) (by rw [hX']; exact hpb)
    (wf_cut h.wf (by rw [Item.Wf]; exact ⟨hwf.1, hne, hg.wf⟩))
  exact ⟨g, h1, hs₃ (hs₂ hs₁), h2, hentg⟩

/-- Where a lookup ends after the loop. -/
def Reached.found : Reached → Found
  | .terminal q c => .terminal q c
  | .fresh q => .suffix q
  | .hit q => .suffix q

/-- The loop keeps the bindings, and binds the key when it made a suffix for it. -/
def Reached.Keeps (key : List ℕ) (val : ℕ) (l l' : List (List ℕ × ℕ)) : Reached → Prop
  | .fresh _ => Inserted key val l l'
  | _ => l' = l

/-- What the loop leaves behind at the level of `p`. -/
structure Reaches (C : M.Correct) (a : NodeAlloc M) (p : ℕ) (kids : Kids) (key : List ℕ)
    (val off fuel : ℕ) (r : Reached × NodeAlloc M) (kids' : Kids) : Prop where
  node : Node C r.2 p kids'
  sound : r.2.Sound
  edits : Edits a r.2 (p :: addrs kids) (p :: addrs kids')
  keeps : r.1.Keeps (key.drop off) val (entries kids) (entries kids')
  located : locateKey r.2 key fuel p off = .ok r.1.found

theorem Reached.Keeps.under {r : Reached} {l l' : List (List ℕ × ℕ)} (h : r.Keeps key v l l')
    (c : ℕ) (r₁ r₂ : List (List ℕ × ℕ)) :
    r.Keeps (beBytes c ++ key) v (r₁ ++ (l.map (underChunk c) ++ r₂))
      (r₁ ++ (l'.map (underChunk c) ++ r₂)) := by
  cases r with
  | fresh q => exact (Inserted.map (beBytes c ++ ·) h).append
  | terminal q d => exact congrArg (fun l => r₁ ++ (l.map (underChunk c) ++ r₂)) h
  | hit q => exact congrArg (fun l => r₁ ++ (l.map (underChunk c) ++ r₂)) h

theorem Reached.Keeps.ne_nil {r : Reached} {l l' : List (List ℕ × ℕ)} (h : r.Keeps key v l l')
    (hl : l ≠ []) : l' ≠ [] := by
  cases r with
  | fresh q => exact Inserted.ne_nil h
  | terminal q d => exact fun h' => hl (h.symm.trans h')
  | hit q => exact fun h' => hl (h.symm.trans h')

theorem reaches_child {fuel : ℕ} {r : Reached × NodeAlloc M} {g' : Kids}
    (h : Node C a p (l₁ ++ (pack CHUNK (key.drop off), .child q g) :: l₂)) (hn : NulFree key)
    (hle : CHUNK ≤ (key.drop off).length) (hr : Reaches C a q g key v (off + CHUNK) fuel r g') :
    Reaches C a p (l₁ ++ (pack CHUNK (key.drop off), .child q g) :: l₂) key v off (fuel + 1) r
      (l₁ ++ (pack CHUNK (key.drop off), .child q g') :: l₂) := by
  obtain ⟨-, hwf, -⟩ := h.item
  rw [Item.Wf] at hwf
  have hne : g' ≠ [] := by
    rintro rfl
    exact hr.keeps.ne_nil (entries_ne_nil g hwf.2.2 hwf.2.1) (by rw [entries])
  obtain ⟨h1, h2⟩ := h.replace (y := .child q g')
    (by rw [Item.addrs, Item.addrs]; exact hr.edits)
    (by rw [Item.Held]; exact ⟨hr.node.shell, hr.node.held⟩) (by rw [Item.addrs]; exact hr.node.nodup)
    (by rw [Item.Wf]; exact ⟨hwf.1, hne, hr.node.wf⟩) rfl
  refine ⟨h1, hr.sound, h2, ?_, ?_⟩
  · have hkeeps := hr.keeps.under (pack CHUNK (key.drop off)) (entries l₁) (entries l₂)
    rw [← split_key hn hle] at hkeeps
    rw [entries_cut, entries_cut, Item.entries, Item.entries]
    exact hkeeps
  · rw [locateKey_child h1 hr.sound hn hle List.mem_append_cons_self, hr.located]

theorem reachKey_spec {fuel : ℕ} (hf : Enough key off fuel) (h : Node C a p kids) (hs : a.Sound)
    (hn : NulFree key) :
    Ensures C.Total (reachKey P key v fuel a p off) fun r =>
      ∃ kids', Reaches C a p kids key v off fuel r kids' := by
  induction fuel generalizing a p kids off with
  | zero => exact absurd hf (Nat.not_lt_zero _)
  | succ fuel ih =>
    rw [reachKey]
    by_cases hlt : (key.drop off).length < CHUNK
    · rw [chunkAt_of_lt hlt]
      simp only [if_true, pure_eq_ok, ensures_ok]
      exact ⟨kids, h, hs, Edits.refl a h.mem, rfl, locateKey_terminal hlt⟩
    · have hle : CHUNK ≤ (key.drop off).length := Nat.not_lt.mp hlt
      have hlt' := pack_lt_word (hn.drop off)
      have hsplit := split_key hn hle
      obtain ⟨m, hm, hok, hent⟩ := h.shell
      rw [chunkAt_of_le hle]
      simp only [Bool.false_eq_true, if_false, shell_eq hm, ok_bind]
      rcases h.wf.cases (pack CHUNK (key.drop off)) with ⟨x, l₁, l₂, rfl, hcut⟩ | ⟨l₁, l₂, rfl, hcut, hno⟩
      · have hget : M.get m (pack CHUNK (key.drop off)) = some x.word := by
          rw [C.get_eq hok hlt', hent, lookup_words h.wf.sorted List.mem_append_cons_self]
        simp only [hget]
        cases x with
        | value w =>
          exact absurd rfl (Item.not_value_of_full h.item.2.1 (fullChunk_of_le (hn.drop off) hle) w)
        | suffix q bs w =>
          have hq := h.aligned_suffix hs
          have hheld := h.item.1
          rw [Item.Held] at hheld
          simp only [Item.word, isSuffixPtr_packSuffix hq, unpackSuffix_packSuffix hq, if_true,
            suffix_eq hheld, ok_bind]
          by_cases hb : key.drop (off + CHUNK) = bs
          · rw [if_pos hb, pure_eq_ok, ensures_ok]
            refine ⟨_, h, hs, Edits.refl a h.mem, rfl, ?_⟩
            rw [locateKey_suffix h hs hn hle List.mem_append_cons_self, if_pos hb]
            rfl
          · rw [if_neg hb]
            refine (splitSuffix_spec P hs h).bind fun r hr => ?_
            obtain ⟨b, a₁⟩ := r
            obtain ⟨g, hg, hs₁, hE₁, hentg⟩ := hr
            refine (ih (hf.next hle) hg.child hs₁).mono fun r hr => ?_
            obtain ⟨g', hr'⟩ := hr
            have hup := reaches_child hg hn hle hr'
            refine ⟨_, hup.node, hup.sound, hE₁.trans hup.edits, ?_, hup.located⟩
            have hsame : entries (l₁ ++ (pack CHUNK (key.drop off), .suffix q bs w) :: l₂) =
                entries (l₁ ++ (pack CHUNK (key.drop off), .child b g) :: l₂) := by
              rw [entries_cut, entries_cut, Item.entries, Item.entries, hentg]
              rfl
            rw [hsame]
            exact hup.keeps
        | child q g =>
          have hq := h.aligned_child hs
          simp only [Item.word, isSuffixPtr_packChild hq, Bool.false_eq_true, if_false]
          refine (ih (hf.next hle) h.child hs).mono fun r hr => ?_
          obtain ⟨g', hr'⟩ := hr
          exact ⟨_, reaches_child h hn hle hr'⟩
      · have hget : M.get m (pack CHUNK (key.drop off)) = none := by
          rw [C.get_eq hok hlt', hent, lookup_words_none h.wf.sorted hno]
        obtain ⟨s, a₁, halloc, hsl, hE₁, hfresh, hs₁⟩ :=
          alloc_spec P a (.suffix (key.drop (off + CHUNK)) v)
        have hm₁ : a₁.cells.lookup p = some (.shell m) := hE₁.lookup (by simp) hm
        have hps : p ≠ s := fun he => hfresh (he ▸ mem_of_lookup hm)
        simp only [hget, halloc]
        refine (C.ensures_insert hok hlt' (packSuffix s)).bind fun r hr => ?_
        obtain ⟨hok', hent', -⟩ := hr
        obtain ⟨a₂, hst, hp₂, hE₂, hs₂⟩ := store_spec hm₁ (.shell r.2)
        simp only [hst, ok_bind, pure_eq_ok, ensures_ok]
        have hX' : addrs [(pack CHUNK (key.drop off), Item.suffix s (key.drop (off + CHUNK)) v)] = [s] := by
          simp [addrs, Item.addrs]
        have hE : Edits a a₂ [p] (p :: [s]) := by
          have h1 : Edits a a₁ ([p] ++ []) ([p] ++ [s]) :=
            hE₁.frame (by simpa using mem_of_lookup hm) (by simp)
          have h2 : Edits a₁ a₂ ([s] ++ [p]) ([s] ++ [p]) :=
            hE₂.frame (by simpa using mem_of_lookup hsl) (by simpa using hps)
          refine (h1.trans_of h2 ?_).congr ?_ ?_
          all_goals
            intro x
            simp [or_comm]
        have hwf' : Wf (l₁ ++ (pack CHUNK (key.drop off), .suffix s (key.drop (off + CHUNK)) v) :: l₂) :=
          wf_cut_new h.wf hcut (by
            rw [Item.Wf]
            exact ⟨fullChunk_of_le (hn.drop off) hle, hn.drop _⟩)
        have hsh : Shell C a₂ p
            (l₁ ++ (pack CHUNK (key.drop off), .suffix s (key.drop (off + CHUNK)) v) :: l₂) := by
          refine ⟨r.2, hp₂, hok', ?_⟩
          rw [hent', hent, words_append, put_cut_new (cutAt_words hcut), words_cut]
          rfl
        obtain ⟨h1, h2⟩ := Node.splice (X := [])
          (Y := [(pack CHUNK (key.drop off), .suffix s (key.drop (off + CHUNK)) v)]) h
          (by rw [hX', addrs]; exact hE) hsh
          (by
            rw [Held, Held, Item.Held]
            exact ⟨hE₂.lookup (by simpa using Ne.symm hps) hsl, trivial⟩)
          (by simp [hX']) (by simpa [hX'] using hps) hwf'
        refine ⟨_, h1, hs₂ (hs₁ hs), h2, ?_, ?_⟩
        · rw [entries_append, List.singleton_append, entries_cut, Item.entries, ← hsplit]
          exact ⟨entries l₁, entries l₂, rfl, rfl⟩
        · rw [locateKey_suffix h1 (hs₂ (hs₁ hs)) hn hle List.mem_append_cons_self, if_pos rfl]
          rfl

end Expanse.StrMap
