import Mathlib.Data.List.TakeWhile
import Expanse.StrMap.Walk
import Expanse.StrMap.NeighboursSpec

/-!
# What a cursor has left

The frames below the top one all stand at child items, so the bytes above a level are the
chunks of the frames below it. What a walk has left is, from the deepest frame up, the
entries of the items past the frame's chunk. Advancing a level and descending to the first
entry below each keep that description. The bound of a prefix cursor cuts what is left where
the keys leave the prefix.
-/

namespace Expanse.StrMap

open SortedAssoc BigEndian NodeAlloc Runs

variable {M : WordMap} {C : M.Correct} {s : ExpanseStrMap M} {S : List ℕ → ℕ → ValueSlot M → Prop}
  {w w' : Walk M} {kids l l₁ l₂ g : Kids} {c v q depth : ℕ} {x : Item} {f : StrFrame} {fs : List StrFrame}
  {k key pre p t : List ℕ} {slot : ValueSlot M} {rest : List (List ℕ × ℕ)}
  {subs dead : List (ℕ × M.Cursor)} {sub : Option M.Cursor} {bounded : Bool}

/-- An entry of a level, as an entry of the map: the bytes above the level in front. -/
def under (pre : List ℕ) (e : List ℕ × ℕ) : List ℕ × ℕ := (pre ++ e.1, e.2)

theorem map_underChunk (pre : List ℕ) (r : List (List ℕ × ℕ)) :
    (r.map (underChunk c)).map (under pre) = r.map (under (pre ++ beBytes c)) := by
  rw [List.map_map]
  apply List.map_congr_left
  intro e _
  simp [under, underChunk]

/-- A level of the trie below the bytes `pre`; `S` says which slots hold the entries. -/
structure Level (C : M.Correct) (s : ExpanseStrMap M) (S : List ℕ → ℕ → ValueSlot M → Prop)
    (pre : List ℕ) (n : ℕ) (kids : Kids) : Prop where
  node : Node C s.alloc n kids
  lifts : ∀ k v slot, Slots C s.alloc n kids k v slot → S (pre ++ k) v slot

theorem Level.child {p : ℕ} (h : Level C s S pre p kids) (hx : (c, .child q g) ∈ kids) :
    Level C s S (pre ++ beBytes c) q g where
  node := by
    obtain ⟨l₁, l₂, rfl, -⟩ := exists_cut_of_mem h.node.wf.sorted hx
    exact h.node.child
  lifts k v slot hk := by
    rw [List.append_assoc]
    exact h.lifts _ v slot (.child hx hk)

/-- A level's own cursor, where it has one, stands past the frame's chunk. -/
def SubOk (C : M.Correct) (sub : Option M.Cursor) (l : Kids) : Prop := ∀ cur ∈ sub, C.At cur (words l)

/-- The entry of the cursor vector for the level at `depth`. -/
def subAt (depth : ℕ) (sub : Option M.Cursor) : List (ℕ × M.Cursor) := (sub.map (depth, ·)).toList

/-- Frames at child items, with the word-map cursors of their levels, the bytes of their chunks
and the entries that they have left. -/
inductive Opened (C : M.Correct) (s : ExpanseStrMap M) (S : List ℕ → ℕ → ValueSlot M → Prop) :
    List StrFrame → List (ℕ × M.Cursor) → List ℕ → List (List ℕ × ℕ) → Prop
  | nil : Opened C s S [] [] [] []
  | cons {f : StrFrame} {fs : List StrFrame} {subs : List (ℕ × M.Cursor)} {sub : Option M.Cursor}
      {pre : List ℕ} {rest : List (List ℕ × ℕ)} {l₁ l₂ : Kids} {x : Item} : Opened C s S fs subs pre rest →
      Level C s S pre f.node (l₁ ++ (f.chunk, x) :: l₂) → FullChunk f.chunk → f.keyLen = pre.length →
      SubOk C sub l₂ →
      Opened C s S (f :: fs) (subAt fs.length sub ++ subs) (pre ++ beBytes f.chunk)
        ((entries l₂).map (under pre) ++ rest)

theorem subOk_none : SubOk C none l := fun cur hcur => absurd hcur (Option.not_mem_none cur)

theorem Opened.push {n : ℕ} (ho : Opened C s S fs subs pre rest) (hl : Level C s S pre n (l₁ ++ (c, x) :: l₂))
    (hfull : FullChunk c) : Opened C s S (⟨n, c, pre.length, false⟩ :: fs) subs (pre ++ beBytes c)
      ((entries l₂).map (under pre) ++ rest) :=
  ho.cons (f := ⟨n, c, pre.length, false⟩) hl hfull rfl subOk_none

theorem mem_subAt {e : ℕ × M.Cursor} (h : e ∈ subAt depth sub) : e.1 = depth := by
  cases sub with
  | none => exact absurd h List.not_mem_nil
  | some cur =>
    rw [List.mem_singleton.mp h]

theorem Opened.depth_lt (h : Opened C s S fs subs pre rest) : ∀ e ∈ subs, e.1 < fs.length := by
  induction h with
  | nil => simp
  | cons _ _ _ _ _ ih =>
    intro e he
    rcases List.mem_append.mp he with he | he
    · rw [mem_subAt he]
      exact Nat.lt_succ_self _
    · exact Nat.lt_succ_of_lt (ih e he)

theorem Opened.length (h : Opened C s S fs subs pre rest) : pre.length = CHUNK * fs.length := by
  induction h with
  | nil => rfl
  | cons _ _ _ _ _ ih => rw [List.length_append, ih, length_beBytes, List.length_cons, Nat.mul_succ]

theorem dropDeeper_spec (hd : ∀ e ∈ dead, depth < e.1) (hs : ∀ e ∈ subs, e.1 ≤ depth)
    (spare : List (ℕ × M.Cursor)) :
    ∃ spare', Walk.dropDeeper depth (dead ++ subs) spare = (subs, spare') := by
  induction dead generalizing spare with
  | nil =>
    cases subs with
    | nil => exact ⟨spare, rfl⟩
    | cons e subs =>
      refine ⟨spare, ?_⟩
      rw [List.nil_append, Walk.dropDeeper, if_neg (Nat.not_lt.mpr (hs e List.mem_cons_self))]
  | cons e dead ih =>
    rw [List.cons_append, Walk.dropDeeper, if_pos (hd e List.mem_cons_self)]
    exact ih (fun e' he' => hd e' (List.mem_cons_of_mem _ he')) _

theorem words_tail (l : Kids) : (words l).tail = words l.tail := by
  rw [words, words, List.map_tail]

/-- The sibling of a popped frame is the next item of its level, and the level's cursor, old or
new, then stands past that item. -/
theorem sibling_spec (hl : Level C s S pre f.node (l₁ ++ (f.chunk, x) :: l₂)) (hsub : SubOk C sub l₂)
    (hd : ∀ e ∈ dead, w.stack.length < e.1) (hs : ∀ e ∈ subs, e.1 < w.stack.length)
    (hw : w.subs = dead ++ (subAt w.stack.length sub ++ subs)) :
    ∃ sub' spare', w.sibling s f = .ok ((words l₂).head?,
      { w with subs := subAt w.stack.length sub' ++ subs, spare := spare' }) ∧ SubOk C sub' l₂.tail := by
  have hle : ∀ e ∈ subAt w.stack.length sub ++ subs, e.1 ≤ w.stack.length := by
    intro e he
    rcases List.mem_append.mp he with he | he
    · exact (mem_subAt he).le
    · exact (hs e he).le
  obtain ⟨spare', hdrop⟩ := dropDeeper_spec hd hle w.spare
  rw [Walk.sibling, hw, hdrop]
  simp only
  cases sub with
  | some cur =>
    -- the level has a cursor
    obtain ⟨cur', hnext, hat⟩ := C.next_ok (hsub cur rfl)
    refine ⟨some cur', spare', ?_, ?_⟩
    · simp only [subAt, Option.map_some, Option.toList_some, List.singleton_append, Walk.liveAt, if_true,
        hnext, ok_bind]
      rfl
    · rintro _ ⟨⟩
      rwa [words_tail] at hat
  | none =>
    obtain ⟨m, hm, hok, hent⟩ := hl.node.shell
    have hcut := (KeySorted.of_cut hl.node.wf.sorted).2.2
    have hX : ∀ e ∈ [(f.chunk, x)], e.1 = f.chunk := by simp
    have hnext := nextAfter_cut (X := [(f.chunk, x)]) hok hent hcut hX
    have hlive : ({ w with subs := subs, spare := spare' } : Walk M).liveAt w.stack.length = none := by
      unfold Walk.liveAt
      cases subs with
      | nil => rfl
      | cons e subs => exact if_neg (hs e List.mem_cons_self).ne
    simp only [subAt, Option.map_none, Option.toList_none, List.nil_append, hlive, shell_eq hm, ok_bind]
    split_ifs with hfirst hmax
    · refine ⟨none, spare', ?_, subOk_none⟩
      rw [hnext]
      rfl
    · -- the level gets a cursor of its own
      have hchunk : ((C.entries m).filter fun e => f.chunk + 1 ≤ e.1) = words l₂ := by
        rw [hent, words_append]
        exact filter_keep_right (r := words [(f.chunk, x)])
          (fun e he => by simpa using ((cutAt_words hcut).below e he).le)
          (fun e he => by simpa using (cutAt_words hcut).above e he) |>.trans
          (by simp [words])
      obtain ⟨cur₀, hreset, hat₀⟩ := C.reset_ok
        ({ w with subs := subs, spare := spare' } : Walk M).freeSlot.1 hok hmax
      rw [hchunk] at hat₀
      obtain ⟨cur₁, hnext₁, hat₁⟩ := C.next_ok hat₀
      refine ⟨some cur₁, ({ w with subs := subs, spare := spare' } : Walk M).freeSlot.2, ?_, ?_⟩
      · simp only [hreset, ok_bind, hnext₁]
        rfl
      · rintro _ ⟨⟩
        rwa [words_tail] at hat₁
    · -- no word is above the largest one
      refine ⟨none, spare', ?_, subOk_none⟩
      rw [WordMap.nextAfter, if_neg hmax] at hnext
      rw [show (words l₂).head? = none from hnext.symm]
      rfl

/-- A cursor may emit `k`: always, or where it is bounded if `k` starts with the prefix. -/
def Allowed (bounded : Bool) (p k : List ℕ) : Prop := bounded = true → p <+: k

instance (bounded : Bool) (p k : List ℕ) : Decidable (Allowed bounded p k) :=
  inferInstanceAs (Decidable (bounded = true → p <+: k))

/-- The bound of the walk is that of the prefix `p`: its last chunk, masked, at its depth. -/
structure Bounds (p : List ℕ) (w : Walk M) : Prop where
  depth : w.boundDepth = p.length / CHUNK
  inside : ∀ k, NulFree k → (pack CHUNK k &&& w.boundMask = w.boundWant ↔
    p.drop (CHUNK * (p.length / CHUNK)) <+: k)

/-- Two keys under one prefix have the same chunk at every level whose chunk the prefix fills. -/
theorem pack_eq_of_start (ht : p <+: pre ++ t) (hk : p <+: pre ++ k) (hlen : pre.length + CHUNK ≤ p.length) :
    pack CHUNK t = pack CHUNK k := by
  obtain ⟨r, rfl⟩ : pre <+: p := List.prefix_of_prefix_length_le (List.prefix_append _ _) ht (by omega)
  rw [List.prefix_append_right_inj] at ht hk
  have hr : CHUNK ≤ r.length := by
    rw [List.length_append] at hlen
    omega
  rw [← pack_take CHUNK t, ← pack_take CHUNK k]
  obtain ⟨t', rfl⟩ := ht
  obtain ⟨k', rfl⟩ := hk
  rw [List.take_append_of_le_length hr, List.take_append_of_le_length hr]

theorem chunk_lt_of_mem (hw : Wf (l₁ ++ (c, x) :: l₂)) {e : List ℕ × ℕ} (he : e ∈ entries l₂) :
    NulFree e.1 ∧ c < pack CHUNK e.1 := by
  have hcut := (KeySorted.of_cut hw.sorted).2.2
  rw [entries_eq] at he
  obtain ⟨⟨d, y⟩, hy, he⟩ := List.mem_flatMap.mp he
  obtain ⟨hnul, hpack⟩ := Item.nulFree_of_mem d y ((wf_iff.mp hw).2 (d, y) (by simp [hy])) he
  exact ⟨hnul, by rw [hpack]; exact hcut.above _ hy⟩

/-- Nothing past a chunk that the prefix fills is under the prefix. -/
theorem Opened.not_starts (h : Opened C s S fs subs pre rest) (hp : p <+: pre ++ t)
    (hlen : CHUNK * fs.length ≤ p.length) : ∀ e ∈ rest, ¬ p <+: e.1 := by
  induction h generalizing t with
  | nil => simp
  | @cons f fs subs sub pre rest l₁ l₂ x ho hl hfull _ _ ih =>
    rw [List.append_assoc] at hp
    rw [List.length_cons, Nat.mul_succ] at hlen
    intro e he
    rcases List.mem_append.mp he with he | he
    · obtain ⟨e', he', rfl⟩ := List.mem_map.mp he
      intro hpe
      have heq := pack_eq_of_start hp hpe (by rw [ho.length]; exact hlen)
      rw [hfull.pack_append] at heq
      exact absurd heq (chunk_lt_of_mem hl.node.wf he').2.ne
    · exact ih hp (by omega) e he

/-- For a key past the chunk of the level, the check decides whether it is under the prefix. -/
theorem pastBound_iff (hB : bounded = true → Bounds p w ∧ pack CHUNK t ≠ pack CHUNK k ∧ p <+: pre ++ t)
    (hpre : pre.length = CHUNK * depth) (hk : NulFree k) :
    w.pastBound bounded depth (pack CHUNK k) = true ↔ ¬ Allowed bounded p (pre ++ k) := by
  cases bounded with
  | false => simp [Walk.pastBound, Allowed]
  | true =>
    obtain ⟨hb, hne, ht⟩ := hB rfl
    have hC : 0 < CHUNK := by decide
    have hdiv := Nat.div_add_mod p.length CHUNK
    have hmod := Nat.mod_lt p.length hC
    simp only [Walk.pastBound, Allowed, Bool.true_and, forall_const]
    rcases Nat.lt_trichotomy depth w.boundDepth with hlt | heq | hgt
    · -- the prefix fills the chunk of the level
      have hfill : pre.length + CHUNK ≤ p.length := by
        have : CHUNK * (depth + 1) ≤ CHUNK * w.boundDepth := Nat.mul_le_mul_left CHUNK hlt
        rw [hb.depth, Nat.mul_succ] at this
        omega
      simpa [hlt, hlt.le] using fun hpk => hne (pack_eq_of_start ht hpk hfill)
    · have hdep : depth = p.length / CHUNK := heq.trans hb.depth
      obtain ⟨r, rfl⟩ : pre <+: p :=
        List.prefix_of_prefix_length_le (List.prefix_append _ _) ht (by rw [hpre, hdep]; omega)
      have hr : (pre ++ r).drop (CHUNK * ((pre ++ r).length / CHUNK)) = r := by
        rw [← hdep, ← hpre, List.drop_left]
      rw [List.prefix_append_right_inj, ← hr, ← hb.inside k hk]
      simp [heq]
    · -- the prefix ends above the level
      have hle : p.length ≤ pre.length := by
        have : CHUNK * (w.boundDepth + 1) ≤ CHUNK * depth := Nat.mul_le_mul_left CHUNK hgt
        rw [hb.depth, Nat.mul_succ] at this
        omega
      have hpk : p <+: pre ++ k :=
        (List.prefix_of_prefix_length_le ht (List.prefix_append pre t) hle).trans (List.prefix_append pre k)
      simp [hpk, Nat.not_le.mpr hgt]

/-- The check at the next item of a level is about the first entry below it. -/
theorem pastBound_head {node c' : ℕ} {x' : Item} {l₃ : Kids} (w : Walk M) (rest : List (List ℕ × ℕ))
    (hl : Level C s S pre node (l₁ ++ (c, x) :: (c', x') :: l₃)) (hpre : pre.length = CHUNK * depth)
    (hB : bounded = true → Bounds p w ∧ pack CHUNK t = c ∧ p <+: pre ++ t) :
    ∀ e ∈ ((entries ((c', x') :: l₃)).map (under pre) ++ rest).head?,
      (w.pastBound bounded depth c' = true ↔ ¬ Allowed bounded p e.1) := by
  have hx' : x'.Wf c' := (wf_iff.mp hl.node.wf).2 (c', x') (by simp)
  obtain ⟨⟨k', v'⟩, hk'⟩ : ∃ e, (x'.entries c').head? = some e :=
    ⟨_, List.head?_eq_some_head (Item.entries_ne_nil c' x' hx')⟩
  obtain ⟨hnul, hpack'⟩ := Item.nulFree_of_mem c' x' hx' (List.mem_of_head? hk')
  have hlt : c < c' := (KeySorted.of_cut hl.node.wf.sorted).2.2.above (c', x') List.mem_cons_self
  rw [entries, List.map_append, List.append_assoc, List.head?_append, List.head?_map, hk']
  rintro _ ⟨⟩
  rw [← hpack']
  exact pastBound_iff (fun hb => ⟨(hB hb).1, by rw [(hB hb).2.1, hpack']; exact hlt.ne, (hB hb).2.2⟩) hpre hnul

/-- The fields that the steps of a walk leave alone. -/
def Walk.flags (w : Walk M) : Bool × Bool × Option (ValueSlot M) × ℕ × ℕ × ℕ :=
  (w.done, w.started, w.pending, w.boundDepth, w.boundMask, w.boundWant)

theorem Bounds.congr (h : Bounds p w) (hf : w'.flags = w.flags) : Bounds p w' := by
  simp only [Walk.flags, Prod.mk.injEq] at hf
  obtain ⟨-, -, -, h₁, h₂, h₃⟩ := hf
  exact ⟨by rw [h₁, h.depth], by rw [h₂, h₃]; exact h.inside⟩

/-- A walk after an unwinding: nothing left may be emitted, or the sibling found leads to
the first entry that is left. -/
def Resumes (C : M.Correct) (s : ExpanseStrMap M) (S : List ℕ → ℕ → ValueSlot M → Prop) (bounded : Bool)
    (p : List ℕ) (w : Walk M) (left : List (List ℕ × ℕ)) :
    Option (StrFrame × ℕ × ℕ) × Walk M → Prop
  | (none, _) => ∀ e ∈ left.head?, ¬ Allowed bounded p e.1
  | (some (f, c, v), w') => ∃ subs sub l₁ x l₂ rest, v = x.word ∧
      w'.subs = subAt w'.stack.length sub ++ subs ∧ SubOk C sub l₂ ∧
      Opened C s S w'.stack subs w'.key rest ∧ Level C s S w'.key f.node (l₁ ++ (c, x) :: l₂) ∧
      left = (entries ((c, x) :: l₂)).map (under w'.key) ++ rest ∧
      (∀ e ∈ left.head?, Allowed bounded p e.1) ∧ w'.flags = w.flags

theorem unwindTo_level (dead : List (ℕ × M.Cursor)) (ho : Opened C s S fs subs pre rest)
    (hl : Level C s S pre f.node (l₁ ++ (f.chunk, x) :: l₂)) (hlen : f.keyLen = pre.length)
    (hsub : SubOk C sub l₂) (hw : w.subs = dead ++ (subAt fs.length sub ++ subs))
    (hd : ∀ e ∈ dead, fs.length < e.1) (hkey : pre <+: w.key)
    (hB : bounded = true → Bounds p w ∧ pack CHUNK t = f.chunk ∧ p <+: pre ++ t) :
    (∃ r, Walk.unwindTo s bounded (f :: fs) w = .ok r ∧
      Resumes C s S bounded p w ((entries l₂).map (under pre) ++ rest) r) ∨
    l₂ = [] ∧ ∃ w' dead', Walk.unwindTo s bounded (f :: fs) w = Walk.unwindTo s bounded fs w' ∧
      w'.subs = dead' ++ subs ∧ (∀ e ∈ dead', fs.length ≤ e.1) ∧ w'.key = pre ∧ w'.flags = w.flags := by
  have hpre := ho.length
  rw [Walk.unwindTo]
  by_cases hshallow : bounded = true ∧ fs.length < w.boundDepth
  · -- a level above the bound: the prefix fills its chunk
    obtain ⟨hb, hlt⟩ := hshallow
    obtain ⟨hbounds, hpack, hp⟩ := hB hb
    left
    refine ⟨_, if_pos ⟨hb, hlt⟩, ?_⟩
    have hfill : CHUNK * fs.length + CHUNK ≤ p.length := by
      have h₁ : CHUNK * (fs.length + 1) ≤ CHUNK * w.boundDepth := Nat.mul_le_mul_left CHUNK hlt
      have h₂ := Nat.mul_div_le p.length CHUNK
      rw [hbounds.depth, Nat.mul_succ] at h₁
      omega
    intro e he hall
    rcases List.mem_append.mp (List.mem_of_head? he) with he | he
    · obtain ⟨e', he', rfl⟩ := List.mem_map.mp he
      have heq := pack_eq_of_start hp (hall hb) (by rw [hpre]; exact hfill)
      exact absurd (hpack.symm.trans heq) (chunk_lt_of_mem hl.node.wf he').2.ne
    · exact ho.not_starts hp (by omega) e he (hall hb)
  · rw [if_neg hshallow]
    have htake : w.key.take f.keyLen = pre := by
      obtain ⟨t', ht'⟩ := hkey
      rw [← ht', hlen, List.take_left]
    obtain ⟨sub', spare', hsib, hsub'⟩ := sibling_spec
      (w := ({ w with stack := fs } : Walk M).truncate f.keyLen) hl hsub hd ho.depth_lt hw
    rw [hsib, ok_bind]
    simp only
    cases l₂ with
    | nil =>
      right
      refine ⟨rfl, _, subAt fs.length sub', rfl, rfl, fun e he => (mem_subAt he).ge, htake, rfl⟩
    | cons e l₃ =>
      obtain ⟨c', x'⟩ := e
      left
      simp only [words, List.map_cons, List.head?_cons]
      have hhead := pastBound_head w rest hl hpre hB
      by_cases hpast : w.pastBound bounded fs.length c' = true
      · exact ⟨_, if_pos hpast, fun e he => (hhead e he).mp hpast⟩
      · refine ⟨_, if_neg hpast, ?_⟩
        refine ⟨subs, sub', l₁ ++ [(f.chunk, x)], x', l₃, rest, rfl, rfl, hsub', ?_, ?_, ?_, ?_, rfl⟩
        · show Opened C s S fs subs (w.key.take f.keyLen) rest
          rw [htake]
          exact ho
        · show Level C s S (w.key.take f.keyLen) f.node _
          rw [htake, List.append_assoc]
          exact hl
        · show _ = (entries ((c', x') :: l₃)).map (under (w.key.take f.keyLen)) ++ rest
          rw [htake]
        · exact fun e he => not_not.mp fun hna => hpast ((hhead e he).mpr hna)

theorem unwindTo_spec (bounded : Bool) (dead : List (ℕ × M.Cursor)) (ho : Opened C s S fs subs pre rest)
    (hw : w.subs = dead ++ subs) (hd : ∀ e ∈ dead, fs.length ≤ e.1) (hkey : pre <+: w.key)
    (hB : bounded = true → Bounds p w ∧ p <+: pre ++ t) :
    ∃ r, Walk.unwindTo s bounded fs w = .ok r ∧ Resumes C s S bounded p w rest r := by
  induction ho generalizing w dead t with
  | nil => exact ⟨_, rfl, by simp [Resumes]⟩
  | @cons f fs subs sub pre rest l₁ l₂ x ho hl hfull hlen hsub ih =>
    rw [List.append_assoc] at hB
    rcases unwindTo_level dead (t := beBytes f.chunk ++ t) ho hl hlen hsub hw hd
        ((List.prefix_append _ _).trans hkey)
        (fun hb => ⟨(hB hb).1, hfull.pack_append t, (hB hb).2⟩) with
      h | ⟨rfl, w', dead', heq, hw', hd', hkey', hflags⟩
    · exact h
    · obtain ⟨r, hr, hres⟩ := ih dead' (t := beBytes f.chunk ++ t) hw' hd' (by rw [hkey'])
        (fun hb => ⟨(hB hb).1.congr hflags, (hB hb).2⟩)
      refine ⟨r, heq.trans hr, ?_⟩
      rw [entries, List.map_nil, List.nil_append]
      obtain ⟨_ | ⟨f', c', v'⟩, w''⟩ := r
      · exact hres
      · obtain ⟨subs', sub', l₁', x', l₂', rest', h₁, h₂, h₃, h₄, h₅, h₆, h₇, h₈⟩ := hres
        exact ⟨subs', sub', l₁', x', l₂', rest', h₁, h₂, h₃, h₄, h₅, h₆, h₇, h₈.trans hflags⟩

/-- The stack of the walk is `f`, at the item `x`, over frames at child items. -/
structure Topped (C : M.Correct) (s : ExpanseStrMap M) (S : List ℕ → ℕ → ValueSlot M → Prop)
    (w : Walk M) (pre : List ℕ) (f : StrFrame) (fs : List StrFrame) (l₁ : Kids) (x : Item) (l₂ : Kids)
    (rest : List (List ℕ × ℕ)) : Prop where
  stack : w.stack = f :: fs
  subs : ∃ sub subs, w.subs = subAt fs.length sub ++ subs ∧ SubOk C sub l₂ ∧ Opened C s S fs subs pre rest
  level : Level C s S pre f.node (l₁ ++ (f.chunk, x) :: l₂)
  keyLen : f.keyLen = pre.length

/-- The walk stands at the entry it emitted last, its key, and has `left` to emit. -/
def Standing (C : M.Correct) (s : ExpanseStrMap M) (S : List ℕ → ℕ → ValueSlot M → Prop) (w : Walk M)
    (left : List (List ℕ × ℕ)) : Prop :=
  ∃ pre f fs l₁ x l₂ rest t, Topped C s S w pre f fs l₁ x l₂ rest ∧ w.key = pre ++ t ∧
    pack CHUNK t = f.chunk ∧ left = (entries l₂).map (under pre) ++ rest

theorem Topped.congr (h : Topped C s S w pre f fs l₁ x l₂ rest) (hs : w'.stack = w.stack)
    (hb : w'.subs = w.subs) : Topped C s S w' pre f fs l₁ x l₂ rest :=
  ⟨by rw [hs, h.stack], by rw [hb]; exact h.subs, h.level, h.keyLen⟩

theorem Standing.congr {left : List (List ℕ × ℕ)} (h : Standing C s S w left) (hs : w'.stack = w.stack)
    (hb : w'.subs = w.subs) (hk : w'.key = w.key) : Standing C s S w' left := by
  obtain ⟨pre, f, fs, l₁, x, l₂, rest, t, htop, hkey, ht⟩ := h
  exact ⟨pre, f, fs, l₁, x, l₂, rest, t, htop.congr hs hb, hk.trans hkey, ht⟩

theorem Topped.mem (h : Topped C s S w pre f fs l₁ x l₂ rest) :
    (f.chunk, x) ∈ l₁ ++ (f.chunk, x) :: l₂ ∧ x.Wf f.chunk :=
  ⟨by simp, (wf_iff.mp h.level.node.wf).2 (f.chunk, x) (by simp)⟩

/-- A walk whose descent has come to the first entry of the top item. -/
theorem Topped.standing (h : Topped C s S w w.key f fs l₁ x l₂ rest) (hx : x.entries f.chunk = [(k, v)]) :
    Standing C s S { w with key := w.key ++ k } ((entries l₂).map (under w.key) ++ rest) ∧
      (w.key ++ k, v) :: ((entries l₂).map (under w.key) ++ rest) =
        (entries ((f.chunk, x) :: l₂)).map (under w.key) ++ rest := by
  have hpack := Item.pack_of_mem h.mem.2 (show (k, v) ∈ x.entries f.chunk by rw [hx]; simp)
  refine ⟨⟨w.key, f, fs, l₁, x, l₂, rest, k, h.congr rfl rfl, rfl, hpack, rfl⟩, ?_⟩
  rw [entries, hx]
  rfl

theorem finishDescent_spec {fuel : ℕ} (bounded : Bool) (h : Topped C s S w w.key f fs l₁ x l₂ rest)
    (hs : s.alloc.Sound) (hf : x.addrs.length < fuel) :
    ∃ slot v left w', Walk.finishDescent s bounded fuel w f.node f.chunk x.word = .ok (some slot, w') ∧
      Standing C s S w' left ∧ S w'.key v slot ∧
      (w'.key, v) :: left = (entries ((f.chunk, x) :: l₂)).map (under w.key) ++ rest ∧
      w'.flags = w.flags := by
  induction fuel generalizing w f fs l₁ x l₂ rest with
  | zero => exact absurd hf (Nat.not_lt_zero _)
  | succ fuel ih =>
    obtain ⟨hx, hw⟩ := h.mem
    rw [Walk.finishDescent]
    cases x with
    | value v =>
      rw [Item.Wf] at hw
      obtain ⟨m, sl, hm, hsl⟩ := h.level.node.value_slot hx
      rw [if_pos hw.isTerminal, shell_eq hm, ok_bind, hsl, pushTerminal_eq _ hw]
      obtain ⟨hst, hleft⟩ := h.standing (by rw [Item.entries])
      exact ⟨_, v, _, _, rfl, hst, h.level.lifts _ v _ (.value hx hm hsl), hleft, rfl⟩
    | suffix q bs v =>
      rw [Item.Wf] at hw
      have hheld := h.level.node.item.1
      rw [Item.Held] at hheld
      have hal := h.level.node.aligned_suffix hs
      rw [if_neg (by rw [hw.1.not_isTerminal]; simp), Item.word, if_pos (isSuffixPtr_packSuffix hal),
        unpackSuffix_packSuffix hal, suffix_eq hheld, ok_bind]
      simp only [List.append_assoc]
      obtain ⟨hst, hleft⟩ := h.standing (by rw [Item.entries])
      exact ⟨_, v, _, _, rfl, hst, h.level.lifts _ v _ (.suffix hx), hleft, rfl⟩
    | child q g =>
      rw [Item.Wf] at hw
      have hal := h.level.node.aligned_child hs
      have hlevel := h.level.child hx
      obtain ⟨m, hm, hok, hent⟩ := hlevel.node.shell
      obtain ⟨hfull, hne, -⟩ := hw
      obtain ⟨⟨c', x'⟩, l', rfl⟩ := List.exists_cons_of_ne_nil hne
      obtain ⟨sub, subs, hsubs, hsub, ho⟩ := h.subs
      rw [if_neg (by rw [hfull.not_isTerminal]; simp), Item.word,
        if_neg (by rw [isSuffixPtr_packChild hal]; simp)]
      -- the frame of the child stands at its first item
      have htop : Topped C s S
          (({ w with key := w.key ++ beBytes f.chunk } : Walk M).pushFrame q c'
            (w.key ++ beBytes f.chunk).length false) (w.key ++ beBytes f.chunk)
          ⟨q, c', (w.key ++ beBytes f.chunk).length, false⟩ (f :: fs) [] x' l'
          ((entries l₂).map (under w.key) ++ rest) :=
        ⟨by simp only [Walk.pushFrame, h.stack],
          ⟨none, _, hsubs, subOk_none,
            ho.cons h.level hfull h.keyLen hsub⟩, hlevel, rfl⟩
      obtain ⟨slot, v, left, w', hfin, hst, hS, hleft, hflags⟩ := ih htop (by
        rw [Item.addrs, addrs] at hf
        simp only [List.length_cons, List.length_append] at hf
        omega)
      have hfirst : M.first m = some (c', x'.word) := by
        rw [C.first_eq hok, hent]
        rfl
      refine ⟨slot, v, left, w', ?_, hst, hS, ?_, hflags⟩
      · show (s.alloc.shell q >>= _) = _
        rw [shell_eq hm, ok_bind, hfirst]
        exact hfin
      · rw [hleft]
        conv_rhs => rw [entries, Item.entries, List.map_append, map_underChunk, List.append_assoc]
        rfl

/-- A call that hands out the first entry of `left`, or ends the walk where that entry is
missing or not allowed. -/
def Yields (C : M.Correct) (s : ExpanseStrMap M) (S : List ℕ → ℕ → ValueSlot M → Prop) (bounded : Bool)
    (p : List ℕ) (w : Walk M) (left : List (List ℕ × ℕ)) : Walk.Emitted M → Prop
  | (none, w') => (∀ e ∈ left.head?, ¬ Allowed bounded p e.1) ∧ w'.done = true
  | (some (k, slot), w') => ∃ v left', left = (k, v) :: left' ∧ Allowed bounded p k ∧ S k v slot ∧
      w'.key = k ∧ Standing C s S w' left' ∧ w'.flags = w.flags

theorem Level.visits {n : ℕ} (h : Level C s S pre n kids) (hx : (c, x) ∈ kids) :
    x.addrs.length < visits s.alloc := by
  have hv := h.node.visits
  obtain ⟨l₁, l₂, rfl⟩ := List.append_of_mem hx
  rw [addrs_cut] at hv
  simp only [List.length_append] at hv
  omega

theorem emit_yields {fuel : ℕ} {left : List (List ℕ × ℕ)} (bounded : Bool) (w₀ : Walk M)
    (h : Topped C s S w w.key f fs l₁ x l₂ rest) (hs : s.alloc.Sound) (hf : visits s.alloc ≤ fuel)
    (hleft : left = (entries ((f.chunk, x) :: l₂)).map (under w.key) ++ rest)
    (hall : ∀ e ∈ left.head?, Allowed bounded p e.1) (hflags : w.flags = w₀.flags) :
    ∃ r, (Walk.finishDescent s bounded fuel w f.node f.chunk x.word >>= fun r => pure (Walk.emit r)) = .ok r ∧
      Yields C s S bounded p w₀ left r := by
  obtain ⟨slot, v, left', w', hfin, hst, hS, hleft', hflags'⟩ :=
    finishDescent_spec bounded h hs ((h.level.visits h.mem.1).trans_le hf)
  refine ⟨(some (w'.key, slot), w'), by rw [hfin, ok_bind]; rfl, v, left', by rw [hleft, hleft'], ?_, hS,
    rfl, hst, hflags'.trans hflags⟩
  apply hall (w'.key, v)
  rw [hleft, ← hleft']
  rfl

theorem unwound_yields {stack : List StrFrame} {left : List (List ℕ × ℕ)}
    {r : Option (StrFrame × ℕ × ℕ) × Walk M} (w₀ : Walk M) (hs : s.alloc.Sound)
    (hr : Walk.unwindTo s bounded stack w = .ok r) (hres : Resumes C s S bounded p w left r)
    (hflags : w.flags = w₀.flags) :
    ∃ r, Walk.unwound s bounded (visits s.alloc + 1) stack w = .ok r ∧ Yields C s S bounded p w₀ left r := by
  rw [Walk.unwound, hr, ok_bind]
  obtain ⟨_ | ⟨f, c, v⟩, w'⟩ := r
  · exact ⟨_, rfl, hres, rfl⟩
  · obtain ⟨subs, sub, l₁, x, l₂, rest, rfl, hsubs, hsub, ho, hl, hleft, hall, hflags'⟩ := hres
    have htop : Topped C s S (w'.pushFrame f.node c w'.key.length true)
        (w'.pushFrame f.node c w'.key.length true).key ⟨f.node, c, w'.key.length, true⟩ w'.stack l₁ x l₂
        rest := ⟨rfl, ⟨sub, subs, hsubs, hsub, ho⟩, hl, rfl⟩
    exact emit_yields bounded w₀ htop hs le_rfl hleft hall (hflags'.trans hflags)

section Turns

variable {fuel : ℕ} {cur cur' : M.Cursor} {entry : Option (ℕ × ℕ)} (hdone : w.done = false)
  (hstarted : w.started = true) (hpending : w.pending = none) (hst : w.stack = f :: fs)
include hdone hstarted hpending hst

theorem nextFrom_unwinds (hlive : w.liveAt fs.length = none) :
    Walk.nextFrom s bounded (fuel + 1) w = Walk.unwound s bounded fuel (f :: fs) w := by
  rw [Walk.nextFrom]
  simp only [hdone, hpending, hstarted, hst, Bool.false_eq_true, if_false, Bool.true_eq_false,
    List.length_cons, Nat.add_sub_cancel, hlive]

variable (hlive : w.liveAt fs.length = some (cur, subs))
include hlive

theorem nextFrom_exhausted (hnext : M.cursorNext cur = .ok (none, cur')) :
    Walk.nextFrom s bounded (fuel + 1) w = Walk.unwound s bounded fuel fs
      (({ w with subs := (fs.length, cur') :: subs } : Walk M).truncate f.keyLen) := by
  rw [Walk.nextFrom]
  simp only [hdone, hpending, hstarted, hst, Bool.false_eq_true, if_false, Bool.true_eq_false,
    List.length_cons, Nat.add_sub_cancel, hlive, hnext, ok_bind]

theorem nextFrom_streams (hnext : M.cursorNext cur = .ok (some (c, v), cur')) :
    Walk.nextFrom s bounded (fuel + 1) w =
      if w.pastBound bounded fs.length c then
        .ok (none, { w with subs := (fs.length, cur') :: subs, done := true })
      else Walk.finishDescent s bounded fuel
        (({ w with subs := (fs.length, cur') :: subs, stack := { f with chunk := c } :: fs } : Walk M).truncate
          f.keyLen) f.node c v >>= fun r => pure (Walk.emit r) := by
  rw [Walk.nextFrom]
  simp only [hdone, hpending, hstarted, hst, Bool.false_eq_true, if_false, Bool.true_eq_false,
    List.length_cons, Nat.add_sub_cancel, hlive, hnext, ok_bind]
  rfl

end Turns

theorem next_standing {left : List (List ℕ × ℕ)} (h : Standing C s S w left) (hs : s.alloc.Sound)
    (hdone : w.done = false) (hstarted : w.started = true) (hpending : w.pending = none)
    (hB : bounded = true → Bounds p w ∧ p <+: w.key) :
    ∃ r, w.next s bounded = .ok r ∧ Yields C s S bounded p w left r := by
  obtain ⟨pre, f, fs, l₁, x, l₂, rest, t, htop, hkey, ht, rfl⟩ := h
  obtain ⟨sub, subs, hsubs, hsub, ho⟩ := htop.subs
  have hB' : bounded = true → Bounds p w ∧ pack CHUNK t = f.chunk ∧ p <+: pre ++ t :=
    fun hb => ⟨(hB hb).1, ht, hkey ▸ (hB hb).2⟩
  rw [Walk.next]
  cases sub with
  | none =>
    -- the top level is advanced by its word map, or by a new cursor
    have hlive : w.liveAt fs.length = none := by
      rw [Walk.liveAt, hsubs]
      cases subs with
      | nil => rfl
      | cons e subs => exact if_neg (ho.depth_lt e List.mem_cons_self).ne
    rw [nextFrom_unwinds hdone hstarted hpending htop.stack hlive]
    rcases unwindTo_level [] ho htop.level htop.keyLen hsub hsubs (by simp)
        (by rw [hkey]; exact List.prefix_append _ _) hB' with
      ⟨r, hr, hres⟩ | ⟨rfl, w', dead', heq, hw', hd', hkey', hflags⟩
    · exact unwound_yields w hs hr hres rfl
    · obtain ⟨r, hr, hres⟩ := unwindTo_spec bounded dead' ho hw' hd' (by rw [hkey'])
        (fun hb => ⟨(hB hb).1.congr hflags, (hB' hb).2.2⟩)
      rw [entries, List.map_nil, List.nil_append]
      obtain ⟨r', hr', hy⟩ := unwound_yields w hs hr hres hflags
      refine ⟨r', ?_, hy⟩
      rw [← hr', Walk.unwound, Walk.unwound, heq]
  | some cur =>
    -- the top level streams from its cursor
    obtain ⟨cur', hnext, hat⟩ := C.next_ok (hsub cur rfl)
    have hlive : w.liveAt fs.length = some (cur, subs) := by
      rw [Walk.liveAt, hsubs]
      exact if_pos rfl
    rw [words_tail] at hat
    have htake : w.key.take f.keyLen = pre := by rw [hkey, htop.keyLen, List.take_left]
    cases l₂ with
    | nil =>
      obtain ⟨r, hr, hres⟩ := unwindTo_spec bounded [(fs.length, cur')] (t := t) (p := p)
        (w := ({ w with subs := (fs.length, cur') :: subs } : Walk M).truncate f.keyLen) ho rfl (by simp) (by
          show pre <+: w.key.take f.keyLen
          rw [htake]) (fun hb => ⟨(hB hb).1.congr rfl, (hB' hb).2.2⟩)
      rw [entries, List.map_nil, List.nil_append,
        nextFrom_exhausted hdone hstarted hpending htop.stack hlive hnext]
      exact unwound_yields w hs hr hres rfl
    | cons e l₃ =>
      obtain ⟨c', x'⟩ := e
      rw [nextFrom_streams hdone hstarted hpending htop.stack hlive hnext]
      have hhead := pastBound_head w rest htop.level ho.length hB'
      by_cases hpast : w.pastBound bounded fs.length c' = true
      · exact ⟨_, if_pos hpast, fun e he => (hhead e he).mp hpast, rfl⟩
      · have htop' : Topped C s S
            (({ w with subs := (fs.length, cur') :: subs, stack := { f with chunk := c' } :: fs } :
              Walk M).truncate f.keyLen) (w.key.take f.keyLen) { f with chunk := c' } fs
            (l₁ ++ [(f.chunk, x)]) x' l₃ rest := by
          rw [htake]
          refine ⟨rfl, ⟨some cur', subs, rfl, ?_, ho⟩, ?_, htop.keyLen⟩
          · rintro _ ⟨⟩
            exact hat
          · rw [List.append_assoc]
            exact htop.level
        rw [if_neg hpast]
        refine emit_yields bounded w htop' hs (Nat.le_succ _) ?_ ?_ rfl
        · show _ = (entries ((c', x') :: l₃)).map (under (w.key.take f.keyLen)) ++ rest
          rw [htake]
        · exact fun e he => not_not.mp fun hna => hpast ((hhead e he).mpr hna)

/-- A seek comes to the first entry of `left`, or ends the walk where there is none. -/
def Seeks (C : M.Correct) (s : ExpanseStrMap M) (S : List ℕ → ℕ → ValueSlot M → Prop) (w : Walk M)
    (left : List (List ℕ × ℕ)) : Walk.Descent M → Prop
  | (none, w') => left = [] ∧ w'.done = true
  | (some slot, w') => ∃ v left', left = (w'.key, v) :: left' ∧ S w'.key v slot ∧
      Standing C s S w' left' ∧ w'.flags = w.flags

section Seek

variable {n fuel off : ℕ} (hs : s.alloc.Sound)
include hs

theorem descendFrom_seeks (bounded advanced : Bool) (ho : Opened C s S w.stack subs w.key rest)
    (hsubs : w.subs = subAt w.stack.length sub ++ subs) (hsub : SubOk C sub l₂)
    (hl : Level C s S w.key n (l₁ ++ (c, x) :: l₂)) :
    ∃ r, w.descendFrom s bounded n (c, x.word) advanced = .ok r ∧
      Seeks C s S w ((entries ((c, x) :: l₂)).map (under w.key) ++ rest) r := by
  have htop : Topped C s S (w.pushFrame n c w.key.length advanced) w.key ⟨n, c, w.key.length, advanced⟩
      w.stack l₁ x l₂ rest := ⟨rfl, ⟨sub, subs, hsubs, hsub, ho⟩, hl, rfl⟩
  obtain ⟨slot, v, left, w', hfin, hst, hS, hleft, hflags⟩ :=
    finishDescent_spec bounded htop hs ((hl.visits htop.mem.1).trans_le (Nat.le_add_right _ 2))
  exact ⟨(some slot, w'), hfin, v, left, hleft.symm, hS, hst, hflags⟩

theorem seekUnwind_seeks (bounded : Bool) (ho : Opened C s S w.stack w.subs w.key rest) :
    ∃ r, w.seekUnwind s bounded = .ok r ∧ Seeks C s S w rest r := by
  obtain ⟨⟨found, w'⟩, hr, hres⟩ := unwindTo_spec (p := []) (t := []) false [] ho rfl (by simp)
    (List.prefix_refl _) (fun hb => absurd hb (by simp))
  rw [Walk.seekUnwind, hr, ok_bind]
  cases found with
  | none =>
    refine ⟨_, rfl, ?_, rfl⟩
    rw [← List.head?_eq_none_iff]
    refine Option.eq_none_iff_forall_not_mem.mpr fun e he => hres e he ?_
    exact fun hb => absurd hb (by simp)
  | some e =>
    obtain ⟨f, c, v⟩ := e
    obtain ⟨subs, sub, l₁, x, l₂, rest', rfl, hsubs, hsub, ho', hl, rfl, -, hflags⟩ := hres
    obtain ⟨r, hr', hseek⟩ := descendFrom_seeks hs bounded true ho' hsubs hsub hl
    refine ⟨r, hr', ?_⟩
    obtain ⟨_ | slot, w''⟩ := r
    · exact hseek
    · obtain ⟨v, left, h₁, h₂, h₃, h₄⟩ := hseek
      exact ⟨v, left, h₁, h₂, h₃, h₄.trans hflags⟩

theorem seekRest_seeks (bounded : Bool) (ho : Opened C s S w.stack w.subs w.key rest)
    (hl : Level C s S w.key n (l₁ ++ l)) :
    (∀ c v, (words l).head? = some (c, v) → ∃ r, w.descendFrom s bounded n (c, v) false = .ok r ∧
      Seeks C s S w ((entries l).map (under w.key) ++ rest) r) ∧
    ((words l).head? = none → ∃ r, w.seekUnwind s bounded = .ok r ∧
      Seeks C s S w ((entries l).map (under w.key) ++ rest) r) := by
  cases l with
  | nil =>
    refine ⟨fun c v h => absurd h (by simp [words]), fun _ => ?_⟩
    rw [entries, List.map_nil, List.nil_append]
    exact seekUnwind_seeks hs bounded ho
  | cons e l =>
    obtain ⟨c', x⟩ := e
    refine ⟨fun c v h => ?_, fun h => absurd h (by simp [words])⟩
    cases h
    exact descendFrom_seeks hs bounded false ho (show w.subs = subAt w.stack.length none ++ w.subs from rfl)
      subOk_none hl

theorem seekLoop_seeks (bounded : Bool) (ho : Opened C s S w.stack w.subs w.key rest)
    (hl : Level C s S w.key n kids) (hf : Enough key off fuel) (hn : NulFree key) :
    ∃ r, w.seekLoop s bounded key fuel n off = .ok r ∧
      Seeks C s S w (((entries kids).filter fun e => key.drop off ≤ e.1).map (under w.key) ++ rest) r := by
  induction fuel generalizing w n kids off rest with
  | zero => exact absurd hf (Nat.not_lt_zero _)
  | succ fuel ih =>
    obtain ⟨m, hm, hok, hent⟩ := hl.node.shell
    have hnr := hn.drop off
    have ht := pack_lt_word hnr
    have htarget : (chunkAt key off).1 = pack CHUNK (key.drop off) := rfl
    rw [Walk.seekLoop, shell_eq hm, ok_bind]
    simp only [htarget]
    rcases hl.node.wf.cases (pack CHUNK (key.drop off)) with
      ⟨x, l₁, l₂, rfl, hcut⟩ | ⟨l₁, l₂, rfl, hcut, -⟩
    · -- the level has an item at the chunk of the probe
      have hX : ∀ e ∈ [(pack CHUNK (key.drop off), x)], e.1 = pack CHUNK (key.drop off) := by simp
      have hsplit := filter_ge_cut (X := [(pack CHUNK (key.drop off), x)]) hnr hl.node.wf hcut
      rw [List.singleton_append] at hsplit
      have hcur : M.nextAtOrAfter m (pack CHUNK (key.drop off)) =
          some (pack CHUNK (key.drop off), x.word) := nextAtOrAfter_cut hok hent hcut hX ht
      rw [hsplit]
      simp only [hcur, true_and]
      by_cases hlt : (key.drop off).length < CHUNK
      · have hlast := lastChunk_of_lt hnr hlt
        obtain ⟨v, rfl⟩ := Item.value_of_last hl.node.item.2.1 hlast
        rw [if_neg (by rw [hlast.isTerminal]; simp), List.filter_eq_self.mpr, ← entries_append]
        · exact (seekRest_seeks hs bounded ho hl).1 _ _ rfl
        · rw [entries_value hnr hlt]
          simp
      · have hle : CHUNK ≤ (key.drop off).length := Nat.le_of_not_lt hlt
        have hfull := fullChunk_of_le hnr hle
        rw [if_pos hfull.not_isTerminal]
        cases x with
        | value v => exact absurd rfl (Item.not_value_of_full hl.node.item.2.1 hfull v)
        | suffix q bs v =>
          have hheld := hl.node.item.1
          rw [Item.Held] at hheld
          have hal := hl.node.aligned_suffix hs
          rw [Item.word, if_pos (isSuffixPtr_packSuffix hal), unpackSuffix_packSuffix hal,
            suffix_eq hheld, ok_bind]
          simp only [remAfter_eq hle]
          by_cases hcmp : key.drop (off + CHUNK) ≤ bs
          · rw [if_pos hcmp, List.filter_eq_self.mpr, ← entries_append]
            · exact (seekRest_seeks hs bounded ho hl).1 _ _ rfl
            · rw [entries_suffix]
              simpa using (le_under_iff hn hle).mpr hcmp
          · have hnone : ((entries [(pack CHUNK (key.drop off), Item.suffix q bs v)]).filter fun e =>
                key.drop off ≤ e.1) = [] := by
              rw [entries_suffix, List.filter_eq_nil_iff]
              intro e he
              rw [List.mem_singleton.mp he, decide_eq_true_iff, le_under_iff hn hle]
              exact hcmp
            have hl' : Level C s S w.key n ((l₁ ++ [(pack CHUNK (key.drop off), .suffix q bs v)]) ++ l₂) := by
              rw [List.append_assoc]
              exact hl
            have hrest := seekRest_seeks hs bounded ho hl'
            have hafter : M.nextAfter m (pack CHUNK (key.drop off)) = (words l₂).head? :=
              nextAfter_cut hok hent hcut hX
            rw [if_neg hcmp, hnone, List.nil_append, hafter]
            cases hw : (words l₂).head? with
            | none => exact hrest.2 hw
            | some e => exact hrest.1 _ _ hw
        | child q g =>
          have hal := hl.node.aligned_child hs
          have hx : (pack CHUNK (key.drop off), Item.child q g) ∈
            l₁ ++ (pack CHUNK (key.drop off), Item.child q g) :: l₂ := by simp
          rw [Item.word, if_neg (by rw [isSuffixPtr_packChild hal]; simp), filter_ge_child hn hle,
            List.map_append, map_underChunk, List.append_assoc]
          exact ih (w := { w.pushFrame n (pack CHUNK (key.drop off)) w.key.length false with
              key := w.key ++ beBytes (pack CHUNK (key.drop off)) })
            (ho.push hl hfull)
            (hl.child hx) (hf.next hle)
    · -- no item at the chunk
      have hX : ∀ e ∈ ([] : Kids), e.1 = pack CHUNK (key.drop off) := by simp
      have hcur : M.nextAtOrAfter m (pack CHUNK (key.drop off)) = (words l₂).head? :=
        nextAtOrAfter_cut hok hent hcut hX ht
      have hsplit := filter_ge_cut (X := []) hnr hl.node.wf hcut
      rw [List.nil_append, entries, List.filter_nil, List.nil_append] at hsplit
      have hrest := seekRest_seeks hs bounded ho hl
      rw [hsplit, hcur]
      cases hw : (words l₂).head? with
      | none => exact hrest.2 hw
      | some e =>
        have habove := (cutAt_words hcut).above e (List.mem_of_head? hw)
        simp only
        rw [if_neg (by rintro ⟨hc, -⟩; omega)]
        exact hrest.1 _ _ hw

end Seek

/-- A walk that will emit `l` and then end. -/
inductive Ready (C : M.Correct) (s : ExpanseStrMap M) (S : List ℕ → ℕ → ValueSlot M → Prop)
    (bounded : Bool) (p : List ℕ) (kids : Kids) : Walk M → List (List ℕ × ℕ) → Prop
  | done {w : Walk M} : w.done = true → Ready C s S bounded p kids w []
  | fresh : bounded = false → Ready C s S bounded p kids .new (entries kids)
  | standing {w : Walk M} {left : List (List ℕ × ℕ)} : w.done = false → w.started = true →
      w.pending = none → (bounded = true → Bounds p w ∧ p <+: w.key) → Standing C s S w left →
      Ready C s S bounded p kids w (left.takeWhile fun e => Allowed bounded p e.1)
  | pending {w : Walk M} {slot : ValueSlot M} {v : ℕ} {left : List (List ℕ × ℕ)} : w.done = false →
      w.started = true → w.pending = some slot → S w.key v slot →
      (bounded = true → Bounds p w ∧ p <+: w.key) → Standing C s S w left →
      Ready C s S bounded p kids w ((w.key, v) :: left.takeWhile fun e => Allowed bounded p e.1)

def Steps (C : M.Correct) (s : ExpanseStrMap M) (S : List ℕ → ℕ → ValueSlot M → Prop)
    (bounded : Bool) (p : List ℕ) (kids : Kids) (l : List (List ℕ × ℕ)) : Walk.Emitted M → Prop
  | (none, w') => l = [] ∧ Ready C s S bounded p kids w' []
  | (some (k, slot), w') => ∃ v l', l = (k, v) :: l' ∧ S k v slot ∧ Ready C s S bounded p kids w' l'

theorem Yields.steps {left : List (List ℕ × ℕ)} {r : Walk.Emitted M} (kids : Kids)
    (h : Yields C s S bounded p w left r)
    (hdone : w.done = false) (hstarted : w.started = true) (hpending : w.pending = none)
    (hB : bounded = true → Bounds p w) :
    Steps C s S bounded p kids (left.takeWhile fun e => Allowed bounded p e.1) r := by
  obtain ⟨_ | ⟨k, slot⟩, w'⟩ := r
  · obtain ⟨hhead, hd⟩ := h
    refine ⟨?_, .done hd⟩
    cases left with
    | nil => rfl
    | cons e left => exact List.takeWhile_cons_of_neg (by simpa using hhead e rfl)
  · obtain ⟨v, left', rfl, hall, hS, rfl, hst, hflags⟩ := h
    refine ⟨v, _, List.takeWhile_cons_of_pos (by simpa using hall), hS, ?_⟩
    have hB' : bounded = true → Bounds p w' ∧ p <+: w'.key := fun hb => ⟨(hB hb).congr hflags, hall hb⟩
    simp only [Walk.flags, Prod.mk.injEq] at hflags
    obtain ⟨h₁, h₂, h₃, -⟩ := hflags
    exact .standing (h₁.trans hdone) (h₂.trans hstarted) (h₃.trans hpending) hB' hst

/-- The relation between the entries below the root and their slots. -/
abbrev RootSlots (C : M.Correct) (s : ExpanseStrMap M) (kids : Kids) : List ℕ → ℕ → ValueSlot M → Prop :=
  fun k v slot => ∃ root, s.root = some root ∧ Slots C s.alloc root kids k v slot

theorem Rep.rootLevel {n : ℕ} (h : Rep C s kids) (hr : s.root = some n) :
    Level C s (RootSlots C s kids) [] n kids :=
  ⟨(h.node hr).1, fun _ _ _ hk => ⟨n, hr, hk⟩⟩

theorem map_under_nil (r : List (List ℕ × ℕ)) : r.map (under []) ++ [] = r := by
  rw [List.append_nil]
  exact List.map_id _

theorem next_fresh (h : Rep C s kids) :
    ∃ r, (Walk.new : Walk M).next s false = .ok r ∧
      Steps C s (RootSlots C s kids) false p kids (entries kids) r := by
  rw [Walk.next, Walk.nextFrom]
  simp only [Walk.new, Bool.false_eq_true, if_false, if_true]
  cases hr : s.root with
  | none =>
    rw [h.nil hr, entries]
    exact ⟨_, rfl, rfl, .done rfl⟩
  | some n =>
    have hl := h.rootLevel hr
    have hne : kids ≠ [] := by
      have ht := h.tree
      rw [RootHolds, hr] at ht
      exact ht.1
    obtain ⟨⟨c, x⟩, l, rfl⟩ := List.exists_cons_of_ne_nil hne
    obtain ⟨m, hm, hok, hent⟩ := hl.node.shell
    have hfirst : M.first m = some (c, x.word) := by
      rw [C.first_eq hok, hent]
      rfl
    have htop : Topped C s (RootSlots C s ((c, x) :: l))
        (({ Walk.new with started := true } : Walk M).pushFrame n c 0 false) [] ⟨n, c, 0, false⟩ [] [] x l [] :=
      ⟨rfl, ⟨none, [], rfl, subOk_none, .nil⟩, hl, rfl⟩
    obtain ⟨r, hr', hy⟩ := emit_yields (p := p) false ({ Walk.new with started := true } : Walk M) htop h.sound
      (Nat.le_succ _) (map_under_nil _).symm (fun e _ hb => absurd hb (by simp)) rfl
    refine ⟨r, ?_, ?_⟩
    · simp only [shell_eq hm, ok_bind, hfirst]
      exact hr'
    · have hsteps := hy.steps ((c, x) :: l) rfl rfl rfl (fun hb => absurd hb (by simp))
      rwa [List.takeWhile_eq_self_iff.mpr fun e _ => by simp [Allowed]] at hsteps

theorem next_ready {l : List (List ℕ × ℕ)} (h : Rep C s kids)
    (hw : Ready C s (RootSlots C s kids) bounded p kids w l) :
    ∃ r, w.next s bounded = .ok r ∧ Steps C s (RootSlots C s kids) bounded p kids l r := by
  cases hw with
  | done hdone =>
    refine ⟨(none, w), ?_, rfl, .done hdone⟩
    rw [Walk.next, Walk.nextFrom, if_pos hdone]
    rfl
  | fresh hb =>
    subst hb
    exact next_fresh h
  | standing hdone hstarted hpending hB hst =>
    obtain ⟨r, hr, hy⟩ := next_standing hst h.sound hdone hstarted hpending hB
    exact ⟨r, hr, hy.steps kids hdone hstarted hpending fun hb => (hB hb).1⟩
  | @pending _ slot v left hdone hstarted hpending hS hB hst =>
    refine ⟨(some (w.key, slot), { w with pending := none }), ?_, v, _, rfl, hS, ?_⟩
    · rw [Walk.next, Walk.nextFrom, hdone, hpending]
      rfl
    · exact .standing hdone hstarted rfl (fun hb => ⟨⟨(hB hb).1.depth, (hB hb).1.inside⟩, (hB hb).2⟩)
        (hst.congr rfl rfl rfl)

/-- The cursor emits exactly the entries of `l`, each with the slot that a lookup of its key
finds and that holds its value, and then nothing. -/
def Streams (s : ExpanseStrMap M) (bounded : Bool) (w : Walk M) (l : List (List ℕ × ℕ)) : Prop :=
  ∃ r, List.Forall₂ (fun e x => x.1 = e.1 ∧ s.alloc.readSlot x.2 = some e.2 ∧
      ∀ key : NulFreeStr, key.bytes = e.1 → s.getValueSlot key = .ok (some x.2)) l r ∧
    ∀ n, calls (Walk.next s bounded) w n = .ok (drawn r n)

theorem Ready.streams {l : List (List ℕ × ℕ)} (h : Rep C s kids)
    (hw : Ready C s (RootSlots C s kids) bounded p kids w l) : Streams s bounded w l := by
  refine calls_forall₂ (R := fun w l => Ready C s (RootSlots C s kids) bounded p kids w l) ?_ ?_ hw
  · intro w hw
    obtain ⟨⟨_ | ⟨k, slot⟩, w'⟩, hr, hst⟩ := next_ready h hw
    · exact ⟨w', hr, hst.2⟩
    · obtain ⟨v, l', hnil, -⟩ := hst
      cases hnil
  · intro w e l hw
    obtain ⟨⟨_ | ⟨k, slot⟩, w'⟩, hr, hst⟩ := next_ready h hw
    · cases hst.1
    · obtain ⟨v, l', hl, ⟨n, hroot, hslots⟩, hw'⟩ := hst
      cases hl
      have hnul := nulFree_of_mem kids h.wf hslots.mem
      have hget := Slots.getValueSlot h hroot ⟨k, hnul⟩ hslots
      refine ⟨(k, slot), w', hr, ⟨rfl, hget.2, ?_⟩, hw'⟩
      rintro ⟨k', hk'⟩ rfl
      exact hget.1

theorem walkAtOrAfter_spec (bounded : Bool) (h : Rep C s kids) (hn : NulFree key) :
    ∃ slot w, s.walkAtOrAfter bounded key = .ok { w with pending := slot } ∧
      Seeks C s (RootSlots C s kids) { (Walk.new : Walk M) with started := true }
        ((entries kids).filter fun e => key ≤ e.1) (slot, w) := by
  rw [ExpanseStrMap.walkAtOrAfter, Walk.seek]
  cases hr : s.root with
  | none =>
    refine ⟨none, _, rfl, ?_, rfl⟩
    rw [h.nil hr, entries]
    rfl
  | some n =>
    obtain ⟨⟨slot, w⟩, hseek, hs⟩ := seekLoop_seeks (w := { (Walk.new : Walk M) with started := true })
      h.sound bounded .nil (h.rootLevel hr) (enough_turns key) hn
    rw [List.drop_zero] at hs
    refine ⟨slot, w, ?_, ?_⟩
    · simp only [hseek, ok_bind]
      rfl
    · convert hs using 1
      exact (map_under_nil _).symm

theorem cursor_streams (h : Rep C s kids) : Streams s false s.cursor (entries kids) :=
  Ready.streams (p := []) h (.fresh rfl)

theorem cursorAtOrAfter_streams (h : Rep C s kids) (key : NulFreeStr) :
    ∃ w, s.cursorAtOrAfter key = .ok w ∧
      Streams s false w ((entries kids).filter fun e => key.bytes ≤ e.1) := by
  obtain ⟨slot, w, heq, hseek⟩ := walkAtOrAfter_spec false h key.nulFree
  refine ⟨_, heq, Ready.streams (p := []) h ?_⟩
  cases slot with
  | none =>
    rw [hseek.1]
    exact .done hseek.2
  | some slot =>
    obtain ⟨v, left, hl, hS, hst, hflags⟩ := hseek
    simp only [Walk.flags, Prod.mk.injEq] at hflags
    have hready : Ready C s (RootSlots C s kids) false [] kids { w with pending := some slot }
        ((w.key, v) :: left.takeWhile fun e => Allowed false [] e.1) :=
      .pending hflags.1 hflags.2.1 rfl hS (fun hb => absurd hb (by simp)) (hst.congr rfl rfl rfl)
    rwa [List.takeWhile_eq_self_iff.mpr fun e _ => by simp [Allowed], ← hl] at hready

/-- The masked chunk of a prefix cursor tells the keys that start with the prefix's last bytes. -/
theorem prefixMask_iff (hp : NulFree p) (hk : NulFree k) (hpos : 0 < p.length) (hlt : p.length < CHUNK) :
    pack CHUNK k &&& ExpanseStrMap.prefixMask p.length = pack CHUNK p &&& ExpanseStrMap.prefixMask p.length ↔
      p <+: k := by
  have hW : WORD = 2 ^ 64 := by decide
  have hC : CHUNK = p.length + (8 - p.length) := by
    have : CHUNK = 8 := rfl
    omega
  have hshift : (2 : ℕ) ^ (64 - 8 * p.length) = 256 ^ (8 - p.length) := by
    rw [show (256 : ℕ) = 2 ^ 8 by norm_num, ← pow_mul]
    congr 1
    omega
  have hhigh : ∀ t, NulFree t → pack CHUNK t &&& ExpanseStrMap.prefixMask p.length =
      pack p.length t * 256 ^ (8 - p.length) := by
    intro t ht
    have hlt := pack_lt_word ht
    rw [ExpanseStrMap.prefixMask, hW, land_high (hW ▸ hlt), hshift]
    congr 1
    rw [hC]
    exact pack_div ht
  rw [hhigh k hk, hhigh p hp, prefix_iff_pack hp hk rfl]
  exact Nat.mul_left_inj (Nat.pow_pos (by norm_num)).ne'

theorem takeWhile_eq_filter {r : List (List ℕ × ℕ)} (ho : Ordered r) (hle : ∀ e ∈ r, p ≤ e.1) :
    (r.takeWhile fun e => p <+: e.1) = r.filter fun e => p <+: e.1 := by
  induction r with
  | nil => rfl
  | cons e r ih =>
    obtain ⟨hlt, ho'⟩ := List.pairwise_cons.mp ho
    by_cases hp : p <+: e.1
    · rw [List.takeWhile_cons_of_pos (by simpa using hp), List.filter_cons_of_pos (by simpa using hp),
        ih ho' fun e' he' => hle e' (List.mem_cons_of_mem _ he')]
    · rw [List.takeWhile_cons_of_neg (by simpa using hp), List.filter_cons_of_neg (by simpa using hp)]
      symm
      rw [List.filter_eq_nil_iff]
      intro e' he'
      simpa using not_prefix_of_lt (hle e List.mem_cons_self) hp (hlt e' he')

theorem setBound_bounds (hp : NulFree p) (hmask : w.boundMask = 0) (hwant : w.boundWant = 0) :
    Bounds p (ExpanseStrMap.setBound w p) := by
  have hdiv := Nat.div_add_mod p.length CHUNK
  have hmod := Nat.mod_lt p.length (show 0 < CHUNK by decide)
  have hlen : (p.drop (CHUNK * (p.length / CHUNK))).length = p.length % CHUNK := by
    rw [List.length_drop]
    omega
  unfold ExpanseStrMap.setBound
  simp only
  split_ifs with hrem
  · refine ⟨rfl, fun k hk => ?_⟩
    have hsub : p.length - p.length % CHUNK = CHUNK * (p.length / CHUNK) := by omega
    show _ &&& ExpanseStrMap.prefixMask _ = pack CHUNK (p.drop (p.length - p.length % CHUNK)) &&&
      ExpanseStrMap.prefixMask _ ↔ _
    rw [hsub]
    rw [← hlen] at hrem hmod
    rw [← hlen]
    exact prefixMask_iff (hp.drop _) hk hrem hmod
  · refine ⟨rfl, fun k _ => ?_⟩
    have hnil : p.drop (CHUNK * (p.length / CHUNK)) = [] := List.length_eq_zero_iff.mp (by omega)
    show _ &&& w.boundMask = w.boundWant ↔ _
    rw [hmask, hwant, hnil]
    simp

theorem setBound_eq (w : Walk M) (p : List ℕ) : ∃ depth mask want, ExpanseStrMap.setBound w p =
    { w with boundDepth := depth, boundMask := mask, boundWant := want } := by
  unfold ExpanseStrMap.setBound
  simp only
  split_ifs
  · exact ⟨_, _, _, rfl⟩
  · exact ⟨_, w.boundMask, w.boundWant, rfl⟩

theorem cursorPrefix_streams (h : Rep C s kids) (pre : NulFreeStr) :
    ∃ w, s.cursorPrefix pre = .ok w ∧ Streams s true w ((entries kids).filter fun e => pre.bytes <+: e.1) := by
  obtain ⟨slot, w, heq, hseek⟩ := walkAtOrAfter_spec true h pre.nulFree
  have hfilter : (((entries kids).filter fun e => pre.bytes ≤ e.1).takeWhile
      fun e => Allowed true pre.bytes e.1) =
      (entries kids).filter fun e => pre.bytes <+: e.1 := by
    have hallow : (fun e : List ℕ × ℕ => decide (Allowed true pre.bytes e.1)) =
        fun e => decide (pre.bytes <+: e.1) := by
      funext e
      simp [Allowed]
    rw [hallow, takeWhile_eq_filter (h.ordered.filter _) (by simp), List.filter_filter]
    apply List.filter_congr
    intro e _
    rw [Bool.and_eq_left_iff_imp, decide_eq_true_iff, decide_eq_true_iff]
    exact fun hp => not_lt.mp (show ¬ e.1 < pre.bytes from List.IsPrefix.le hp)
  rw [ExpanseStrMap.cursorPrefix, heq, ok_bind, ← hfilter]
  obtain ⟨depth, mask, want, hset⟩ := setBound_eq { w with pending := slot } pre.bytes
  cases slot with
  | none =>
    rw [if_neg (by rw [hset]; simp), hseek.1]
    exact ⟨_, rfl, Ready.streams (p := pre.bytes) h (.done (by rw [hset]; exact hseek.2))⟩
  | some slot =>
    obtain ⟨v, left, hl, hS, hst, hflags⟩ := hseek
    simp only [Walk.flags, Prod.mk.injEq] at hflags
    have hbounds := setBound_bounds (w := { w with pending := some slot }) pre.nulFree
      hflags.2.2.2.2.1 hflags.2.2.2.2.2
    rw [hl]
    by_cases hp : pre.bytes <+: w.key
    · rw [if_neg (by rw [hset]; simpa using hp)]
      refine ⟨_, rfl, Ready.streams (p := pre.bytes) h ?_⟩
      rw [List.takeWhile_cons_of_pos (by simpa [Allowed] using hp)]
      rw [hset] at hbounds ⊢
      exact .pending hflags.1 hflags.2.1 rfl hS (fun _ => ⟨hbounds, hp⟩) (hst.congr rfl rfl rfl)
    · rw [if_pos (by rw [hset]; simpa using hp)]
      refine ⟨_, rfl, Ready.streams (p := pre.bytes) h ?_⟩
      rw [List.takeWhile_cons_of_neg (by simpa [Allowed] using hp)]
      exact .done rfl

/-- `l` is what the three cursors of `s` walk over. -/
structure CursorsStream (s : ExpanseStrMap M) (l : List (List ℕ × ℕ)) : Prop where
  cursor : Streams s false s.cursor l
  atOrAfter : ∀ key : NulFreeStr, ∃ w, s.cursorAtOrAfter key = .ok w ∧
    Streams s false w (l.filter fun e => key.bytes ≤ e.1)
  under : ∀ pre : NulFreeStr, ∃ w, s.cursorPrefix pre = .ok w ∧
    Streams s true w (l.filter fun e => pre.bytes <+: e.1)

theorem Rep.cursorsStream (h : Rep C s kids) : CursorsStream s (entries kids) :=
  ⟨cursor_streams h, cursorAtOrAfter_streams h, cursorPrefix_streams h⟩

end Expanse.StrMap
