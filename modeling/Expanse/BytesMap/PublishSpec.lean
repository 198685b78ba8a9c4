import Expanse.BytesMap.Publish
import Expanse.Library.Assoc
import Expanse.Library.Pool

/-!
# No acknowledged overwrite is lost

A replacement has the keys of the bucket it replaces, in their order, up to its own key.
Refreshing it under the lock therefore gives it the published values at the right
positions, whatever was copied before. The published bucket then always holds what the
acknowledged calls have left.
-/

namespace Expanse.BytesMap

variable {old repl b : Chain} {key : List Byte} {val i n index word len raw : ℕ} {edit : Edit}

theorem storeValue_cut {l₁ l₂ : Chain} {e : List Byte × ℕ} :
    storeValue (l₁ ++ e :: l₂) l₁.length val = some (l₁ ++ (e.1, val) :: l₂) := by
  simp [storeValue]

theorem loadValue_cut {l₁ l₂ : Chain} {e : List Byte × ℕ} :
    loadValue (l₁ ++ e :: l₂) l₁.length = some e.2 := by
  simp [loadValue]

/-- A loop that copies the values of `o`, which stand between `p` and `s` in the published bucket, to
the entries of `r`, which stand between `q` and `t` in the replacement and have the same keys. -/
theorem refresh_loop {f : Chain → ℕ → Option Chain} {o p q r s t : Chain}
    (hkeys : r.map Prod.fst = o.map Prod.fst)
    (hf : ∀ repl k, k < o.length → f repl (p.length + k) =
      (loadValue (p ++ (o ++ s)) (p.length + k)).bind (storeValue repl (q.length + k))) :
    (List.range' p.length o.length).foldlM f (q ++ (r ++ t)) = some (q ++ (o ++ t)) := by
  induction o generalizing p q r with
  | nil =>
    rw [List.map_eq_nil_iff.mp hkeys]
    rfl
  | cons e o ih =>
    obtain ⟨x, r, rfl, hx, hrest⟩ := List.map_eq_cons_iff.mp hkeys
    rw [List.length_cons, List.range'_succ, List.foldlM_cons]
    have hone : f (q ++ (x :: r ++ t)) p.length = some ((q ++ [e]) ++ (r ++ t)) := by
      have h0 := hf (q ++ (x :: r ++ t)) 0 (Nat.succ_pos _)
      simp only [List.cons_append, Nat.add_zero, loadValue_cut, Option.bind_some, storeValue_cut, hx] at h0
      rw [List.cons_append, h0]
      simp
    have hnext := ih (p := p ++ [e]) (q := q ++ [e]) hrest fun repl k hk => by
      have h1 := hf repl (k + 1) (Nat.succ_lt_succ hk)
      rw [List.append_assoc, List.singleton_append, List.length_append, List.length_append,
        List.length_singleton, Nat.add_assoc, Nat.add_comm 1 k, ← List.cons_append, h1, Nat.add_assoc,
        Nat.add_comm 1 k]
    rw [hone]
    simpa using hnext

/-- The replacement of a colliding insert gets the published values, and keeps its own entry. -/
theorem refreshReplacementValues_eq {t : Chain} (hkeys : repl.map Prod.fst = old.map Prod.fst) :
    refreshReplacementValues old (repl ++ t) old.length = some (old ++ t) := by
  unfold refreshReplacementValues
  rw [List.range_eq_range']
  refine refresh_loop (p := []) (q := []) (s := []) hkeys fun repl k _ => ?_
  rw [List.append_nil, List.nil_append, List.length_nil, Nat.zero_add]
  rfl

/-- The replacement of a colliding removal gets the published values on both sides of the entry that
is left out. -/
theorem refreshReplacementValuesRemoving_eq (hi : index < old.length)
    (hkeys : repl.map Prod.fst = (old.eraseIdx index).map Prod.fst) :
    refreshReplacementValuesRemoving old repl old.length index = some (old.eraseIdx index) := by
  -- cut the bucket at the entry, and the replacement at its index
  obtain ⟨a, e, c, rfl, rfl⟩ : ∃ a e c, old = a ++ e :: c ∧ a.length = index :=
    ⟨old.take index, old[index], old.drop (index + 1),
      by rw [List.getElem_cons_drop, List.take_append_drop], by rw [List.length_take]; omega⟩
  have herase : (a ++ e :: c).eraseIdx a.length = a ++ c := by
    rw [List.eraseIdx_append_of_length_le le_rfl, Nat.sub_self]
    rfl
  rw [herase] at hkeys ⊢
  obtain ⟨ra, rc, rfl, hra, hrc⟩ := List.map_eq_append_iff.mp (hkeys.trans List.map_append)
  unfold refreshReplacementValuesRemoving
  generalize hf : (fun (repl : Chain) (i : ℕ) => if i = a.length then some repl
    else do
      let v ← loadValue (a ++ e :: c) i
      storeValue repl (if i < a.length then i else i - 1) v) = f
  have hbelow : (List.range' 0 a.length).foldlM f (ra ++ rc) = some (a ++ rc) := by
    refine refresh_loop (p := []) (q := []) (s := e :: c) hra fun repl k hk => ?_
    rw [List.nil_append, List.length_nil, Nat.zero_add, ← hf]
    simp only [if_neg hk.ne, if_pos hk]
    rfl
  have hskip : f (a ++ rc) a.length = some (a ++ rc) := by
    rw [← hf]
    exact if_pos rfl
  have habove : (List.range' (a.length + 1) c.length).foldlM f (a ++ rc) = some (a ++ c) := by
    have h := refresh_loop (f := f) (p := a ++ [e]) (q := a) (s := []) (t := []) hrc fun repl k hk => by
      have hne : (a ++ [e]).length + k ≠ a.length := by simp; omega
      have hge : ¬ (a ++ [e]).length + k < a.length := by simp; omega
      rw [← hf]
      simp only [if_neg hne, if_neg hge]
      rw [List.append_nil, List.append_assoc, List.singleton_append, List.length_append,
        List.length_singleton, show a.length + 1 + k - 1 = a.length + k by omega]
      rfl
    simpa using h
  rw [List.length_append, List.length_cons, List.range_eq_range', ← List.range'_append_1,
    List.foldlM_append, hbelow]
  show (List.range' (0 + a.length) (c.length + 1)).foldlM f (a ++ rc) = _
  rw [Nat.zero_add, List.range'_succ, List.foldlM_cons, hskip]
  exact habove

def Terminal.keysAt (s : Terminal) (p : ℕ) : List (List Byte) := (s.heap p).map Prod.fst

/-- The edit is one that a search of a bucket with these keys has asked for. -/
def Edit.Fits : Edit → List (List Byte) → Prop
  | append key _, keys => key ∉ keys
  | without index key, keys => keys[index]? = some key

/-- The keys that a copy has after `next` entries. -/
def Edit.copied : Edit → List (List Byte) → ℕ → List (List Byte)
  | append _ _, keys, next => keys.take next
  | without index _, keys, next => (keys.take next).eraseIdx index

/-- The replacement at `raw` is the edit of a bucket with these keys, with values of its own. -/
def Edit.Replaces : Edit → List (List Byte) → Chain → Prop
  | append key val, keys, b => ∃ r, b = r ++ [(key, val)] ∧ r.map Prod.fst = keys
  | without index _, keys, b => b.map Prod.fst = keys.eraseIdx index

/-- What a writer has found out stays true while it is pinned. -/
def Terminal.Knows (s : Terminal) : Writer → Prop
  | .idle => True
  | .located word index key _ => (s.keysAt word)[index]? = some key
  | .copying word len edit next fresh =>
    (s.keysAt word).length = len ∧ edit.Fits (s.keysAt word) ∧ next ≤ len ∧
      fresh.map Prod.fst = edit.copied (s.keysAt word) next
  | .built word len edit raw =>
    (s.keysAt word).length = len ∧ edit.Fits (s.keysAt word) ∧ raw ≠ s.word ∧
      edit.Replaces (s.keysAt word) (s.heap raw)

/-- The address of a replacement that is not published. -/
def Writer.draft : Writer → Option ℕ
  | .built _ _ _ raw => some raw
  | _ => none

def Writer.Apart (v w : Writer) : Prop :=
  (∀ raw, v.draft = some raw → raw ∉ w.names) ∧ ∀ raw, w.draft = some raw → raw ∉ v.names

theorem Writer.apart_symm {v w : Writer} (h : v.Apart w) : w.Apart v := ⟨h.2, h.1⟩

theorem Writer.idle_apart (v : Writer) : Writer.idle.Apart v := by
  constructor
  · intro raw hr
    cases hr
  · intro raw _
    exact List.not_mem_nil

structure Terminal.Inv (b : Chain) (s : Terminal) : Prop where
  nodup : (s.keysAt s.word).Nodup
  acknowledged : ∀ key, (s.heap s.word).lookup key = lastAcknowledged b s.log key
  intact : s.broken = false
  knows : ∀ w ∈ s.writers, s.Knows w
  apart : s.writers.Pairwise Writer.Apart

variable {s s' : Terminal} {w w' : Writer} {ws₁ ws₂ : List Writer}

/-- A writer keeps its knowledge when the keys it names, and the replacement it owns, do not change. -/
theorem Terminal.Knows.frame (h : s.Knows w) (hkeys : ∀ p ∈ w.names, s'.keysAt p = s.keysAt p)
    (hraw : ∀ raw, w.draft = some raw → s'.heap raw = s.heap raw ∧ raw ≠ s'.word) : s'.Knows w := by
  cases w with
  | idle => trivial
  | located word index key val =>
    simp only [Knows, hkeys word (by simp [Writer.names])] at h ⊢
    exact h
  | copying word len edit next fresh =>
    simp only [Knows, hkeys word (by simp [Writer.names])] at h ⊢
    exact h
  | built word len edit raw =>
    obtain ⟨hheap, hne⟩ := hraw raw rfl
    simp only [Knows, hkeys word (by simp [Writer.names]), hheap] at h ⊢
    exact ⟨h.1, h.2.1, hne, h.2.2.2⟩

theorem Terminal.Knows.draft_ne (h : s.Knows w) {raw : ℕ} (hd : w.draft = some raw) : raw ≠ s.word := by
  cases w with
  | built word len edit raw' =>
    cases hd
    exact h.2.2.1
  | idle => cases hd
  | located word index key val => cases hd
  | copying word len edit next fresh => cases hd

theorem Writer.draft_mem_names {raw : ℕ} (hd : w.draft = some raw) : raw ∈ w.names := by
  cases w with
  | built word len edit raw' =>
    cases hd
    exact List.mem_cons_of_mem _ List.mem_cons_self
  | idle => cases hd
  | located word index key val => cases hd
  | copying word len edit next fresh => cases hd

theorem Terminal.Inv.others (h : s.Inv b) (hw : s.writers = ws₁ ++ w :: ws₂) :
    s.Knows w ∧ (∀ v ∈ ws₁ ++ ws₂, s.Knows v) ∧ (∀ v ∈ ws₁ ++ ws₂, w.Apart v) ∧
      (ws₁ ++ ws₂).Pairwise Writer.Apart := by
  have hk := h.knows
  have ha := h.apart
  rw [hw] at hk ha
  rw [List.pairwise_middle fun h => Writer.apart_symm h, List.pairwise_cons] at ha
  refine ⟨hk w (by simp), fun v hv => hk v ?_, ha.1, ha.2⟩
  simp only [List.mem_append, List.mem_cons] at hv ⊢
  tauto

/-- A step of one writer: the others keep what they know, and the writer names no one's replacement. -/
theorem Terminal.Inv.move (hw' : s'.writers = ws₁ ++ w' :: ws₂) (hn : (s'.keysAt s'.word).Nodup)
    (hack : ∀ key, (s'.heap s'.word).lookup key = lastAcknowledged b s'.log key) (hb : s'.broken = false)
    (hk : s'.Knows w') (hothers : ∀ v ∈ ws₁ ++ ws₂, s'.Knows v) (ha : ∀ v ∈ ws₁ ++ ws₂, w'.Apart v)
    (hpw : (ws₁ ++ ws₂).Pairwise Writer.Apart) : s'.Inv b where
  nodup := hn
  acknowledged := hack
  intact := hb
  knows v hv := by
    rw [hw'] at hv
    simp only [List.mem_append, List.mem_cons] at hv hothers
    rcases hv with hv | rfl | hv
    · exact hothers v (.inl hv)
    · exact hk
    · exact hothers v (.inr hv)
  apart := by
    rw [hw', List.pairwise_middle fun h => Writer.apart_symm h, List.pairwise_cons]
    exact ⟨ha, hpw⟩

theorem Terminal.Inv.setWriter (h : s.Inv b) (hi : s.writers[i]? = some w) (hk : s.Knows w')
    (hnames : ∀ p ∈ w'.names, p = s.word ∨ p ∈ w.names) (hd : w'.draft = none) :
    (s.setWriter i w').Inv b := by
  obtain ⟨ws₁, ws₂, hw, hset⟩ := Pool.exists_cut_set hi
  obtain ⟨-, hothers, ha, hpw⟩ := h.others hw
  refine .move (hset w') h.nodup h.acknowledged h.intact ?_ ?_ ?_ hpw
  · exact hk.frame (fun _ _ => rfl) fun raw hr => by rw [hd] at hr; cases hr
  · exact fun v hv => (hothers v hv).frame (fun _ _ => rfl) fun raw hr => ⟨rfl, (hothers v hv).draft_ne hr⟩
  · intro v hv
    constructor
    · intro raw hr
      rw [hd] at hr
      cases hr
    intro raw hr hmem
    rcases hnames raw hmem with heq | hmem
    · exact (hothers v hv).draft_ne hr heq
    · exact (ha v hv).2 raw hr hmem

theorem bucketFind_cases (b : Chain) (key : List Byte) :
    (∃ index, bucketFind b key = (b.length, some index) ∧ (b.map Prod.fst)[index]? = some key) ∨
      bucketFind b key = (b.length, none) ∧ key ∉ b.map Prod.fst := by
  unfold bucketFind
  cases hf : b.findIdx? fun e => e.1 = key with
  | some index =>
    obtain ⟨hlt, heq, -⟩ := List.findIdx?_eq_some_iff_getElem.mp hf
    refine .inl ⟨index, rfl, ?_⟩
    rw [List.getElem?_map, List.getElem?_eq_getElem hlt, Option.map_some, of_decide_eq_true heq]
  | none =>
    refine .inr ⟨rfl, fun hm => ?_⟩
    obtain ⟨e, he, rfl⟩ := List.mem_map.mp hm
    have := List.findIdx?_eq_none_iff.mp hf e he
    simp at this

theorem inv_beginInsert (h : s.Inv b) (hi : s.writers[i]? = some .idle) :
    (s.beginInsert i key val).Inv b := by
  unfold Terminal.beginInsert
  rcases bucketFind_cases (s.heap s.word) key with ⟨index, hf, hkey⟩ | ⟨hf, hkey⟩
  · rw [hf]
    exact h.setWriter hi hkey (by simp [Writer.names]) rfl
  · rw [hf]
    exact h.setWriter hi ⟨List.length_map _, hkey, Nat.zero_le _, rfl⟩ (by simp [Writer.names]) rfl

theorem inv_beginRemove (h : s.Inv b) (hi : s.writers[i]? = some .idle) :
    (s.beginRemove i key).Inv b := by
  unfold Terminal.beginRemove
  rcases bucketFind_cases (s.heap s.word) key with ⟨index, hf, hkey⟩ | ⟨hf, hkey⟩
  · rw [hf]
    dsimp only
    split_ifs
    · exact h
    · exact h.setWriter hi ⟨List.length_map _, hkey, Nat.zero_le _, rfl⟩ (by simp [Writer.names]) rfl
  · rw [hf]
    exact h

theorem inv_copyEntry {next : ℕ} {fresh : Chain} (h : s.Inv b)
    (hi : s.writers[i]? = some (.copying word len edit next fresh)) (hlt : next < len) :
    (s.copyEntry i word len edit next fresh).Inv b := by
  obtain ⟨hlen, hfits, -, hfresh⟩ := h.knows _ (List.mem_of_getElem? hi)
  have hget : next < (s.heap word).length := by
    rw [Terminal.keysAt, List.length_map] at hlen
    omega
  have hkey : (s.keysAt word)[next]? = some (s.heap word)[next].1 := by
    rw [Terminal.keysAt, List.getElem?_map, List.getElem?_eq_getElem hget]
    rfl
  unfold Terminal.copyEntry
  rw [List.getElem?_eq_getElem hget]
  cases edit with
  | append key val =>
    refine h.setWriter hi ⟨hlen, hfits, hlt, ?_⟩ (by simp [Writer.names]) rfl
    show (fresh ++ [(s.heap word)[next]]).map Prod.fst = (s.keysAt word).take (next + 1)
    rw [List.map_append, hfresh, List.take_add_one, hkey]
    rfl
  | without index key =>
    refine h.setWriter hi ⟨hlen, hfits, hlt, ?_⟩ (by simp [Writer.names]) rfl
    show _ = ((s.keysAt word).take (next + 1)).eraseIdx index
    have hfresh' : fresh.map Prod.fst = ((s.keysAt word).take next).eraseIdx index := hfresh
    have htake : ((s.keysAt word).take next).length = next := by
      rw [List.length_take]
      omega
    rw [List.take_add_one, hkey]
    rcases lt_trichotomy index next with hin | rfl | hin
    · rw [if_neg hin.ne', List.map_append, hfresh', List.eraseIdx_append_of_lt_length (by omega)]
      rfl
    · rw [if_pos rfl, hfresh', List.eraseIdx_of_length_le (by omega),
        List.eraseIdx_append_of_length_le (by omega), htake, Nat.sub_self]
      simp
    · rw [if_neg hin.ne, List.map_append, hfresh', List.eraseIdx_of_length_le (by omega),
        List.eraseIdx_of_length_le (by simp; omega)]
      rfl

/-- The others keep their knowledge when a bucket changes that none of them names. -/
theorem Terminal.Knows.elsewhere {p : ℕ} {c : Chain} (h : s.Knows w)
    (hheap : s'.heap = Function.update s.heap p c) (hp : p ∉ w.names)
    (hword : s'.word = s.word ∨ s'.word = p) : s'.Knows w := by
  have heq : ∀ q ∈ w.names, s'.heap q = s.heap q := by
    intro q hq
    have hne : q ≠ p := fun he => hp (he ▸ hq)
    rw [hheap, Function.update_of_ne hne]
  refine h.frame (fun q hq => by rw [Terminal.keysAt, heq q hq, Terminal.keysAt]) fun raw hr => ?_
  have hmem := Writer.draft_mem_names hr
  refine ⟨heq raw hmem, ?_⟩
  rcases hword with hword | hword
  · rw [hword]
    exact h.draft_ne hr
  · rw [hword]
    exact fun he => hp (he ▸ hmem)

theorem keysAt_update_ne {p q : ℕ} {c : Chain} (hheap : s'.heap = Function.update s.heap p c)
    (hne : q ≠ p) : s'.keysAt q = s.keysAt q := by
  rw [Terminal.keysAt, hheap, Function.update_of_ne hne, Terminal.keysAt]

theorem inv_box {next : ℕ} {fresh : Chain} (h : s.Inv b)
    (hi : s.writers[i]? = some (.copying word len edit next fresh)) (hnext : next = len)
    (hraw : raw ≠ s.word) (hfree : ∀ w ∈ s.writers, raw ∉ w.names) :
    (s.box i word len edit fresh raw).Inv b := by
  obtain ⟨hlen, hfits, -, hfresh⟩ := h.knows _ (List.mem_of_getElem? hi)
  obtain ⟨ws₁, ws₂, hw, hset⟩ := Pool.exists_cut_set hi
  obtain ⟨-, hothers, ha, hpw⟩ := h.others hw
  have hfree' : ∀ v ∈ ws₁ ++ ws₂, raw ∉ v.names := by
    intro v hv
    refine hfree v ?_
    rw [hw]
    simp only [List.mem_append, List.mem_cons] at hv ⊢
    tauto
  have hword : word ≠ raw := fun heq => hfree _ (List.mem_of_getElem? hi) (by simp [Writer.names, heq])
  have hrep : edit.Replaces (s.keysAt word) (edit.close fresh) := by
    subst hnext
    cases edit with
    | append key val =>
      refine ⟨fresh, rfl, ?_⟩
      rw [hfresh, Edit.copied, List.take_of_length_le hlen.le]
    | without index key =>
      show fresh.map Prod.fst = _
      rw [hfresh, Edit.copied, List.take_of_length_le hlen.le]
  have hheap : (s.box i word len edit fresh raw).heap = Function.update s.heap raw (edit.close fresh) := rfl
  have hsame := keysAt_update_ne hheap hraw.symm
  refine .move (hset _) ?_ ?_ h.intact ?_ ?_ ?_ hpw
  · exact hsame.symm ▸ h.nodup
  · intro key
    show (Function.update s.heap raw (edit.close fresh) s.word).lookup key = _
    rw [Function.update_of_ne hraw.symm]
    exact h.acknowledged key
  · have hk := keysAt_update_ne hheap hword
    refine ⟨hk.symm ▸ hlen, hk.symm ▸ hfits, hraw, ?_⟩
    rw [hk, hheap, Function.update_self]
    exact hrep
  · exact fun v hv => (hothers v hv).elsewhere hheap (hfree' v hv) (.inl rfl)
  · intro v hv
    constructor
    · intro raw' hr
      cases hr
      exact hfree' v hv
    · intro raw' hr hmem
      simp only [Writer.names, List.mem_cons, List.not_mem_nil, or_false] at hmem
      rcases hmem with rfl | rfl
      · exact (ha v hv).2 raw' hr (by simp [Writer.names])
      · exact hfree' v hv (Writer.draft_mem_names hr)

theorem lastAcknowledged_cons {log : List (List Byte × Option ℕ)} {v : Option ℕ} (k : List Byte) :
    lastAcknowledged b ((key, v) :: log) k = if k = key then v else lastAcknowledged b log k := by
  unfold lastAcknowledged
  rw [List.lookup_cons]
  split_ifs with hk
  · rw [hk, beq_self_eq_true]
    rfl
  · rw [beq_false_of_ne hk]

theorem exists_entry {c : Chain} (hkey : (c.map Prod.fst)[index]? = some key) :
    ∃ l₁ v l₂, c = l₁ ++ (key, v) :: l₂ ∧ l₁.length = index := by
  rw [List.getElem?_map, Option.map_eq_some_iff] at hkey
  obtain ⟨⟨k, v⟩, hget, rfl⟩ := hkey
  obtain ⟨hlt, heq⟩ := List.getElem?_eq_some_iff.mp hget
  refine ⟨c.take index, v, c.drop (index + 1), ?_, by rw [List.length_take]; omega⟩
  rw [← heq, List.getElem_cons_drop, List.take_append_drop]

theorem inv_publishValue (h : s.Inv b) (hi : s.writers[i]? = some (.located word index key val)) :
    (s.publishValue i word index key val).Inv b := by
  have hkey := h.knows _ (List.mem_of_getElem? hi)
  unfold Terminal.publishValue
  split_ifs with hword
  · subst hword
    obtain ⟨l₁, v, l₂, hb, rfl⟩ := exists_entry hkey
    have hn := h.nodup
    rw [Terminal.keysAt, hb] at hn
    have hl₁ : key ∉ l₁.map Prod.fst := by
      rw [List.map_append, List.map_cons, List.nodup_middle, List.nodup_cons] at hn
      exact fun hm => hn.1 (List.mem_append_left _ hm)
    rw [publishEntryValue, hb, storeValue_cut]
    dsimp only
    obtain ⟨ws₁, ws₂, hw, hset⟩ := Pool.exists_cut_set hi
    obtain ⟨-, hothers, ha, hpw⟩ := h.others hw
    have hkeys : ∀ p, (((s.setBucket s.word (l₁ ++ (key, val) :: l₂)).setWriter i .idle).keysAt p) =
        s.keysAt p := by
      intro p
      by_cases hp : p = s.word
      · subst hp
        show ((Function.update s.heap s.word (l₁ ++ (key, val) :: l₂)) s.word).map Prod.fst = _
        rw [Function.update_self, Terminal.keysAt, hb]
        simp
      · exact keysAt_update_ne rfl hp
    refine .move (hset .idle) ?_ ?_ h.intact trivial ?_ ?_ hpw
    · exact (hkeys s.word).symm ▸ h.nodup
    · intro k
      show (Function.update s.heap s.word (l₁ ++ (key, val) :: l₂) s.word).lookup k =
        lastAcknowledged b ((key, some val) :: s.log) k
      rw [Function.update_self, lastAcknowledged_cons, ← h.acknowledged, hb, Assoc.lookup_middle hl₁,
        Assoc.lookup_middle hl₁]
      split_ifs <;> rfl
    · intro v hv
      refine (hothers v hv).frame (fun p _ => hkeys p) fun raw hr => ?_
      have hne := (hothers v hv).draft_ne hr
      exact ⟨Function.update_of_ne hne _ _, hne⟩
    · exact fun v _ => Writer.idle_apart v
  · exact h.setWriter hi trivial (by simp [Writer.names]) rfl

theorem refresh_applies (hlen : old.length = len) (hfits : edit.Fits (old.map Prod.fst))
    (hrep : edit.Replaces (old.map Prod.fst) repl) :
    edit.refresh old repl len = some (edit.apply old) := by
  subst hlen
  cases edit with
  | append key val =>
    obtain ⟨r, rfl, hr⟩ := hrep
    exact refreshReplacementValues_eq hr
  | without index key =>
    have hi : index < old.length := by
      have := (List.getElem?_eq_some_iff.mp hfits).1
      rwa [List.length_map] at this
    refine refreshReplacementValuesRemoving_eq hi ?_
    rw [← List.eraseIdx_map]
    exact hrep

theorem lookup_apply (hn : (old.map Prod.fst).Nodup) (hfits : edit.Fits (old.map Prod.fst)) (k : List Byte) :
    (edit.apply old).lookup k = if k = edit.ack.1 then edit.ack.2 else old.lookup k := by
  cases edit with
  | append key val => exact Assoc.lookup_concat hfits
  | without index key =>
    obtain ⟨l₁, v, l₂, rfl, rfl⟩ := exists_entry hfits
    have herase : (l₁ ++ (key, v) :: l₂).eraseIdx l₁.length = l₁ ++ l₂ := by
      rw [List.eraseIdx_append_of_length_le le_rfl, Nat.sub_self]
      rfl
    rw [Edit.apply, herase, Assoc.lookup_erased hn]
    rfl

theorem nodup_apply (hn : (old.map Prod.fst).Nodup) (hfits : edit.Fits (old.map Prod.fst)) :
    ((edit.apply old).map Prod.fst).Nodup := by
  cases edit with
  | append key val =>
    rw [Edit.apply, List.map_append]
    refine hn.append (List.nodup_singleton _) ?_
    intro k hk hk'
    rw [List.map_singleton, List.mem_singleton] at hk'
    rw [hk'] at hk
    exact hfits hk
  | without index key => exact hn.sublist ((List.eraseIdx_sublist old index).map Prod.fst)

theorem publishBucket_eq (h : s.Inv b) (hi : s.writers[i]? = some (.built word len edit raw))
    (hword : s.word = word) : s.publishBucket i word len edit raw =
      { (s.setBucket raw (edit.apply (s.heap word))).setWriter i .idle with
        word := raw, log := edit.ack :: s.log } := by
  obtain ⟨hlen, hfits, -, hrep⟩ := h.knows _ (List.mem_of_getElem? hi)
  rw [Terminal.keysAt, List.length_map] at hlen
  have hrefresh := refresh_applies hlen hfits hrep
  rw [Terminal.publishBucket, if_pos hword, hrefresh]

theorem inv_publishBucket (h : s.Inv b) (hi : s.writers[i]? = some (.built word len edit raw)) :
    (s.publishBucket i word len edit raw).Inv b := by
  obtain ⟨hlen, hfits, hraw, hrep⟩ := h.knows _ (List.mem_of_getElem? hi)
  by_cases hword : s.word = word
  · rw [publishBucket_eq h hi hword]
    subst hword
    obtain ⟨ws₁, ws₂, hw, hset⟩ := Pool.exists_cut_set hi
    obtain ⟨-, hothers, ha, hpw⟩ := h.others hw
    refine .move (hset .idle) ?_ ?_ h.intact trivial ?_ ?_ hpw
    · show ((Function.update s.heap raw (edit.apply (s.heap s.word)) raw).map Prod.fst).Nodup
      rw [Function.update_self]
      exact nodup_apply h.nodup hfits
    · intro k
      show (Function.update s.heap raw (edit.apply (s.heap s.word)) raw).lookup k =
        lastAcknowledged b (edit.ack :: s.log) k
      rw [Function.update_self, lookup_apply h.nodup hfits, h.acknowledged]
      exact (lastAcknowledged_cons k).symm
    · exact fun v hv => (hothers v hv).elsewhere rfl ((ha v hv).1 raw rfl) (.inr rfl)
    · exact fun v _ => Writer.idle_apart v
  · rw [Terminal.publishBucket, if_neg hword]
    exact h.setWriter hi trivial (by simp [Writer.names]) rfl

theorem inv_step {a : Action} (h : s.Inv b) (hs : s.step a = some s') : s'.Inv b := by
  cases a with
  | insert i key val =>
    simp only [Terminal.step, Option.ite_none_right_eq_some, Option.some.injEq] at hs
    obtain ⟨hi, rfl⟩ := hs
    exact inv_beginInsert h hi
  | remove i key =>
    simp only [Terminal.step, Option.ite_none_right_eq_some, Option.some.injEq] at hs
    obtain ⟨hi, rfl⟩ := hs
    exact inv_beginRemove h hi
  | copy i =>
    simp only [Terminal.step] at hs
    split at hs
    · rename_i hi
      simp only [Option.ite_none_right_eq_some, Option.some.injEq] at hs
      obtain ⟨hlt, rfl⟩ := hs
      exact inv_copyEntry h hi hlt
    · cases hs
  | box i raw =>
    simp only [Terminal.step] at hs
    split at hs
    · rename_i hi
      simp only [Option.ite_none_right_eq_some, Option.some.injEq] at hs
      obtain ⟨⟨hnext, hraw, hfree⟩, rfl⟩ := hs
      exact inv_box h hi hnext hraw hfree
    · cases hs
  | publish i =>
    simp only [Terminal.step] at hs
    split at hs
    · rename_i hi
      cases hs
      exact inv_publishValue h hi
    · rename_i hi
      cases hs
      exact inv_publishBucket h hi
    · cases hs
  | abandon i =>
    simp only [Terminal.step, Option.ite_none_right_eq_some, Option.some.injEq] at hs
    obtain ⟨hlt, rfl⟩ := hs
    exact h.setWriter (List.getElem?_eq_getElem hlt) trivial (by simp [Writer.names]) rfl

theorem inv_start (hb : (b.map Prod.fst).Nodup) : (Terminal.start word n b).Inv b where
  nodup := by
    show ((Function.update (fun _ => []) word b word).map Prod.fst).Nodup
    rwa [Function.update_self]
  acknowledged key := by
    show (Function.update (fun _ => []) word b word).lookup key = _
    rw [Function.update_self]
    rfl
  intact := rfl
  knows w hw := by
    rw [List.eq_of_mem_replicate hw]
    trivial
  apart := by
    exact List.pairwise_replicate.mpr (.inr (Writer.idle_apart _))

theorem Terminal.Reachable.inv (hb : (b.map Prod.fst).Nodup) (h : Terminal.Reachable word n b s) : s.Inv b := by
  induction h with
  | start => exact inv_start hb
  | step a _ hs ih => exact inv_step ih hs

/-- In every interleaving the published bucket holds for each key the last value acknowledged for it,
and no access leaves a bucket. A replacement that is published is the edit of the bucket published
before it: that bucket with the new entry behind it, or without the removed entry, values included. -/
theorem no_acknowledged_overwrite_lost (hb : (b.map Prod.fst).Nodup)
    (h : Terminal.Reachable word n b s) :
    (∀ key, (s.heap s.word).lookup key = lastAcknowledged b s.log key) ∧ s.broken = false ∧
      ∀ i len edit raw s', s.writers[i]? = some (.built s.word len edit raw) →
        s.step (.publish i) = some s' → s'.word = raw ∧ s'.heap s'.word = edit.apply (s.heap s.word) := by
  have hinv := h.inv hb
  refine ⟨hinv.acknowledged, hinv.intact, ?_⟩
  intro i len edit raw s' hi hs
  rw [Terminal.step, hi] at hs
  cases hs
  rw [publishBucket_eq hinv hi rfl]
  exact ⟨rfl, Function.update_self ..⟩

theorem reachable_of_steps {as : List Action} (h : Terminal.Reachable word n b s)
    (hs : s.steps as = some s') : Terminal.Reachable word n b s' := by
  induction as generalizing s with
  | nil =>
    cases hs
    exact h
  | cons a as ih =>
    rw [Terminal.steps, Option.bind_eq_some_iff] at hs
    obtain ⟨t, ht, hrest⟩ := hs
    exact ih (h.step a ht) hrest

/-- A removal copies its bucket, an overwrite of the other key is acknowledged, and the removal then
publishes. -/
def overwriteDuringCopy : List Action :=
  [.remove 0 [1], .copy 0, .copy 0, .insert 1 [2] 9, .publish 1, .box 0 5, .publish 0]

theorem no_acknowledged_overwrite_lost_copying :
    ∃ s : Terminal, (Terminal.start 3 2 [([1], 7), ([2], 8)]).steps overwriteDuringCopy = some s ∧
      s.word = 5 ∧ (s.heap s.word).lookup [2] = some 9 := by
  obtain ⟨s, hsteps, hword, hlog⟩ : ∃ s : Terminal,
      (Terminal.start 3 2 [([1], 7), ([2], 8)]).steps overwriteDuringCopy = some s ∧ s.word = 5 ∧
        s.log = [([1], none), ([2], some 9)] := ⟨_, rfl, rfl, rfl⟩
  have hr : Terminal.Reachable 3 2 [([1], 7), ([2], 8)] s := reachable_of_steps .start hsteps
  refine ⟨s, hsteps, hword, ?_⟩
  rw [(no_acknowledged_overwrite_lost (by decide) hr).1 [2], hlog]
  rfl

end Expanse.BytesMap
