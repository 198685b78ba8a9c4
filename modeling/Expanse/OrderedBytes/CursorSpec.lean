import Expanse.OrderedBytes.Cursor

/-!
# Walks with buffers of any size

A call on the cursor takes the next entry whether or not its key fits the buffer. So a walk
yields, of the entries it reaches, those whose buffer was large enough, and it yields all of
them exactly when no buffer was too small.
-/

namespace Expanse.OrderedBytes

open Domain StrMap BigEndian Runs

variable {M : WordMap} {C : M.Correct} {s : ExpanseStrMap M} {m : ExpanseOrderedBytesMap M} {w : Walk M}

theorem encoded_inj {a b : List Byte} (h : (encoded a).bytes = (encoded b).bytes) : a = b := by
  have hcode := congrArg ofStr h
  simp only [encoded, ofStr_toStr, escapeEncode_eq] at hcode
  exact escapeCode.encode_inj.mp hcode

/-- The string map's bindings are those of `f` under the codes of its keys. -/
def Coded (f : List Byte → Option ℕ) (g : List ℕ → Option ℕ) : Prop :=
  ∀ k v, g k = some v ↔ ∃ key, k = (encoded key).bytes ∧ f key = some v

theorem Coded.update {f : List Byte → Option ℕ} {g : List ℕ → Option ℕ} (h : Coded f g)
    (key : List Byte) (x : Option ℕ) :
    Coded (Function.update f key x) (Function.update g (encoded key).bytes x) := by
  intro k v
  by_cases hk : k = (encoded key).bytes
  · subst hk
    rw [Function.update_self]
    constructor
    · rintro rfl
      exact ⟨key, rfl, Function.update_self ..⟩
    · rintro ⟨key', heq, hv⟩
      rw [← encoded_inj heq, Function.update_self] at hv
      exact hv
  · rw [Function.update_of_ne hk, h k v]
    refine exists_congr fun key' => and_congr_right fun heq => ?_
    rw [Function.update_of_ne]
    rintro rfl
    exact hk heq

def MapHolds (C : M.Correct) (m : ExpanseOrderedBytesMap M) (f : List Byte → Option ℕ) : Prop :=
  ∃ g, Holds C m.inner g ∧ Coded f g

theorem mapHolds_new : MapHolds C (.new : ExpanseOrderedBytesMap M) fun _ => none :=
  ⟨_, holds_new, fun k v => by simp⟩

theorem mapHolds_step (P : Placement) {f : List Byte → Option ℕ} (h : MapHolds C m f)
    (op : ExpanseOrderedBytesMap.Op) :
    Ensures C.Total (m.step P op) fun r => r.1 = (refStep f op).1 ∧ MapHolds C r.2 (refStep f op).2 := by
  obtain ⟨g, hg, hc⟩ := h
  cases op with
  | insert key val =>
    have hin : Ensures C.Total (m.insert P key val) fun r =>
        Holds C r.2.inner (Function.update g (encoded key).bytes (some val)) :=
      (insert_holds P (encoded key) hg val).bind fun r hr => hr.2
    exact hin.bind fun r hr => ⟨rfl, _, hr, hc.update key (some val)⟩
  | insSlot key val =>
    obtain ⟨kids, hrep, hgraph⟩ := hg
    have hin : Ensures C.Total (m.insSlot P key val) fun t =>
        Holds C t.inner (Function.update g (encoded key).bytes (some val)) := by
      refine (insSlot_spec P (encoded key) hrep).bind fun r hr => ?_
      obtain ⟨kids', old, hrep', hw, hread, hwrite⟩ := hr
      obtain ⟨s, kids'', hwr, hrep'', hw''⟩ := hwrite val
      simp only [hwr, ok_bind, pure_eq_ok, ensures_ok]
      exact ⟨kids'', hrep'', (hw''.graph hgraph hrep''.ordered).2⟩
    exact hin.bind fun t ht => ⟨rfl, _, ht, hc.update key (some val)⟩
  | remove key =>
    have hrem : Ensures C.Total (m.remove key) fun r =>
        Holds C r.2.inner (Function.update g (encoded key).bytes none) :=
      (remove_holds (encoded key) hg).of_true.bind fun r hr => hr.2
    exact hrem.bind fun r hr => ⟨rfl, _, hr, hc.update key none⟩
  | clear =>
    obtain ⟨kids, hrep, -⟩ := hg
    obtain ⟨n, t, hclear, hrep'⟩ := clear_spec hrep
    simp only [ExpanseOrderedBytesMap.step, ExpanseOrderedBytesMap.clear, hclear, ok_bind]
    exact ⟨trivial, _, ⟨[], hrep', graph_nil⟩, fun k v => by simp [refStep]⟩

theorem streams_nil (h : Streams s false w []) :
    ∃ w', Walk.next s false w = .ok (none, w') ∧ Streams s false w' [] := by
  obtain ⟨r, hr, hcalls⟩ := h
  cases hr
  obtain ⟨w', hnext, hrest⟩ := calls_uncons hcalls
  exact ⟨w', hnext, [], .nil, hrest⟩

theorem streams_cons {e : List ℕ × ℕ} {l : List (List ℕ × ℕ)} (h : Streams s false w (e :: l)) :
    ∃ slot w', Walk.next s false w = .ok (some (e.1, slot), w') ∧ s.alloc.readSlot slot = some e.2 ∧
      Streams s false w' l := by
  obtain ⟨r, hr, hcalls⟩ := h
  cases hr with
  | @cons _ x _ r hx hr =>
    obtain ⟨w', hnext, hrest⟩ := calls_uncons hcalls
    obtain ⟨hkey, hread, -⟩ := hx
    refine ⟨x.2, w', ?_, hread, r, hr, hrest⟩
    rw [hnext, ← hkey]
    rfl

/-- An entry as the string map has it. -/
def stored (e : List Byte × ℕ) : List ℕ × ℕ := ((encoded e.1).bytes, e.2)

/-- The cursor has the entries `l` before it. -/
def Walks (m : ExpanseOrderedBytesMap M) (w : Walk M) (l : List (List Byte × ℕ)) : Prop :=
  Streams m.inner false w (l.map stored)

theorem ofStr_encoded (key : List Byte) : ofStr (encoded key).bytes = escapeEncode key :=
  ofStr_toStr (escapeEncode key)

theorem escapeDecode_encoded (key : List Byte) : escapeDecode (ofStr (encoded key).bytes) = .ok key := by
  rw [ofStr_encoded]
  exact escapeDecode_eq_ok.mpr rfl

theorem decodeInto_fits {key buf : List Byte} (h : key.length ≤ buf.length) :
    ∃ buf', escapeDecodeInto (ofStr (encoded key).bytes) buf = (.ok key.length, buf') ∧
      buf'.take key.length = key := by
  obtain ⟨hres, hbytes⟩ := escapeDecodeInto_eq (ofStr (encoded key).bytes) buf
  have hok := hbytes key (escapeDecode_encoded key) h
  rw [escapeDecode_encoded, intoBuffer, if_neg (Nat.not_lt.mpr h)] at hres
  exact ⟨key ++ buf.drop key.length, Prod.ext hres hok, List.take_left⟩

theorem decodeInto_small {key buf : List Byte} (h : ¬ key.length ≤ buf.length) :
    ∃ buf', escapeDecodeInto (ofStr (encoded key).bytes) buf =
      (.error (.bufferTooSmall key.length buf.length), buf') := by
  obtain ⟨hres, -⟩ := escapeDecodeInto_eq (ofStr (encoded key).bytes) buf
  rw [escapeDecode_encoded, intoBuffer, if_pos (Nat.not_le.mp h)] at hres
  exact ⟨_, Prod.ext hres rfl⟩

theorem cursorStep_nil (h : Walks m w []) (call : CursorCall) :
    ∃ w', m.cursorStep w call = .ok (.done, w') ∧ Walks m w' [] := by
  obtain ⟨w', hnext, hw'⟩ := streams_nil h
  refine ⟨w', ?_, hw'⟩
  cases call with
  | nextOwned => simp [ExpanseOrderedBytesMap.cursorStep, ExpanseOrderedBytesMap.nextOwned, hnext]
  | nextDecodeInto buf =>
    simp [ExpanseOrderedBytesMap.cursorStep, ExpanseOrderedBytesMap.nextDecodeInto, hnext]
  | nextEntryDecodeInto buf =>
    simp [ExpanseOrderedBytesMap.cursorStep, ExpanseOrderedBytesMap.nextEntryDecodeInto, hnext]

/-- Every call takes the next entry; it answers with it when the buffer holds the key. -/
theorem cursorStep_cons {e : List Byte × ℕ} {l : List (List Byte × ℕ)} (h : Walks m w (e :: l))
    (call : CursorCall) :
    ∃ answer w', m.cursorStep w call = .ok (answer, w') ∧ Walks m w' l ∧
      (call.Fits e.1 → answer = .entry e.1 e.2) ∧
      (¬ call.Fits e.1 → ∃ provided, answer = .failed (.bufferTooSmall e.1.length provided)) := by
  obtain ⟨slot, w', hnext, hslot, hw'⟩ := streams_cons h
  have hread : m.read slot = .ok e.2 := by
    rw [ExpanseOrderedBytesMap.read, hslot]
    rfl
  have hnext' : Walk.next m.inner false w = .ok (some ((encoded e.1).bytes, slot), w') := hnext
  cases call with
  | nextOwned =>
    refine ⟨.entry e.1 e.2, w', ?_, hw', fun _ => rfl, fun hn => absurd trivial hn⟩
    simp [ExpanseOrderedBytesMap.cursorStep, ExpanseOrderedBytesMap.nextOwned, hnext', hread,
      ExpanseOrderedBytesMap.decodeStored, escapeDecode_encoded]
  | nextDecodeInto buf =>
    by_cases hfit : e.1.length ≤ buf.length
    · obtain ⟨buf', hdec, htake⟩ := decodeInto_fits hfit
      refine ⟨.entry e.1 e.2, w', ?_, hw', fun _ => rfl, fun hn => absurd hfit hn⟩
      simp [ExpanseOrderedBytesMap.cursorStep, ExpanseOrderedBytesMap.nextDecodeInto, hnext', hdec, hread,
        htake]
    · obtain ⟨buf', hdec⟩ := decodeInto_small hfit
      refine ⟨.failed (.bufferTooSmall e.1.length buf.length), w', ?_, hw', fun hf => absurd hf hfit,
        fun _ => ⟨_, rfl⟩⟩
      simp [ExpanseOrderedBytesMap.cursorStep, ExpanseOrderedBytesMap.nextDecodeInto, hnext', hdec]
  | nextEntryDecodeInto buf =>
    by_cases hfit : e.1.length ≤ buf.length
    · obtain ⟨buf', hdec, htake⟩ := decodeInto_fits hfit
      refine ⟨.entry e.1 e.2, w', ?_, hw', fun _ => rfl, fun hn => absurd hfit hn⟩
      simp [ExpanseOrderedBytesMap.cursorStep, ExpanseOrderedBytesMap.nextEntryDecodeInto, hnext', hdec,
        hread, htake]
    · obtain ⟨buf', hdec⟩ := decodeInto_small hfit
      refine ⟨.failed (.bufferTooSmall e.1.length buf.length), w', ?_, hw', fun hf => absurd hf hfit,
        fun _ => ⟨_, rfl⟩⟩
      simp [ExpanseOrderedBytesMap.cursorStep, ExpanseOrderedBytesMap.nextEntryDecodeInto, hnext', hdec]

/-- The entries whose call had room for them. -/
def kept : List CursorCall → List (List Byte × ℕ) → List (List Byte × ℕ)
  | [], _ => []
  | _ :: _, [] => []
  | call :: calls, e :: l =>
    match call with
    | .nextOwned => e :: kept calls l
    | .nextDecodeInto buf => if e.1.length ≤ buf.length then e :: kept calls l else kept calls l
    | .nextEntryDecodeInto buf => if e.1.length ≤ buf.length then e :: kept calls l else kept calls l

/-- Every buffer holds the key of the entry its call reaches. -/
def AllFit (calls : List CursorCall) (l : List (List Byte × ℕ)) : Prop :=
  ∀ (i : ℕ) (call : CursorCall) (e : List Byte × ℕ), calls[i]? = some call → l[i]? = some e → call.Fits e.1

theorem allFit_cons {call : CursorCall} {calls : List CursorCall} {e : List Byte × ℕ}
    {l : List (List Byte × ℕ)} :
    AllFit (call :: calls) (e :: l) ↔ call.Fits e.1 ∧ AllFit calls l := by
  constructor
  · intro h
    exact ⟨h 0 call e rfl rfl, fun i c x hc hx => h (i + 1) c x hc hx⟩
  · rintro ⟨hfit, hrest⟩ i c x hc hx
    cases i with
    | zero =>
      cases hc
      cases hx
      exact hfit
    | succ i => exact hrest i c x hc hx

theorem allFit_nil (calls : List CursorCall) : AllFit calls [] := by
  intro i call e _ he
  simp at he

theorem kept_cons_of_fits {call : CursorCall} {calls : List CursorCall} {e : List Byte × ℕ}
    {l : List (List Byte × ℕ)} (h : call.Fits e.1) : kept (call :: calls) (e :: l) = e :: kept calls l := by
  cases call with
  | nextOwned => rfl
  | nextDecodeInto buf => exact if_pos h
  | nextEntryDecodeInto buf => exact if_pos h

theorem kept_cons_of_not_fits {call : CursorCall} {calls : List CursorCall} {e : List Byte × ℕ}
    {l : List (List Byte × ℕ)} (h : ¬ call.Fits e.1) : kept (call :: calls) (e :: l) = kept calls l := by
  cases call with
  | nextOwned => exact absurd trivial h
  | nextDecodeInto buf => exact if_neg h
  | nextEntryDecodeInto buf => exact if_neg h

theorem length_kept_le (calls : List CursorCall) (l : List (List Byte × ℕ)) :
    (kept calls l).length ≤ l.length := by
  induction calls generalizing l with
  | nil => exact Nat.zero_le _
  | cons call calls ih =>
    cases l with
    | nil => exact Nat.zero_le _
    | cons e l =>
      have hle := ih l
      by_cases h : call.Fits e.1
      · rw [kept_cons_of_fits h, List.length_cons, List.length_cons]
        omega
      · rw [kept_cons_of_not_fits h, List.length_cons]
        omega

/-- With enough calls everything is kept exactly when every buffer fits. -/
theorem kept_eq_iff {calls : List CursorCall} {l : List (List Byte × ℕ)} (hlen : l.length ≤ calls.length) :
    kept calls l = l ↔ AllFit calls l := by
  induction calls generalizing l with
  | nil =>
    rw [List.eq_nil_of_length_eq_zero (Nat.le_zero.mp hlen)]
    exact ⟨fun _ => allFit_nil [], fun _ => rfl⟩
  | cons call calls ih =>
    cases l with
    | nil => exact ⟨fun _ => allFit_nil _, fun _ => rfl⟩
    | cons e l =>
      rw [allFit_cons]
      by_cases h : call.Fits e.1
      · rw [kept_cons_of_fits h, List.cons.injEq, ih (by simpa using hlen)]
        simp [h]
      · rw [kept_cons_of_not_fits h]
        refine ⟨fun heq => ?_, fun ⟨hfit, _⟩ => absurd hfit h⟩
        have hle := length_kept_le calls l
        rw [heq, List.length_cons] at hle
        omega

/-- A call with an undersized buffer leaves the cursor where it was. -/
def Stays (m : ExpanseOrderedBytesMap M) (w : Walk M) (call : CursorCall) : Prop :=
  ∀ e w', m.cursorStep w call = .ok (.failed e, w') → w' = w

/-- A run of calls yields the kept entries, and stays put at every failure if there is none. -/
theorem run_kept {l : List (List Byte × ℕ)} (h : Walks m w l) (calls : List CursorCall) :
    (∃ answers w', run m.cursorStep w calls = .ok (answers, w') ∧ yielded answers = kept calls l) ∧
      (AllFit calls l → Along m.cursorStep (Stays m) w calls) := by
  induction calls generalizing w l with
  | nil => exact ⟨⟨[], w, rfl, rfl⟩, fun _ => trivial⟩
  | cons call calls ih =>
    cases l with
    | nil =>
      obtain ⟨w', hstep, hw'⟩ := cursorStep_nil h call
      obtain ⟨⟨answers, w'', hrun, hy⟩, halong⟩ := ih hw'
      have hkept : kept calls [] = [] := List.eq_nil_of_length_eq_zero (Nat.le_zero.mp (length_kept_le calls []))
      refine ⟨⟨.done :: answers, w'', ?_, ?_⟩, fun _ => ⟨fun e u hu => ?_, ?_⟩⟩
      · rw [run, hstep]
        simp only [hrun]
      · rw [hkept] at hy
        exact hy
      · rw [hstep] at hu
        cases hu
      · rw [hstep]
        exact halong (allFit_nil calls)
    | cons e l =>
      obtain ⟨answer, w', hstep, hw', hyes, hno⟩ := cursorStep_cons h call
      obtain ⟨⟨answers, w'', hrun, hy⟩, halong⟩ := ih hw'
      refine ⟨⟨answer :: answers, w'', ?_, ?_⟩, fun hfit => ?_⟩
      · rw [run, hstep]
        simp only [hrun]
      · by_cases hfit : call.Fits e.1
        · rw [kept_cons_of_fits hfit, hyes hfit, ← hy]
          rfl
        · obtain ⟨provided, hanswer⟩ := hno hfit
          rw [kept_cons_of_not_fits hfit, hanswer, ← hy]
          rfl
      · obtain ⟨hfit, hrest⟩ := allFit_cons.mp hfit
        refine ⟨fun err u hu => ?_, ?_⟩
        · rw [hstep, hyes hfit] at hu
          cases hu
        · rw [hstep]
          exact halong hrest

/-- No entry is lost: a failing call leaves the cursor where it was, and the calls, carried on
with buffers of any size, yield every entry once and in order. -/
def Lossless (m : ExpanseOrderedBytesMap M) (w : Walk M) (calls : List CursorCall)
    (l : List (List Byte × ℕ)) : Prop :=
  Along m.cursorStep (Stays m) w calls ∧ ∀ n, l.length ≤ n →
    ∃ answers w', run m.cursorStep w (calls ++ List.replicate n .nextOwned) = .ok (answers, w') ∧
      yielded answers = l

theorem allFit_append (calls : List CursorCall) (n : ℕ) (l : List (List Byte × ℕ)) :
    AllFit (calls ++ List.replicate n .nextOwned) l ↔ AllFit calls l := by
  constructor
  · intro h i call e hc he
    refine h i call e ?_ he
    rw [List.getElem?_append_left (List.getElem?_eq_some_iff.mp hc).1]
    exact hc
  · intro h i call e hc he
    rcases Nat.lt_or_ge i calls.length with hi | hi
    · rw [List.getElem?_append_left hi] at hc
      exact h i call e hc he
    · rw [List.getElem?_append_right hi] at hc
      rw [List.eq_of_mem_replicate (List.mem_of_getElem? hc)]
      trivial

theorem lossless_iff {l : List (List Byte × ℕ)} (h : Walks m w l) (calls : List CursorCall) :
    Lossless m w calls l ↔ AllFit calls l := by
  have hlen : ∀ n, l.length ≤ n → l.length ≤ (calls ++ List.replicate n CursorCall.nextOwned).length := by
    intro n hn
    rw [List.length_append, List.length_replicate]
    omega
  constructor
  · rintro ⟨-, hall⟩
    obtain ⟨answers, w', hrun, hy⟩ := hall l.length le_rfl
    obtain ⟨⟨answers', w'', hrun', hy'⟩, -⟩ := run_kept h (calls ++ List.replicate l.length .nextOwned)
    rw [hrun] at hrun'
    cases hrun'
    rw [hy] at hy'
    exact (allFit_append calls l.length l).mp ((kept_eq_iff (hlen _ le_rfl)).mp hy'.symm)
  · intro hfit
    refine ⟨(run_kept h calls).2 hfit, fun n hn => ?_⟩
    obtain ⟨⟨answers, w', hrun, hy⟩, -⟩ := run_kept h (calls ++ List.replicate n .nextOwned)
    exact ⟨answers, w', hrun, hy.trans
      ((kept_eq_iff (hlen n hn)).mpr ((allFit_append calls n l).mpr hfit))⟩

def valCode : OrderCode Byte ℕ where
  word b := [b.val]
  word_ne_nil b := List.cons_ne_nil b.val []
  diverges {a b} h := ⟨[], a.val, b.val, [], [], rfl, rfl, h⟩

theorem toStr_eq (l : List Byte) : toStr l = valCode.encode l := by
  rw [toStr, OrderCode.encode]
  exact (List.flatMap_singleton' _).symm.trans (List.flatMap_map _ _ _)

theorem encoded_le_iff {a b : List Byte} : (encoded a).bytes ≤ (encoded b).bytes ↔ a ≤ b := by
  simp only [encoded, toStr_eq, escapeEncode_eq]
  rw [valCode.encode_le_iff, escapeCode.encode_le_iff]

theorem encoded_lt_iff {a b : List Byte} : (encoded a).bytes < (encoded b).bytes ↔ a < b := by
  rw [← not_le, ← not_le, encoded_le_iff]

/-- The entries a map holds, in the order of their keys. -/
structure Lists (f : List Byte → Option ℕ) (l : List (List Byte × ℕ)) : Prop where
  ascending : l.Pairwise fun e e' => e.1 < e'.1
  mem_iff : ∀ k v, (k, v) ∈ l ↔ f k = some v

theorem MapHolds.lists {f : List Byte → Option ℕ} (h : MapHolds C m f) : ∃ kids l,
    Rep C m.inner kids ∧ entries kids = l.map stored ∧ Lists f l := by
  obtain ⟨g, ⟨kids, hrep, hg⟩, hc⟩ := h
  have hrange : entries kids ∈ Set.range (List.map stored) := by
    rw [Set.range_list_map]
    intro e he
    obtain ⟨key, hkey, -⟩ := (hc e.1 e.2).mp ((hg e.1 e.2).mpr he)
    exact ⟨(key, e.2), Prod.ext hkey.symm rfl⟩
  obtain ⟨l, hl⟩ := hrange
  refine ⟨kids, l, hrep, hl.symm, ?_, fun k v => ?_⟩
  · have hord := hrep.ordered
    rw [← hl, Ordered, List.pairwise_map] at hord
    exact hord.imp encoded_lt_iff.mp
  · have hmem : (k, v) ∈ l ↔ stored (k, v) ∈ entries kids := by
      rw [← hl, List.mem_map]
      constructor
      · exact fun h => ⟨_, h, rfl⟩
      · rintro ⟨x, hx, heq⟩
        have hfst := encoded_inj (congrArg Prod.fst heq)
        have hsnd := congrArg Prod.snd heq
        rwa [← (Prod.ext hfst hsnd : x = (k, v))]
    rw [hmem]
    refine (hg _ _).symm.trans ((hc _ _).trans ?_)
    constructor
    · rintro ⟨key, heq, hv⟩
      have hkey : k = key := encoded_inj heq
      rwa [hkey]
    · exact fun hv => ⟨k, rfl, hv⟩

/-- The entries at or after the key a cursor starts from. -/
def entriesFrom (start : Option (List Byte)) (l : List (List Byte × ℕ)) : List (List Byte × ℕ) :=
  match start with
  | none => l
  | some key => l.filter fun e => key ≤ e.1

theorem cursorFrom_walks {kids : Kids} {l : List (List Byte × ℕ)} (hrep : Rep C m.inner kids)
    (hl : entries kids = l.map stored) (start : Option (List Byte)) :
    ∃ w, m.cursorFrom start = .ok w ∧ Walks m w (entriesFrom start l) := by
  cases start with
  | none =>
    refine ⟨m.cursor, rfl, ?_⟩
    have hstream := cursor_streams hrep
    rw [hl] at hstream
    exact hstream
  | some key =>
    obtain ⟨w, hw, hstream⟩ := cursorAtOrAfter_streams hrep (encoded key)
    refine ⟨w, hw, ?_⟩
    rw [hl, List.filter_map] at hstream
    have hfun : (fun e : List ℕ × ℕ => decide ((encoded key).bytes ≤ e.1)) ∘ stored =
        fun e : List Byte × ℕ => decide (key ≤ e.1) := by
      funext e
      exact decide_eq_decide.mpr encoded_le_iff
    rw [hfun] at hstream
    exact hstream

/-- Over a word map that is a correct map, a walk over the map of any run that returns, from either
kind of start, loses no entry exactly when every buffer holds the key of the entry its call reaches.
Where no insertion into the word map panics, every run returns. -/
theorem cursor_lossless_iff (M : WordMap) (C : M.Correct) (P : Placement) (ops : List ExpanseOrderedBytesMap.Op)
    (start : Option (List Byte)) (calls : List CursorCall) :
    (C.Total → ∃ (outs : List Unit) (m : ExpanseOrderedBytesMap M),
      run (ExpanseOrderedBytesMap.step P) .new ops = .ok (outs, m)) ∧
    ∀ (outs : List Unit) (m : ExpanseOrderedBytesMap M), run (ExpanseOrderedBytesMap.step P) .new ops =
      .ok (outs, m) →
      ∃ (l : List (List Byte × ℕ)) (w : Walk M),
        Lists (refRun refStep (fun _ => none) ops).2 l ∧ m.cursorFrom start = .ok w ∧
        (Lossless m w calls (entriesFrom start l) ↔ AllFit calls (entriesFrom start l)) := by
  refine ⟨fun hT => ?_, fun outs m hr => ?_⟩
  · have hsim : ∃ m : ExpanseOrderedBytesMap M, run (ExpanseOrderedBytesMap.step P) .new ops =
        .ok ((refRun refStep (fun _ => none) ops).1, m) ∧
          MapHolds C m (refRun refStep (fun _ => none) ops).2 := by
      refine run_refines (R := MapHolds C) (P := fun _ _ => True) (fun m f op h _ => ?_) mapHolds_new
        (along_trivial _ _ ops)
      obtain ⟨⟨out, m'⟩, hs, hout, hm'⟩ := (mapHolds_step P h op).total hT
      exact ⟨m', by rw [hs, ← hout], hm'⟩
    obtain ⟨m, hrun, -⟩ := hsim
    exact ⟨_, m, hrun⟩
  · have hsim : (refRun refStep (fun _ => none) ops).1 = outs ∧
        MapHolds C m (refRun refStep (fun _ => none) ops).2 := by
      refine run_simulates (R := MapHolds C) (P := fun _ _ => True) (fun m f op out m' h _ hs => ?_) mapHolds_new
        (along_trivial _ _ ops) hr
      obtain ⟨hout, hm'⟩ := (mapHolds_step P h op).of_ok hs
      exact ⟨hout.symm, hm'⟩
    have hm := hsim.2
    obtain ⟨kids, l, hrep, hl, hlists⟩ := hm.lists
    obtain ⟨w, hw, hwalks⟩ := cursorFrom_walks hrep hl start
    exact ⟨l, w, hlists, hw, lossless_iff hwalks calls⟩

/-- A walk over one long key, with room for it. -/
theorem cursor_lossless_iff_sortedList :
    ∃ (m : ExpanseOrderedBytesMap WordMap.sortedList) (l : List (List Byte × ℕ))
      (w : Walk WordMap.sortedList) (outs : List Unit),
      run (ExpanseOrderedBytesMap.step Placement.above) .new [.insert [97, 0, 98] 5] = .ok (outs, m) ∧
      Lists (refRun refStep (fun _ => none) [.insert [97, 0, 98] 5]).2 l ∧ m.cursorFrom none = .ok w ∧
      (Lossless m w [.nextDecodeInto [0, 0, 0, 0]] (entriesFrom none l) ↔
        AllFit [.nextDecodeInto [0, 0, 0, 0]] (entriesFrom none l)) := by
  have h := cursor_lossless_iff WordMap.sortedList WordMap.sortedListCorrect Placement.above
    [.insert [97, 0, 98] 5] none [.nextDecodeInto [0, 0, 0, 0]]
  obtain ⟨outs, m, hrun⟩ := h.1 WordMap.sortedListCorrect_total
  obtain ⟨l, w, hrest⟩ := h.2 outs m hrun
  exact ⟨m, l, w, outs, hrun, hrest⟩

/-- A map with one three-byte key, walked with a buffer of one byte: the entry is gone. -/
theorem undersized_buffer_loses_entry : ¬ ∀ (ops : List ExpanseOrderedBytesMap.Op) (calls : List CursorCall)
    (m : ExpanseOrderedBytesMap WordMap.sortedList) (l : List (List Byte × ℕ)) (outs : List Unit),
    run (ExpanseOrderedBytesMap.step Placement.above) .new ops = .ok (outs, m) →
    Lists (refRun refStep (fun _ => none) ops).2 l → Lossless m m.cursor calls l := by
  intro hall
  obtain ⟨⟨u, m⟩, hstep, -, hm⟩ := (mapHolds_step Placement.above
    (mapHolds_new (C := WordMap.sortedListCorrect))
      (.insert [97, 0, 98] 5)).total WordMap.sortedListCorrect_total
  obtain ⟨kids, l, hrep, hl, hlists⟩ := hm.lists
  obtain ⟨w, hw, hwalks⟩ := cursorFrom_walks hrep hl none
  cases hw
  have hrun : run (ExpanseOrderedBytesMap.step Placement.above) .new [.insert [97, 0, 98] 5] =
      .ok ([()], m) := by
    rw [run, hstep]
    rfl
  have hfit := (lossless_iff hwalks [.nextDecodeInto [0]]).mp (hall _ _ m l _ hrun hlists)
  have hmem : (([97, 0, 98], 5) : List Byte × ℕ) ∈ l := (hlists.mem_iff _ _).mpr (by simp [refStep])
  obtain ⟨e, l', rfl⟩ := List.exists_cons_of_ne_nil (List.ne_nil_of_mem hmem)
  -- the map has no other key, so the first entry is this one
  have hkey : e.1 = [97, 0, 98] := by
    have he := (hlists.mem_iff e.1 e.2).mp List.mem_cons_self
    by_contra hne
    simp [refStep, Function.update_of_ne hne] at he
  have hle : e.1.length ≤ 1 := hfit 0 _ e rfl rfl
  rw [hkey] at hle
  exact absurd hle (by decide)

end Expanse.OrderedBytes
