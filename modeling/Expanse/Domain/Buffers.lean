import Expanse.Domain.Escape

/-!
# The escape code in caller's buffers

The decoder also runs into a buffer of any length and in place, and the encoder into a
64-byte buffer for short keys. A buffer is a list whose length does not change; an index
outside it stops the encoder. The decoder into a buffer keeps counting once the buffer is
full, and the one in place writes behind the bytes it has read.
-/

namespace Expanse.Domain

/-- The loop of `escape_decode_into` at offset `i`, with the bytes that are left. -/
def decodeIntoLoop : ℕ → List Byte → List Byte → ℕ → Bool → Except EscapeDecodeError ℕ × List Byte
  | _, [], buf, w, tooSmall =>
    (if tooSmall then .error (.bufferTooSmall w buf.length) else .ok w, buf)
  | i, b :: rest, buf, w, tooSmall =>
    if b = 0 then (.error (.nulInEncoded i), buf)
    else if b = 1 then
      match rest with
      | [] => (.error .trailingEscape, buf)
      | esc :: rest =>
        match unescape esc with
        | some decoded =>
          if w < buf.length then decodeIntoLoop (i + 2) rest (buf.set w decoded) (w + 1) tooSmall
          else decodeIntoLoop (i + 2) rest buf (w + 1) true
        | none => (.error (.invalidEscapeByte esc (i + 1)), buf)
    else if w < buf.length then decodeIntoLoop (i + 1) rest (buf.set w b) (w + 1) tooSmall
    else decodeIntoLoop (i + 1) rest buf (w + 1) true

def escapeDecodeInto (data buf : List Byte) : Except EscapeDecodeError ℕ × List Byte :=
  if Clean data then
    if buf.length < data.length then (.error (.bufferTooSmall data.length buf.length), buf)
    else (.ok data.length, data ++ buf.drop data.length)
  else decodeIntoLoop 0 data buf 0 false

/-- A buffer as long as `buf` that starts with as much of `out` as fits. -/
def fill (buf out : List Byte) : List Byte := out.take buf.length ++ buf.drop out.length

theorem length_fill (buf out : List Byte) : (fill buf out).length = buf.length := by
  rw [fill, List.length_append, List.length_take, List.length_drop]
  omega

theorem fill_nil (buf : List Byte) : fill buf [] = buf := by simp [fill]

theorem fill_of_le {buf out : List Byte} (h : out.length ≤ buf.length) :
    fill buf out = out ++ buf.drop out.length := by
  rw [fill, List.take_of_length_le h]

theorem set_fill {buf out : List Byte} (x : Byte) (h : out.length < buf.length) :
    (fill buf out).set out.length x = fill buf (out ++ [x]) := by
  rw [fill_of_le h.le, fill_of_le (by simpa using h), List.set_append_right _ _ le_rfl, Nat.sub_self,
    List.drop_eq_getElem_cons h, List.set_cons_zero, List.length_append, List.length_singleton,
    List.append_assoc, List.singleton_append]

theorem fill_append_of_le {buf out : List Byte} (x : Byte) (h : buf.length ≤ out.length) :
    fill buf (out ++ [x]) = fill buf out := by
  rw [fill, fill, List.take_append_of_le_length h, List.drop_of_length_le h,
    List.drop_of_length_le (by rw [List.length_append]; omega)]

/-- What `escape_decode_into` answers where `escape_decode` answers `r`. -/
def intoBuffer (buf : List Byte) : Except EscapeDecodeError (List Byte) → Except EscapeDecodeError ℕ
  | .error e => .error e
  | .ok out => if buf.length < out.length then .error (.bufferTooSmall out.length buf.length) else .ok out.length

/-- One decoded byte: stored while there is room, counted after that. -/
theorem decodeIntoLoop_push (i : ℕ) (rest buf out : List Byte) (x : Byte) :
    (if out.length < (fill buf out).length then
      decodeIntoLoop i rest ((fill buf out).set out.length x) (out.length + 1) (buf.length < out.length)
    else decodeIntoLoop i rest (fill buf out) (out.length + 1) true) =
      decodeIntoLoop i rest (fill buf (out ++ [x])) (out ++ [x]).length (buf.length < (out ++ [x]).length) := by
  rw [length_fill, List.length_append, List.length_singleton]
  split_ifs with h
  · rw [set_fill x h]
    congr 1
    simp only [decide_eq_decide]
    omega
  · rw [fill_append_of_le x (Nat.not_lt.mp h)]
    congr 1
    simp only [Bool.true_eq, decide_eq_true_iff]
    omega

theorem decodeIntoLoop_eq (i : ℕ) (rest buf out : List Byte) :
    (decodeIntoLoop i rest (fill buf out) out.length (buf.length < out.length)).1 =
        intoBuffer buf (decodeLoop i rest out) ∧
      ∀ a, decodeLoop i rest out = .ok a →
        (decodeIntoLoop i rest (fill buf out) out.length (buf.length < out.length)).2 = fill buf a := by
  fun_induction decodeLoop i rest out with
  | case1 i out =>
    rw [decodeIntoLoop, length_fill]
    refine ⟨?_, fun a ha => by cases ha; rfl⟩
    simp [intoBuffer]
  | case2 i rest out =>
    rw [decodeIntoLoop.eq_def]
    simp [intoBuffer]
  | case3 i out h0 => simp [decodeIntoLoop, intoBuffer]
  | case4 i out esc rest x hx h0 ih =>
    rw [decodeIntoLoop.eq_def]
    simp only [h0, if_false, hx, if_true, decodeIntoLoop_push]
    exact ih
  | case5 i out esc rest hx h0 =>
    rw [decodeIntoLoop.eq_def]
    simp [hx, intoBuffer]
  | case6 i b rest out h0 h1 ih =>
    rw [decodeIntoLoop.eq_def]
    simp only [if_neg h0, if_neg h1, decodeIntoLoop_push]
    exact ih

/-- The answer of `escape_decode_into`, and the buffer where the string decodes. -/
theorem escapeDecodeInto_eq (data buf : List Byte) :
    (escapeDecodeInto data buf).1 = intoBuffer buf (escapeDecode data) ∧
      ∀ a, escapeDecode data = .ok a → a.length ≤ buf.length →
        (escapeDecodeInto data buf).2 = a ++ buf.drop a.length := by
  unfold escapeDecodeInto escapeDecode
  split_ifs with hclean hlt
  · refine ⟨by simp [intoBuffer, hlt], fun a ha hle => ?_⟩
    cases ha
    omega
  · refine ⟨by simp [intoBuffer, hlt], fun a ha hle => ?_⟩
    cases ha
    rfl
  · obtain ⟨hres, hbuf⟩ := decodeIntoLoop_eq 0 data buf []
    rw [fill_nil] at hres hbuf
    refine ⟨hres, fun a ha hle => ?_⟩
    rw [← fill_of_le hle]
    exact hbuf a ha

/-- The buffer with the read and the write position. -/
structure InPlace where
  buf : List Byte
  r : ℕ
  w : ℕ
deriving DecidableEq

/-- One turn of the loop of `escape_decode_in_place`, which runs while `r` is inside. -/
def InPlace.step (s : InPlace) : Except EscapeDecodeError InPlace :=
  match s.buf[s.r]? with
  | none => .ok s
  | some b =>
    if b = 0 then .error (.nulInEncoded s.r)
    else if b = 1 then
      match s.buf[s.r + 1]? with
      | none => .error .trailingEscape
      | some esc =>
        match unescape esc with
        | some x => .ok ⟨s.buf.set s.w x, s.r + 2, s.w + 1⟩
        | none => .error (.invalidEscapeByte esc (s.r + 1))
    else .ok ⟨s.buf.set s.w b, s.r + 1, s.w + 1⟩

/-- A number of turns of the loop. -/
def InPlace.steps : ℕ → InPlace → Except EscapeDecodeError InPlace
  | 0, s => .ok s
  | n + 1, s => s.step.bind (InPlace.steps n)

/-- The decoded length and the buffer. Every turn reads a byte, so there are no more turns than
bytes. -/
def escapeDecodeInPlace (data : List Byte) : Except EscapeDecodeError (ℕ × List Byte) :=
  if Clean data then .ok (data.length, data)
  else (InPlace.steps data.length ⟨data, 0, 0⟩).map fun s => (s.w, s.buf)

/-- Where the loop stands: `out` is written, `rest` is not yet read, and what lies between them
has been read. -/
structure InPlace.At (s : InPlace) (out rest : List Byte) : Prop where
  written : s.buf.take s.w = out
  unread : s.buf.drop s.r = rest
  length : s.w = out.length
  behind : s.w ≤ s.r
  inside : s.r ≤ s.buf.length

theorem InPlace.At.write {s : InPlace} {out rest rest' : List Byte} {k : ℕ} (h : s.At out rest)
    (x : Byte) (hk : 0 < k) (hrest : rest.drop k = rest') (hle : k ≤ rest.length) :
    InPlace.At ⟨s.buf.set s.w x, s.r + k, s.w + 1⟩ (out ++ [x]) rest' := by
  have hlen : rest.length = s.buf.length - s.r := by rw [← h.unread, List.length_drop]
  have hbehind := h.behind
  have hinside := h.inside
  refine ⟨?_, ?_, by simp [h.length], by simp only; omega, by simp only [List.length_set]; omega⟩
  · have hw : s.w < (s.buf.set s.w x).length := by
      rw [List.length_set]
      omega
    simp only
    rw [List.take_succ_eq_append_getElem hw, List.getElem_set_self, List.take_set_of_le le_rfl, h.written]
  · simp only
    rw [List.drop_set_of_lt (by omega), ← List.drop_drop, h.unread, hrest]

/-- With nothing left to read the loop has ended. -/
theorem InPlace.At.steps_nil {s : InPlace} {out : List Byte} (h : s.At out []) (n : ℕ) :
    s.steps n = .ok s := by
  have hnone : s.buf[s.r]? = none := by
    rw [List.getElem?_eq_none_iff]
    exact List.drop_eq_nil_iff.mp h.unread
  induction n with
  | zero => rfl
  | succ n ih =>
    rw [InPlace.steps, InPlace.step, hnone]
    exact ih

theorem InPlace.At.head {s : InPlace} {out rest : List Byte} (h : s.At out rest) (k : ℕ) :
    s.buf[s.r + k]? = rest[k]? := by
  rw [← h.unread, List.getElem?_drop]

theorem steps_eq {s : InPlace} {out rest : List Byte} (n : ℕ) (h : s.At out rest) (hn : rest.length ≤ n) :
    (∀ e, decodeLoop s.r rest out = .error e → s.steps n = .error e) ∧
      ∀ a, decodeLoop s.r rest out = .ok a → ∃ t, s.steps n = .ok t ∧ t.At a [] := by
  induction n generalizing s out rest with
  | zero =>
    have hnil : rest = [] := List.eq_nil_of_length_eq_zero (Nat.le_zero.mp hn)
    subst hnil
    refine ⟨fun e he => by simp [decodeLoop] at he, fun a ha => ?_⟩
    rw [decodeLoop, Except.ok.injEq] at ha
    exact ⟨s, h.steps_nil 0, ha ▸ h⟩
  | succ n ih =>
    have hhead := h.head 0
    have hnext := h.head 1
    rw [Nat.add_zero] at hhead
    cases rest with
    | nil =>
      refine ⟨fun e he => by simp [decodeLoop] at he, fun a ha => ?_⟩
      rw [decodeLoop, Except.ok.injEq] at ha
      exact ⟨s, h.steps_nil (n + 1), ha ▸ h⟩
    | cons b rest =>
      rw [List.getElem?_cons_zero] at hhead
      rw [List.getElem?_cons_succ] at hnext
      rw [decodeLoop.eq_def, InPlace.steps, InPlace.step, hhead]
      simp only
      by_cases h0 : b = 0
      · rw [if_pos h0, if_pos h0]
        exact ⟨fun e he => by cases he; rfl, fun a ha => by cases ha⟩
      rw [if_neg h0, if_neg h0]
      by_cases h1 : b = 1
      · rw [if_pos h1, if_pos h1, hnext]
        cases rest with
        | nil => exact ⟨fun e he => by cases he; rfl, fun a ha => by cases ha⟩
        | cons esc rest =>
          simp only [List.getElem?_cons_zero]
          cases hx : unescape esc with
          | none => exact ⟨fun e he => by cases he; rfl, fun a ha => by cases ha⟩
          | some x =>
            have hlen : rest.length ≤ n := by
              simp only [List.length_cons] at hn
              omega
            exact ih (h.write x (k := 2) (by decide) rfl (by simp)) hlen
      · rw [if_neg h1, if_neg h1]
        exact ih (h.write b (k := 1) (by decide) rfl (by simp)) (by simpa using hn)

theorem at_start (data : List Byte) : InPlace.At ⟨data, 0, 0⟩ [] data :=
  ⟨rfl, rfl, rfl, le_rfl, Nat.zero_le _⟩

theorem escapeDecodeInPlace_eq (data : List Byte) :
    (∀ e, escapeDecode data = .error e → escapeDecodeInPlace data = .error e) ∧
      ∀ a, escapeDecode data = .ok a →
        ∃ buf, escapeDecodeInPlace data = .ok (a.length, buf) ∧ buf.take a.length = a := by
  unfold escapeDecode escapeDecodeInPlace
  split_ifs with hclean
  · refine ⟨fun e he => (by cases he), fun a ha => ?_⟩
    cases ha
    exact ⟨data, rfl, List.take_length⟩
  · obtain ⟨herr, hok⟩ := steps_eq data.length (at_start data) le_rfl
    refine ⟨fun e he => by rw [herr e he]; rfl, fun a ha => ?_⟩
    obtain ⟨t, ht, hat⟩ := hok a ha
    refine ⟨t.buf, ?_, ?_⟩
    · rw [ht, ← hat.length]
      rfl
    · rw [← hat.length]
      exact hat.written

/-- The bytes from the read position on are still those of the input. -/
def InPlace.Intact (data : List Byte) (s : InPlace) : Prop :=
  s.w ≤ s.r ∧ s.buf.length = data.length ∧ s.buf.drop s.r = data.drop s.r

theorem intact_step {data : List Byte} {s t : InPlace} (h : s.Intact data) (hs : s.step = .ok t) :
    t.Intact data := by
  obtain ⟨hle, hlen, hdrop⟩ := h
  have hstore : ∀ (x : Byte) (k : ℕ), 0 < k → InPlace.Intact data ⟨s.buf.set s.w x, s.r + k, s.w + 1⟩ := by
    intro x k hk
    refine ⟨by simp only; omega, by simpa using hlen, ?_⟩
    simp only
    rw [List.drop_set_of_lt (by omega), ← List.drop_drop, hdrop, List.drop_drop]
  unfold InPlace.step at hs
  split at hs
  · cases hs
    exact ⟨hle, hlen, hdrop⟩
  · split at hs
    · cases hs
    · split at hs
      · split at hs
        · cases hs
        · split at hs
          · cases hs
            exact hstore _ 2 (by decide)
          · cases hs
      · cases hs
        exact hstore _ 1 (by decide)

theorem intact_steps {data : List Byte} {s t : InPlace} (n : ℕ) (h : s.Intact data)
    (hs : s.steps n = .ok t) : t.Intact data := by
  induction n generalizing s with
  | zero =>
    cases hs
    exact h
  | succ n ih =>
    rw [InPlace.steps] at hs
    cases hstep : s.step with
    | error e =>
      rw [hstep] at hs
      cases hs
    | ok u =>
      rw [hstep] at hs
      exact ih (intact_step h hstep) hs

/-- A store through a checked index. -/
def store (buf : List Byte) (w : ℕ) (x : Byte) : Option (List Byte) :=
  if w < buf.length then some (buf.set w x) else none

/-- The loop of `encode_into_slice` at write position `w`. -/
def encodeLoop : List Byte → List Byte → ℕ → Option (ℕ × List Byte)
  | [], buf, w => some (w, buf)
  | b :: data, buf, w =>
    if b = 0 then do
      let buf ← store buf w 1
      let buf ← store buf (w + 1) 1
      encodeLoop data buf (w + 2)
    else if b = 1 then do
      let buf ← store buf w 1
      let buf ← store buf (w + 1) 2
      encodeLoop data buf (w + 2)
    else do
      let buf ← store buf w b
      encodeLoop data buf (w + 1)

/-- The encoded length and the buffer; `none` where an index is out of bounds. -/
def encodeIntoSlice (data buf : List Byte) : Option (ℕ × List Byte) := encodeLoop data buf 0

/-- `with_encoded_key`: the view of the key that `f` runs on. -/
def withEncodedKey {R : Type} (key : List Byte) (f : List Byte → R) : Option R :=
  if Clean key then some (f key)
  else if key.length ≤ 32 then do
    let (len, buf) ← encodeIntoSlice key (List.replicate 64 0)
    some (f (buf.take len))
  else some (f (escapeEncode key))

/-- The view of the key that `ExpanseOrderedBytesMap::insert` hands to the string map. -/
def insertKey (key : List Byte) : Option (List Byte) :=
  if Clean key then some key
  else if key.length ≤ 32 then do
    let (len, buf) ← encodeIntoSlice key (List.replicate 64 0)
    some (buf.take len)
  else some (escapeEncode key)

theorem store_fill (buf out : List Byte) (x : Byte) (h : out.length < buf.length) :
    store (fill buf out) out.length x = some (fill buf (out ++ [x])) := by
  rw [store, length_fill, if_pos h, set_fill x h]

theorem store_store_fill {buf out : List Byte} (x y : Byte) (h : out.length + 2 ≤ buf.length) :
    ((store (fill buf out) out.length x).bind fun buf => store buf (out.length + 1) y) =
      some (fill buf (out ++ [x, y])) := by
  have hnext := store_fill buf (out ++ [x]) y (by
    rw [List.length_append, List.length_singleton]
    omega)
  rw [store_fill buf out x (by omega), Option.bind_some]
  simpa using hnext

/-- With twice the room of the key no store is out of bounds. -/
theorem encodeLoop_eq (data buf out : List Byte) (h : out.length + 2 * data.length ≤ buf.length) :
    encodeLoop data (fill buf out) out.length =
      some ((out ++ escapeCode.encode data).length, fill buf (out ++ escapeCode.encode data)) := by
  induction data generalizing out with
  | nil => simp [encodeLoop, OrderCode.encode]
  | cons b data ih =>
    rw [List.length_cons] at h
    rw [OrderCode.encode_cons, word_escapeCode, ← List.append_assoc]
    rcases byte_cases b with rfl | rfl | hb
    · have hlen : (out ++ [1, 1]).length = out.length + 2 := List.length_append
      have hnext := ih (out ++ [1, 1]) (by omega)
      rw [hlen] at hnext
      rw [encodeLoop, if_pos rfl]
      simp only [Option.bind_eq_bind, ← Option.bind_assoc]
      rw [store_store_fill 1 1 (by omega), Option.bind_some]
      exact hnext
    · have hlen : (out ++ [1, 2]).length = out.length + 2 := List.length_append
      have hnext := ih (out ++ [1, 2]) (by omega)
      rw [hlen] at hnext
      rw [encodeLoop, if_neg (by decide), if_pos rfl]
      simp only [Option.bind_eq_bind, ← Option.bind_assoc]
      rw [store_store_fill 1 2 (by omega), Option.bind_some]
      exact hnext
    · have hnext := ih (out ++ [b]) (by
        rw [List.length_append, List.length_singleton]
        omega)
      rw [encodeLoop, if_neg (two_le_iff.mp hb).1, if_neg (two_le_iff.mp hb).2, escapeByte_eq_self hb]
      simp only [Option.bind_eq_bind]
      rw [store_fill buf out b (by omega), Option.bind_some]
      simpa using hnext

theorem length_escapeByte_le (b : Byte) : (escapeByte b).length ≤ 2 := by
  unfold escapeByte
  split_ifs <;> simp

theorem length_escapeEncode_le (data : List Byte) : (escapeEncode data).length ≤ 2 * data.length := by
  rw [escapeEncode_eq]
  induction data with
  | nil => exact le_rfl
  | cons b data ih =>
    rw [OrderCode.encode_cons, List.length_append, List.length_cons, word_escapeCode]
    have := length_escapeByte_le b
    omega

theorem encodeIntoSlice_eq (data buf : List Byte) (h : 2 * data.length ≤ buf.length) :
    ∃ buf', encodeIntoSlice data buf = some ((escapeEncode data).length, buf') ∧
      buf'.take (escapeEncode data).length = escapeEncode data := by
  have hloop := encodeLoop_eq data buf [] (by simpa using h)
  rw [fill_nil, List.nil_append, ← escapeEncode_eq] at hloop
  refine ⟨_, hloop, ?_⟩
  rw [fill_of_le ((length_escapeEncode_le data).trans h), List.take_left]

/-- All three paths hand out the code of the key. -/
theorem withEncodedKey_eq {R : Type} (key : List Byte) (f : List Byte → R) :
    withEncodedKey key f = some (f (escapeEncode key)) := by
  unfold withEncodedKey
  split_ifs with hclean hshort
  · rw [escapeEncode, if_pos hclean]
  · obtain ⟨buf, heq, htake⟩ := encodeIntoSlice_eq key (List.replicate 64 0) (by
      rw [List.length_replicate]
      omega)
    rw [heq]
    simp [htake]
  · rfl

theorem insertKey_eq (key : List Byte) : insertKey key = some (escapeEncode key) := by
  have h : insertKey key = withEncodedKey key id := rfl
  rw [h, withEncodedKey_eq, id]

theorem decodeLoop_ne_bufferTooSmall {i : ℕ} {rest out : List Byte} {required provided : ℕ} :
    decodeLoop i rest out ≠ .error (.bufferTooSmall required provided) := by
  fun_induction decodeLoop i rest out with
  | case1 => simp
  | case2 => simp
  | case3 => simp
  | case4 i out esc rest x hx h0 ih => exact ih
  | case5 => simp
  | case6 i b rest out h0 h1 ih => exact ih

theorem escapeDecode_ne_bufferTooSmall {s : List Byte} {required provided : ℕ} :
    escapeDecode s ≠ .error (.bufferTooSmall required provided) := by
  unfold escapeDecode
  split_ifs
  · simp
  · exact decodeLoop_ne_bufferTooSmall

/-- What the decoders into a buffer and in place owe to `escape_decode`. -/
structure DecodersAgree (s buf : List Byte) : Prop where
  into_ok : ∀ n, (escapeDecodeInto s buf).1 = .ok n ↔
    ∃ a, escapeDecode s = .ok a ∧ a.length ≤ buf.length ∧ n = a.length
  into_bytes : ∀ n, (escapeDecodeInto s buf).1 = .ok n →
    escapeDecode s = .ok ((escapeDecodeInto s buf).2.take n)
  into_small : ∀ required provided, (escapeDecodeInto s buf).1 = .error (.bufferTooSmall required provided) ↔
    ∃ a, escapeDecode s = .ok a ∧ buf.length < a.length ∧ required = a.length ∧ provided = buf.length
  into_error : ∀ e, (∀ required provided, e ≠ .bufferTooSmall required provided) →
    ((escapeDecodeInto s buf).1 = .error e ↔ escapeDecode s = .error e)
  place_ok : ∀ a, escapeDecode s = .ok a ↔
    ∃ n buf', escapeDecodeInPlace s = .ok (n, buf') ∧ n = a.length ∧ buf'.take n = a
  place_error : ∀ e, escapeDecodeInPlace s = .error e ↔ escapeDecode s = .error e
  place_intact : ∀ n t, InPlace.steps n ⟨s, 0, 0⟩ = .ok t → t.Intact s

theorem decodersAgree (s buf : List Byte) : DecodersAgree s buf := by
  obtain ⟨hinto, hbytes⟩ := escapeDecodeInto_eq s buf
  obtain ⟨herr, hok⟩ := escapeDecodeInPlace_eq s
  have hintact : ∀ n t, InPlace.steps n ⟨s, 0, 0⟩ = .ok t → t.Intact s :=
    fun n t => intact_steps n ⟨le_rfl, rfl, rfl⟩
  cases hdec : escapeDecode s with
  | error e =>
    have hne : ∀ required provided, e ≠ .bufferTooSmall required provided := by
      rintro required provided rfl
      exact escapeDecode_ne_bufferTooSmall hdec
    have hplace := herr e hdec
    rw [hdec] at hinto
    change _ = Except.error e at hinto
    refine ⟨fun n => ?_, fun n hn => ?_, fun required provided => ?_, fun e' _ => ?_, fun a => ?_,
      fun e' => ?_, hintact⟩
    · simp [hinto, hdec]
    · simp [hinto] at hn
    · simp [hinto, hdec, hne]
    · simp [hinto, hdec]
    · simp [hplace, hdec]
    · simp [hplace, hdec]
  | ok a =>
    obtain ⟨buf', hplace, htake⟩ := hok a hdec
    have hbytes' := hbytes a hdec
    rw [hdec] at hinto
    change _ = (if buf.length < a.length then _ else _) at hinto
    refine ⟨fun n => ?_, fun n hn => ?_, fun required provided => ?_, fun e' hne => ?_, fun a' => ?_,
      fun e' => ?_, hintact⟩
    · split_ifs at hinto with hlt
      · simp [hinto, hdec]
        omega
      · simp [hinto, hdec, eq_comm]
        omega
    · split_ifs at hinto with hlt
      · simp [hinto] at hn
      · rw [hinto, Except.ok.injEq] at hn
        rw [hbytes' (by omega), ← hn, List.take_left, hdec]
    · split_ifs at hinto with hlt
      · simp [hinto, hdec, hlt, eq_comm]
      · simp [hinto, hdec, hlt]
    · split_ifs at hinto with hlt
      · simp [hinto, hdec, (hne _ _).symm]
      · simp [hinto, hdec]
    · constructor
      · intro h
        rw [hdec, Except.ok.injEq] at h
        subst h
        exact ⟨_, buf', hplace, rfl, htake⟩
      · rintro ⟨n, b, hb, -, hta⟩
        rw [hplace, Except.ok.injEq, Prod.mk.injEq] at hb
        obtain ⟨rfl, rfl⟩ := hb
        rw [hdec, ← hta, htake]
    · simp [hplace, hdec]

/-- The three decoders and the three encoders agree on every input. -/
theorem codecs_agree (s buf key : List Byte) : DecodersAgree s buf ∧
    (∀ {R : Type} (f : List Byte → R), withEncodedKey key f = some (f (escapeEncode key))) ∧
    insertKey key = some (escapeEncode key) :=
  ⟨decodersAgree s buf, withEncodedKey_eq key, insertKey_eq key⟩

end Expanse.Domain
