import Expanse.Library.Bytes
import Expanse.Library.Ensures
import Expanse.Library.OrderCode

/-!
# The key escape code

A string map ends its keys at a zero byte. Keys with arbitrary bytes are therefore
escaped: 0 and 1 become two bytes that start with 1, every other byte stands for
itself. The code keeps the order of keys and their prefixes, and the decoder accepts
exactly the coded keys.
-/

namespace Expanse.Domain

/-- What the loop of `escape_encode` pushes for one byte. -/
def escapeByte (b : Byte) : List Byte :=
  if b = 0 then [1, 1] else if b = 1 then [1, 2] else [b]

/-- A key without a byte to escape, `!data.iter().any(|&b| b <= 1)`. -/
def Clean (data : List Byte) : Prop := ¬ data.any (· ≤ 1)

instance (data : List Byte) : Decidable (Clean data) := inferInstanceAs (Decidable (¬ _))

def escapeEncode (data : List Byte) : List Byte :=
  if Clean data then data else data.foldl (fun out b => out ++ escapeByte b) []

inductive EscapeDecodeError where
  | trailingEscape
  | invalidEscapeByte (byte : Byte) (offset : ℕ)
  | nulInEncoded (offset : ℕ)
  | bufferTooSmall (required provided : ℕ)
deriving DecidableEq

def unescape (esc : Byte) : Option Byte :=
  if esc = 1 then some 0 else if esc = 2 then some 1 else none

/-- The loop of `escape_decode` at offset `i`, with the bytes that are left. -/
def decodeLoop : ℕ → List Byte → List Byte → Except EscapeDecodeError (List Byte)
  | _, [], out => .ok out
  | i, b :: rest, out =>
    if b = 0 then .error (.nulInEncoded i)
    else if b = 1 then
      match rest with
      | [] => .error .trailingEscape
      | esc :: rest =>
        match unescape esc with
        | some x => decodeLoop (i + 2) rest (out ++ [x])
        | none => .error (.invalidEscapeByte esc (i + 1))
    else decodeLoop (i + 1) rest (out ++ [b])

def escapeDecode (data : List Byte) : Except EscapeDecodeError (List Byte) :=
  if Clean data then .ok data else decodeLoop 0 data []

theorem two_le_iff {b : Byte} : 2 ≤ b ↔ b ≠ 0 ∧ b ≠ 1 := by
  rw [Fin.le_def, Ne, Fin.ext_iff, Ne, Fin.ext_iff]
  show 2 ≤ b.val ↔ ¬ b.val = 0 ∧ ¬ b.val = 1
  omega

theorem byte_cases (b : Byte) : b = 0 ∨ b = 1 ∨ 2 ≤ b := by
  rw [two_le_iff]
  tauto

theorem escapeByte_eq_self {b : Byte} (h : 2 ≤ b) : escapeByte b = [b] := by
  unfold escapeByte
  rw [if_neg (two_le_iff.mp h).1, if_neg (two_le_iff.mp h).2]

/-- The words of two bytes diverge in their order: 0 and 1 at the second byte, all others at the
first one. -/
theorem diverges_escapeByte {a b : Byte} (h : a < b) : Diverges (escapeByte a) (escapeByte b) := by
  rcases byte_cases b with rfl | rfl | hb
  · exact absurd h (Fin.not_lt_zero a)
  · rcases byte_cases a with rfl | rfl | ha
    · exact ⟨[1], 1, 2, [], [], rfl, rfl, by decide⟩
    · exact absurd h (lt_irrefl _)
    · exact absurd (ha.trans_lt h) (by decide)
  · have h1 : (1 : Byte) < b := lt_of_lt_of_le (by decide) hb
    rw [escapeByte_eq_self hb]
    rcases byte_cases a with rfl | rfl | ha
    · exact ⟨[], 1, b, [1], [], rfl, rfl, h1⟩
    · exact ⟨[], 1, b, [2], [], rfl, rfl, h1⟩
    · rw [escapeByte_eq_self ha]
      exact ⟨[], a, b, [], [], rfl, rfl, h⟩

/-- The escape code as an order-preserving symbol code. -/
def escapeCode : OrderCode Byte Byte where
  word := escapeByte
  word_ne_nil := by
    intro b
    unfold escapeByte
    split_ifs <;> simp
  diverges := diverges_escapeByte

@[simp] theorem word_escapeCode (b : Byte) : escapeCode.word b = escapeByte b := rfl

theorem clean_cons {b : Byte} {data : List Byte} : Clean (b :: data) ↔ 2 ≤ b ∧ Clean data := by
  have h : ¬ b ≤ 1 ↔ 2 ≤ b := by
    rw [Fin.le_def, Fin.le_def]
    exact not_le
  unfold Clean
  rw [List.any_cons, Bool.or_eq_true, not_or, decide_eq_true_iff, h]

theorem encode_of_clean {data : List Byte} (h : Clean data) : escapeCode.encode data = data := by
  induction data with
  | nil => rfl
  | cons b data ih =>
    obtain ⟨hb, hd⟩ := clean_cons.mp h
    rw [OrderCode.encode_cons, ih hd, word_escapeCode, escapeByte_eq_self hb, List.singleton_append]

theorem foldl_escapeByte (data out : List Byte) :
    data.foldl (fun out b => out ++ escapeByte b) out = out ++ escapeCode.encode data := by
  induction data generalizing out with
  | nil => simp
  | cons b data ih =>
    rw [List.foldl_cons, ih, OrderCode.encode_cons, word_escapeCode, List.append_assoc]

/-- Both paths of the encoder write the word of every byte. -/
theorem escapeEncode_eq (data : List Byte) : escapeEncode data = escapeCode.encode data := by
  unfold escapeEncode
  split_ifs with h
  · exact (encode_of_clean h).symm
  · exact foldl_escapeByte data []

theorem zero_not_mem_escapeByte (b : Byte) : 0 ∉ escapeByte b := by
  rcases byte_cases b with rfl | rfl | hb
  · decide
  · decide
  · rw [escapeByte_eq_self hb, List.mem_singleton]
    exact (two_le_iff.mp hb).1.symm

theorem zero_not_mem_escapeEncode (data : List Byte) : 0 ∉ escapeEncode data := by
  rw [escapeEncode_eq]
  intro h
  obtain ⟨b, -, hb⟩ := List.mem_flatMap.mp h
  exact zero_not_mem_escapeByte b hb

theorem decodeLoop_cons {b : Byte} (hb : 2 ≤ b) (i : ℕ) (rest out : List Byte) :
    decodeLoop i (b :: rest) out = decodeLoop (i + 1) rest (out ++ [b]) := by
  rw [decodeLoop.eq_def]
  simp only [if_neg (two_le_iff.mp hb).1, if_neg (two_le_iff.mp hb).2]

theorem decodeLoop_escape {esc x : Byte} (hx : unescape esc = some x) (i : ℕ) (rest out : List Byte) :
    decodeLoop i (1 :: esc :: rest) out = decodeLoop (i + 2) rest (out ++ [x]) := by
  rw [decodeLoop.eq_def]
  simp [hx]

theorem decodeLoop_word (b : Byte) (i : ℕ) (rest out : List Byte) :
    ∃ j, decodeLoop i (escapeByte b ++ rest) out = decodeLoop j rest (out ++ [b]) := by
  rcases byte_cases b with rfl | rfl | hb
  · exact ⟨i + 2, decodeLoop_escape rfl i rest out⟩
  · exact ⟨i + 2, decodeLoop_escape rfl i rest out⟩
  · rw [escapeByte_eq_self hb]
    exact ⟨i + 1, decodeLoop_cons hb i rest out⟩

theorem decodeLoop_encode (data out : List Byte) (i : ℕ) :
    decodeLoop i (escapeCode.encode data) out = .ok (out ++ data) := by
  induction data generalizing i out with
  | nil => simp [decodeLoop]
  | cons b data ih =>
    obtain ⟨j, hj⟩ := decodeLoop_word b i (escapeCode.encode data) out
    rw [OrderCode.encode_cons, word_escapeCode, hj, ih, List.append_assoc, List.singleton_append]

theorem unescape_eq_some {esc x : Byte} (h : unescape esc = some x) : escapeByte x = [1, esc] := by
  unfold unescape at h
  split_ifs at h with h1 h2
  · cases h
    subst h1
    rfl
  · cases h
    subst h2
    rfl

theorem decodeLoop_eq_ok {i : ℕ} {s out data : List Byte} (h : decodeLoop i s out = .ok data) :
    ∃ a, data = out ++ a ∧ s = escapeCode.encode a := by
  -- an escaped byte consumes two bytes, so the induction is on the decoder's own recursion
  fun_induction decodeLoop i s out generalizing data with
  | case1 i out =>
    cases h
    exact ⟨[], by simp, rfl⟩
  | case2 => cases h
  | case3 => cases h
  | case4 i out esc rest x hx h0 ih =>
    obtain ⟨a, rfl, rfl⟩ := ih h
    refine ⟨x :: a, by simp, ?_⟩
    rw [OrderCode.encode_cons, word_escapeCode, unescape_eq_some hx]
    rfl
  | case5 => cases h
  | case6 i b rest out h0 h1 ih =>
    obtain ⟨a, rfl, rfl⟩ := ih h
    refine ⟨b :: a, by simp, ?_⟩
    rw [OrderCode.encode_cons, word_escapeCode, escapeByte_eq_self (two_le_iff.mpr ⟨h0, h1⟩)]
    rfl

/-- The decoder succeeds exactly on coded strings, with the string that was coded. -/
theorem escapeDecode_eq_ok {s a : List Byte} : escapeDecode s = .ok a ↔ s = escapeEncode a := by
  rw [escapeEncode_eq]
  unfold escapeDecode
  split_ifs with hs
  · -- a clean string is its own code
    rw [Except.ok.injEq, ← escapeCode.encode_inj, encode_of_clean hs]
  · constructor
    · intro h
      obtain ⟨b, hb, rfl⟩ := decodeLoop_eq_ok h
      rw [hb, List.nil_append]
    · rintro rfl
      exact decodeLoop_encode a [] 0

/-- The escape code is an order isomorphism onto the strings that the decoder accepts. -/
theorem escape_order_isomorphism (a b s : List Byte) :
    0 ∉ escapeEncode a ∧ (a ≤ b ↔ escapeEncode a ≤ escapeEncode b) ∧
      (a <+: b ↔ escapeEncode a <+: escapeEncode b) ∧ escapeDecode (escapeEncode a) = .ok a ∧
      (escapeDecode s = .ok a ↔ s = escapeEncode a) := by
  refine ⟨zero_not_mem_escapeEncode a, ?_, ?_, escapeDecode_eq_ok.mpr rfl, escapeDecode_eq_ok⟩
  · rw [escapeEncode_eq, escapeEncode_eq, OrderCode.encode_le_iff]
  · rw [escapeEncode_eq, escapeEncode_eq, OrderCode.encode_isPrefix_iff]

end Expanse.Domain
