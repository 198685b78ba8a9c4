import Mathlib
import Expanse.Blob.Slot

/-!
# Which payloads compress

The three codecs share one word. A payload takes the first codec that accepts it, and the
tag names that codec, so the word decompresses to the payload. What they accept is stated
by the bytes alone.
-/

namespace Expanse.Blob.Codec

open Arrays Bytes ValueSlot

variable {data out : List Byte} {slot : ℕ}

/-- `decompress_inline`: the bytes are written at the start of `out`, and their number is returned. -/
def decompressInlineInto (raw : ℕ) (out : List Byte) : Option (ℕ × List Byte) :=
  (decompressInline raw).map fun bytes => (bytes.length, overwrite out 0 bytes)

/-- Eight bytes are below `2 ^ 56` exactly if the last one is zero. -/
theorem ofLe_lt_iff (h : data.length = 8) : ofLe data < 2 ^ 56 ↔ data.getLast? = some 0 := by
  have happend : ∀ (l : List Byte) (b : Byte), ofLe (l ++ [b]) = ofLe l + 256 ^ l.length * b.val := by
    intro l b
    induction l with
    | nil => simp [ofLe]
    | cons c l ih =>
      rw [List.cons_append, ofLe, ih, ofLe, List.length_cons, Nat.pow_succ']
      ring
  obtain ⟨l, b, rfl⟩ : ∃ l b, data = l ++ [b] := by
    rcases List.eq_nil_or_concat data with rfl | ⟨l, b, rfl⟩
    · cases h
    · exact ⟨l, b, List.concat_eq_append⟩
  have hl : l.length = 7 := by simpa using h
  have hlow : ofLe l < 256 ^ l.length := ofLe_lt
  rw [happend, List.getLast?_concat, Option.some_inj]
  rw [hl] at hlow ⊢
  constructor
  · intro hlt
    apply Fin.ext
    show b.val = 0
    omega
  · rintro rfl
    show ofLe l + 256 ^ 7 * 0 < 2 ^ 56
    omega

theorem compressZeroTrim8_accepts :
    (compressZeroTrim8 data).isSome ↔ data.length = 8 ∧ data.getLast? = some 0 := by
  rw [compressZeroTrim8]
  split_ifs with hlen hlt
  · simp [hlen]
  · exact ⟨fun _ => ⟨not_not.mp hlen, (ofLe_lt_iff (not_not.mp hlen)).mp hlt⟩, fun _ => rfl⟩
  · refine ⟨fun h => absurd h (by simp), fun h => absurd ((ofLe_lt_iff h.1).mpr h.2) hlt⟩

theorem compressNibble4_accepts :
    (compressNibble4 data).isSome ↔
      8 ≤ data.length ∧ data.length ≤ 14 ∧ ∀ b ∈ data, 48 ≤ b.val ∧ b.val ≤ 57 := by
  have hdigits : data.all isAsciiDigit = true ↔ ∀ b ∈ data, 48 ≤ b.val ∧ b.val ≤ 57 := by
    simp only [List.all_eq_true, isAsciiDigit, decide_eq_true_eq]
  rw [compressNibble4]
  split_ifs with hlen hall
  · exact ⟨fun _ => ⟨hlen.1, hlen.2, hdigits.mp hall⟩, fun _ => rfl⟩
  · exact ⟨fun h => absurd h (by simp), fun h => absurd (hdigits.mpr h.2.2) hall⟩
  · exact ⟨fun h => absurd h (by simp), fun h => absurd ⟨h.1, h.2.1⟩ hlen⟩

theorem alnum6EncodeChar_accepts (b : Byte) : (alnum6EncodeChar b).isSome ↔ b ∈ ALNUM6_LUT := by
  have hvals : ALNUM6_LUT.map Fin.val =
      List.range' 48 10 ++ List.range' 65 26 ++ List.range' 97 26 ++ [45, 95] := rfl
  rw [← List.mem_map_of_injective Fin.val_injective, hvals]
  simp only [List.mem_append, List.mem_range'_1, List.mem_cons, List.not_mem_nil, or_false]
  rw [alnum6EncodeChar]
  split_ifs
  · exact ⟨fun _ => by omega, fun _ => rfl⟩
  · exact ⟨fun _ => by omega, fun _ => rfl⟩
  · exact ⟨fun _ => by omega, fun _ => rfl⟩
  · exact ⟨fun _ => by omega, fun _ => rfl⟩
  · exact ⟨fun _ => by omega, fun _ => rfl⟩
  · exact ⟨fun h => absurd h (by simp), fun _ => by omega⟩

theorem mapM_alnum6_accepts : (data.mapM alnum6EncodeChar).isSome ↔ ∀ b ∈ data, b ∈ ALNUM6_LUT := by
  induction data with
  | nil => simp
  | cons b data ih =>
    rw [List.forall_mem_cons, ← ih, ← alnum6EncodeChar_accepts, List.mapM_cons]
    cases alnum6EncodeChar b with
    | none => simp
    | some c =>
      cases data.mapM alnum6EncodeChar with
      | none => simp
      | some cs => simp

theorem compressAlnum6_accepts :
    (compressAlnum6 data).isSome ↔ (data.length = 8 ∨ data.length = 9) ∧ ∀ b ∈ data, b ∈ ALNUM6_LUT := by
  rw [compressAlnum6]
  split_ifs with hlen
  · exact ⟨fun h => absurd h (by simp), fun h => by omega⟩
  all_goals
    rw [Option.isSome_map, mapM_alnum6_accepts]
    exact ⟨fun h => ⟨by omega, h⟩, fun h => h.2⟩

/-- The payloads that compress. -/
structure Accepted (data : List Byte) : Prop where
  form : (data.length = 8 ∧ data.getLast? = some 0) ∨
    (8 ≤ data.length ∧ data.length ≤ 14 ∧ ∀ b ∈ data, 48 ≤ b.val ∧ b.val ≤ 57) ∨
    ((data.length = 8 ∨ data.length = 9) ∧ ∀ b ∈ data, b ∈ ALNUM6_LUT)

theorem tryCompressInline_accepts : (tryCompressInline data).isSome ↔ Accepted data := by
  have hor : (tryCompressInline data).isSome ↔ (compressZeroTrim8 data).isSome ∨
      (compressNibble4 data).isSome ∨ (compressAlnum6 data).isSome := by
    rw [tryCompressInline]
    cases compressZeroTrim8 data with
    | some slot => simp
    | none =>
      cases compressNibble4 data with
      | some slot => simp
      | none => simp
  rw [hor, compressZeroTrim8_accepts, compressNibble4_accepts, compressAlnum6_accepts]
  exact ⟨fun h => ⟨h⟩, fun h => h.form⟩

theorem Accepted.length (h : Accepted data) : 8 ≤ data.length ∧ data.length ≤ 14 := by
  rcases h.form with h | h | h
  · omega
  · omega
  · have := h.1
    omega

/-- A slot word that holds eight bytes or more and is no arena slot is compressed. -/
theorem compressed_of_holds (h : Holds slot data) (hlen : 8 ≤ data.length) :
    (tag slot).isCompressedInline = true ∧ decompressInline slot = some data := by
  have hpay := h.payload
  rw [slotWordPayload] at hpay
  cases ht : tag slot with
  | inline len =>
    rw [ht] at hpay
    obtain rfl := Option.some.inj hpay
    rw [inlinePayload, length_slice (by rw [length_le]; omega)] at hlen
    omega
  | arenaMeta => exact absurd ht h.tag_ne
  | external =>
    rw [ht] at hpay
    cases hpay
  | rawWord =>
    rw [ht] at hpay
    cases hpay
  | compressedZeroTrim8 =>
    rw [ht] at hpay
    exact ⟨rfl, hpay⟩
  | compressedAlnum8 =>
    rw [ht] at hpay
    exact ⟨rfl, hpay⟩
  | compressedAlnum9 =>
    rw [ht] at hpay
    exact ⟨rfl, hpay⟩
  | compressedNibble more =>
    rw [ht] at hpay
    exact ⟨rfl, hpay⟩

theorem decompress_of_compress (h : tryCompressInline data = some slot) :
    (tag slot).isCompressedInline = true ∧ decompressInline slot = some data :=
  compressed_of_holds (tryCompressInline_holds h) (tryCompressInline_accepts.mp (by rw [h]; rfl)).length.1

/-- What compresses is a slot word with a compressed tag, and decompresses into a 16-byte buffer as
it was; so two payloads never share a word, and the payloads that compress are those of three forms. -/
theorem compress_round_trip :
    (∀ data slot, tryCompressInline data = some slot → slot < 2 ^ 64 ∧
      (tag slot).isCompressedInline = true ∧ tag slot ≠ .rawWord ∧ tag slot ≠ .arenaMeta ∧
      (∀ len, tag slot ≠ .inline len) ∧ data.length ≤ 16 ∧
      ∀ out : List Byte, out.length = 16 →
        decompressInlineInto slot out = some (data.length, data ++ out.drop data.length)) ∧
    (∀ data data' slot, tryCompressInline data = some slot → tryCompressInline data' = some slot →
      data = data') ∧
    ∀ data, (tryCompressInline data).isSome ↔
      (data.length = 8 ∧ data.getLast? = some 0) ∨
      (8 ≤ data.length ∧ data.length ≤ 14 ∧ ∀ b ∈ data, 48 ≤ b.val ∧ b.val ≤ 57) ∨
      ((data.length = 8 ∨ data.length = 9) ∧ ∀ b ∈ data, b ∈ ALNUM6_LUT) := by
  refine ⟨fun data slot h => ?_, fun data data' slot h h' => ?_, fun data => ?_⟩
  · obtain ⟨htag, hdec⟩ := decompress_of_compress h
    have hlen := (tryCompressInline_accepts.mp (by rw [h]; rfl)).length
    refine ⟨(tryCompressInline_holds h).lt, htag, ?_, ?_, ?_, by omega, fun out hout => ?_⟩
    · intro heq
      rw [heq] at htag
      cases htag
    · intro heq
      rw [heq] at htag
      cases htag
    · intro len heq
      rw [heq] at htag
      cases htag
    · rw [decompressInlineInto, hdec, Option.map_some, overwrite, List.take_zero, List.nil_append, Nat.zero_add]
  · have hdec := (decompress_of_compress h).2
    rw [(decompress_of_compress h').2] at hdec
    exact (Option.some.inj hdec).symm
  · rw [tryCompressInline_accepts]
    exact ⟨fun h => h.form, fun h => ⟨h⟩⟩

end Expanse.Blob.Codec
