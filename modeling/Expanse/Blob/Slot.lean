import Mathlib
import Expanse.Library.Bytes

/-!
# Value slots and the inline codecs

A `ValueSlot` is a 64-bit word. Its low byte is a tag; a payload of at most seven bytes
stands above the tag, a compressed payload of eight to fourteen bytes in the same 56 bits,
and an arena payload is named by a 32-bit locator with 24 bits of metadata above it.
-/

namespace Expanse.Blob

open Arrays Bytes

/-- `SlotTag`. `inline n` is `Inline0` .. `Inline7`, and `compressedNibble n` is
`CompressedNibble8` .. `CompressedNibble14`. -/
inductive SlotTag where
  | inline (len : Fin 8)
  | arenaMeta
  | external
  | compressedZeroTrim8
  | compressedAlnum8
  | compressedAlnum9
  | compressedNibble (more : Fin 7)
  | rawWord
deriving DecidableEq, Repr

namespace SlotTag

def fromU8 (tag : ℕ) : SlotTag :=
  if h : tag < 8 then .inline ⟨tag, h⟩
  else if tag = 0x10 then .arenaMeta
  else if tag = 0x12 then .external
  else if tag = 0x20 then .compressedZeroTrim8
  else if tag = 0x22 then .compressedAlnum8
  else if tag = 0x23 then .compressedAlnum9
  else if h : 0x28 ≤ tag ∧ tag < 0x2F then .compressedNibble ⟨tag - 0x28, by omega⟩
  else .rawWord

def isCompressedInline : SlotTag → Bool
  | .compressedZeroTrim8 => true
  | .compressedAlnum8 => true
  | .compressedAlnum9 => true
  | .compressedNibble _ => true
  | _ => false

end SlotTag

namespace ValueSlot

/-- `ValueSlot::ARENA_META_MAX`. -/
def ARENA_META_MAX : ℕ := 0xFFFFFF

def tag (raw : ℕ) : SlotTag := .fromU8 (raw % 256)

def newInline (bytes : List Byte) : Option ℕ :=
  if bytes.length > 7 then none else some (orLoop 8 (bytes.map Fin.val) 1 bytes.length)

def newArenaMeta (hotMeta locator : ℕ) : Option ℕ :=
  if hotMeta > ARENA_META_MAX then none else some (0x10 ||| locator <<< 8 ||| hotMeta <<< 40)

def arenaMetaMeta (raw : ℕ) : ℕ := raw / 2 ^ 40 % 2 ^ 24

def arenaMetaLocator (raw : ℕ) : ℕ := raw / 2 ^ 8 % 2 ^ 32

/-- Replace the metadata field, bits 40 to 63. -/
def withArenaMetaMeta (raw new : ℕ) : Option ℕ :=
  if new > ARENA_META_MAX then none else some (raw % 2 ^ 40 ||| new <<< 40)

/-- Bytes `1..=len` of the word in memory: the payload of an inline slot. -/
def inlinePayload (raw len : ℕ) : List Byte := slice (le 8 raw) 1 len

end ValueSlot

namespace Codec

def isAsciiDigit (b : Byte) : Bool := decide (48 ≤ b.val ∧ b.val ≤ 57)

/-- `ALNUM6_LUT`: the digits, the upper case letters, the lower case letters, `-` and `_`. -/
def ALNUM6_LUT : List Byte :=
  [48, 49, 50, 51, 52, 53, 54, 55, 56, 57,
   65, 66, 67, 68, 69, 70, 71, 72, 73, 74,
   75, 76, 77, 78, 79, 80, 81, 82, 83, 84,
   85, 86, 87, 88, 89, 90,
   97, 98, 99, 100, 101, 102, 103, 104, 105, 106,
   107, 108, 109, 110, 111, 112, 113, 114, 115, 116,
   117, 118, 119, 120, 121, 122,
   45, 95]

def alnum6EncodeChar (b : Byte) : Option ℕ :=
  if 48 ≤ b.val ∧ b.val ≤ 57 then some (b.val - 48)
  else if 65 ≤ b.val ∧ b.val ≤ 90 then some (b.val - 65 + 10)
  else if 97 ≤ b.val ∧ b.val ≤ 122 then some (b.val - 97 + 36)
  else if b.val = 45 then some 62
  else if b.val = 95 then some 63
  else none

def compressZeroTrim8 (data : List Byte) : Option ℕ :=
  if data.length ≠ 8 then none
  else if ofLe data < 2 ^ 56 then some (ofLe data <<< 8 ||| 0x20) else none

def decompressZeroTrim8 (raw : ℕ) : List Byte := le 8 (raw / 2 ^ 8)

def compressNibble4 (data : List Byte) : Option ℕ :=
  if ¬ (8 ≤ data.length ∧ data.length ≤ 14) then none
  else if data.all isAsciiDigit then
    some (orLoop 4 (data.map fun b => b.val - 48) 0 0 <<< 8 ||| (0x28 + (data.length - 8)))
  else none

def decompressNibble4 (raw len : ℕ) : List Byte :=
  (List.range len).map fun i => Fin.ofNat 256 (48 + raw / 2 ^ 8 / 2 ^ (4 * i) % 2 ^ 4)

def compressAlnum6 (data : List Byte) : Option ℕ :=
  if data.length ≠ 8 ∧ data.length ≠ 9 then none
  else (data.mapM alnum6EncodeChar).map fun codes =>
    orLoop 6 codes 0 0 <<< 8 ||| if data.length = 8 then 0x22 else 0x23

def decompressAlnum6 (raw len : ℕ) : List Byte :=
  (List.range len).map fun i => ALNUM6_LUT.getD (raw / 2 ^ 8 / 2 ^ (6 * i) % 2 ^ 6) 0

def tryCompressInline (data : List Byte) : Option ℕ :=
  match compressZeroTrim8 data with
  | some slot => some slot
  | none =>
    match compressNibble4 data with
    | some slot => some slot
    | none => compressAlnum6 data

def decompressInline (raw : ℕ) : Option (List Byte) :=
  match ValueSlot.tag raw with
  | .compressedZeroTrim8 => some (decompressZeroTrim8 raw)
  | .compressedNibble more => some (decompressNibble4 raw (8 + more))
  | .compressedAlnum8 => some (decompressAlnum6 raw 8)
  | .compressedAlnum9 => some (decompressAlnum6 raw 9)
  | _ => none

end Codec

/-- The slot-word form of `data` stored with `hotMeta`; none where the value is an arena record. -/
def slotWordValue (data : List Byte) (hotMeta : ℕ) : Option ℕ :=
  if hotMeta ≠ 0 then none
  else if data.length ≤ 7 then ValueSlot.newInline data
  else Codec.tryCompressInline data

def slotWordPayload (raw : ℕ) : Option (List Byte) :=
  match ValueSlot.tag raw with
  | .inline len => some (ValueSlot.inlinePayload raw len)
  | .arenaMeta => none
  | t => if t.isCompressedInline then Codec.decompressInline raw else none

namespace ValueSlot

variable {hotMeta locator raw new : ℕ}

def arenaWord (hotMeta locator : ℕ) : ℕ := 0x10 + 2 ^ 8 * locator + 2 ^ 40 * hotMeta

theorem newArenaMeta_eq (hm : hotMeta ≤ ARENA_META_MAX) (hl : locator < 2 ^ 32) :
    newArenaMeta hotMeta locator = some (arenaWord hotMeta locator) := by
  rw [newArenaMeta, if_neg (by omega), or_shiftLeft (show 0x10 < 2 ^ 8 by decide), or_shiftLeft (by omega),
    arenaWord]

theorem tag_arenaWord : tag (arenaWord hotMeta locator) = .arenaMeta := by
  have hmod : arenaWord hotMeta locator % 256 = 0x10 := by
    rw [arenaWord]
    omega
  rw [tag, hmod]
  rfl

theorem arenaMetaMeta_arenaWord (hm : hotMeta ≤ ARENA_META_MAX) (hl : locator < 2 ^ 32) :
    arenaMetaMeta (arenaWord hotMeta locator) = hotMeta := by
  rw [ARENA_META_MAX] at hm
  rw [arenaMetaMeta, arenaWord]
  omega

theorem arenaMetaLocator_arenaWord (hl : locator < 2 ^ 32) :
    arenaMetaLocator (arenaWord hotMeta locator) = locator := by
  rw [arenaMetaLocator, arenaWord]
  omega

theorem arenaWord_lt (hm : hotMeta ≤ ARENA_META_MAX) (hl : locator < 2 ^ 32) :
    arenaWord hotMeta locator < 2 ^ 64 := by
  rw [ARENA_META_MAX] at hm
  rw [arenaWord]
  omega

theorem eq_arenaWord (ht : tag raw = .arenaMeta) (hr : raw < 2 ^ 64) :
    raw = arenaWord (arenaMetaMeta raw) (arenaMetaLocator raw) := by
  have hmod : raw % 256 = 0x10 := by
    rw [tag, SlotTag.fromU8] at ht
    split_ifs at ht
    assumption
  rw [arenaWord, arenaMetaMeta, arenaMetaLocator]
  omega

theorem arenaMetaLocator_lt : arenaMetaLocator raw < 2 ^ 32 := Nat.mod_lt _ (by decide)

theorem arenaMetaMeta_le : arenaMetaMeta raw ≤ ARENA_META_MAX :=
  Nat.le_of_lt_succ (Nat.mod_lt _ (by decide))

theorem withArenaMetaMeta_eq (ht : tag raw = .arenaMeta) (hr : raw < 2 ^ 64) (hn : new ≤ ARENA_META_MAX) :
    withArenaMetaMeta raw new = some (arenaWord new (arenaMetaLocator raw)) := by
  have hfields := eq_arenaWord ht hr
  rw [withArenaMetaMeta, if_neg (by omega), or_shiftLeft (Nat.mod_lt _ (by decide))]
  congr 1
  rw [arenaWord] at hfields ⊢
  have hl : arenaMetaLocator raw < 2 ^ 32 := arenaMetaLocator_lt
  omega

end ValueSlot

section RoundTrip

open ValueSlot Codec

variable {data : List Byte} {slot hotMeta : ℕ}

theorem shiftLeft_or (packed : ℕ) {t : ℕ} (ht : t < 2 ^ 8) : packed <<< 8 ||| t = t + 2 ^ 8 * packed := by
  rw [Nat.or_comm, or_shiftLeft ht]

theorem tag_add_mul {t : ℕ} (ht : t < 2 ^ 8) (packed : ℕ) : tag (t + 2 ^ 8 * packed) = .fromU8 t := by
  have hmod : (t + 2 ^ 8 * packed) % 256 = t := by omega
  rw [tag, hmod]

theorem add_mul_div {t : ℕ} (ht : t < 2 ^ 8) (packed : ℕ) : (t + 2 ^ 8 * packed) / 2 ^ 8 = packed := by
  rw [Nat.add_mul_div_left _ _ (by decide), Nat.div_eq_of_lt ht, Nat.zero_add]

/-- A slot word holds its payload, and is no arena slot. -/
structure Holds (slot : ℕ) (data : List Byte) : Prop where
  lt : slot < 2 ^ 64
  payload : slotWordPayload slot = some data
  tag_ne : tag slot ≠ .arenaMeta

theorem newInline_holds (h : newInline data = some slot) : Holds slot data := by
  rw [newInline] at h
  split_ifs at h with hlen
  have hsmall : ∀ c ∈ data.map Fin.val, c < 2 ^ 8 := by
    intro c hc
    obtain ⟨b, -, rfl⟩ := List.mem_map.mp hc
    exact b.isLt
  have hpow : data.length < 2 ^ (8 * 1) := by
    norm_num
    omega
  rw [orLoop_eq hsmall hpow, pack_bytes] at h
  obtain rfl := Option.some.inj h
  have hlt : ofLe data < 256 ^ data.length := ofLe_lt
  have hle : 256 ^ data.length ≤ 256 ^ 7 := Nat.pow_le_pow_right (by decide) (by omega)
  have htag : tag (data.length + 2 ^ (8 * 1) * ofLe data) = .inline ⟨data.length, by omega⟩ := by
    rw [Nat.mul_one, tag_add_mul (by omega), SlotTag.fromU8, dif_pos (by omega)]
  refine ⟨by omega, ?_, ?_⟩
  · have hword : le 8 (data.length + 2 ^ (8 * 1) * ofLe data) =
        Fin.ofNat 256 data.length :: le 7 (ofLe data) := by
      rw [le]
      congr 1
      · apply Fin.ext
        rw [Fin.val_ofNat, Fin.val_ofNat]
        omega
      · congr 1
        omega
    simp only [slotWordPayload, htag]
    rw [inlinePayload, hword, slice, List.drop_succ_cons, List.drop_zero, take_le (by omega), le_ofLe]
  · rw [htag]
    exact SlotTag.noConfusion

theorem compressZeroTrim8_holds (h : compressZeroTrim8 data = some slot) : Holds slot data := by
  rw [compressZeroTrim8] at h
  split_ifs at h with hlen hlt
  rw [shiftLeft_or _ (by decide)] at h
  obtain rfl := Option.some.inj h
  have htag : tag (0x20 + 2 ^ 8 * ofLe data) = .compressedZeroTrim8 := tag_add_mul (by decide) _
  refine ⟨by omega, ?_, ?_⟩
  · simp only [slotWordPayload, htag, SlotTag.isCompressedInline, if_true, decompressInline]
    rw [decompressZeroTrim8, add_mul_div (by decide), ← not_not.mp hlen, le_ofLe]
  · rw [htag]
    exact SlotTag.noConfusion

theorem digit_nibble (b : Byte) (h : isAsciiDigit b) :
    b.val - 48 < 2 ^ 4 ∧ Fin.ofNat 256 (48 + (b.val - 48)) = b := by
  rw [isAsciiDigit, decide_eq_true_iff] at h
  refine ⟨by omega, ?_⟩
  apply Fin.ext
  rw [Fin.val_ofNat]
  omega

/-- Reading every field of a packed word back through a table. -/
theorem map_unpack {w : ℕ} {codes : List ℕ} (symbol : ℕ → Byte) (hsmall : ∀ c ∈ codes, c < 2 ^ w)
    {t n : ℕ} (ht : t < 2 ^ 8) (hn : n = codes.length) :
    (List.range n).map (fun i =>
      symbol ((t + 2 ^ 8 * pack w codes) / 2 ^ 8 / 2 ^ (w * i) % 2 ^ w)) = codes.map symbol := by
  subst hn
  rw [add_mul_div ht]
  conv_rhs => rw [← unpack_eq hsmall, List.map_map]
  rfl

theorem compressNibble4_holds (h : compressNibble4 data = some slot) : Holds slot data := by
  rw [compressNibble4] at h
  split_ifs at h with hlen hdigits
  rw [List.all_eq_true] at hdigits
  set codes := data.map fun b => b.val - 48 with hcodes
  have hsmall : ∀ c ∈ codes, c < 2 ^ 4 := by
    intro c hc
    obtain ⟨b, hb, rfl⟩ := List.mem_map.mp hc
    exact (digit_nibble b (hdigits b hb)).1
  have hcount : codes.length = data.length := List.length_map _
  have ht : 0x28 + (data.length - 8) < 2 ^ 8 := by omega
  rw [orLoop_eq hsmall (by decide), shiftLeft_or _ ht, Nat.mul_zero, Nat.pow_zero, Nat.one_mul,
    Nat.zero_add] at h
  obtain rfl := Option.some.inj h
  have htag : tag (0x28 + (data.length - 8) + 2 ^ 8 * pack 4 codes) =
      .compressedNibble ⟨data.length - 8, by omega⟩ := by
    rw [tag_add_mul ht]
    simp only [SlotTag.fromU8]
    rw [dif_neg (by omega), if_neg (by omega), if_neg (by omega), if_neg (by omega), if_neg (by omega),
      if_neg (by omega), dif_pos (by omega)]
    congr 2
    omega
  refine ⟨?_, ?_, ?_⟩
  · have hlt := pack_lt hsmall
    have hle : 2 ^ (4 * codes.length) ≤ 2 ^ 56 := Nat.pow_le_pow_right (by decide) (by omega)
    omega
  · simp only [slotWordPayload, htag, SlotTag.isCompressedInline, if_true, decompressInline]
    rw [decompressNibble4, map_unpack (fun n => Fin.ofNat 256 (48 + n)) hsmall ht (by omega), hcodes,
      List.map_map]
    congr 1
    conv_rhs => rw [← List.map_id data]
    apply List.map_congr_left
    intro b hb
    exact (digit_nibble b (hdigits b hb)).2
  · rw [htag]
    exact SlotTag.noConfusion

theorem alnum6_char : ∀ b : Byte, ∀ c, alnum6EncodeChar b = some c →
    c < 2 ^ 6 ∧ ALNUM6_LUT.getD c 0 = b := by
  intro b c h
  have hall : ∀ b : Byte, ((alnum6EncodeChar b).all fun c => decide (c < 2 ^ 6) &&
      (ALNUM6_LUT.getD c 0 == b)) := by
    decide +kernel
  have hb := hall b
  rw [h, Option.all_some, Bool.and_eq_true, decide_eq_true_iff, beq_iff_eq] at hb
  exact hb

theorem alnum6_codes {codes : List ℕ} (h : data.mapM alnum6EncodeChar = some codes) :
    (∀ c ∈ codes, c < 2 ^ 6) ∧ codes.map (ALNUM6_LUT.getD · 0) = data := by
  induction data generalizing codes with
  | nil =>
    obtain rfl : [] = codes := by simpa using h
    exact ⟨by simp, rfl⟩
  | cons b data ih =>
    rw [List.mapM_cons] at h
    cases hb : alnum6EncodeChar b with
    | none => simp [hb] at h
    | some c =>
      cases hm : data.mapM alnum6EncodeChar with
      | none => simp [hb, hm] at h
      | some cs =>
        obtain rfl : c :: cs = codes := by simpa [hb, hm] using h
        obtain ⟨hsmall, hmap⟩ := ih hm
        obtain ⟨hc, hchar⟩ := alnum6_char b c hb
        refine ⟨?_, by rw [List.map_cons, hmap, hchar]⟩
        intro x hx
        rcases List.mem_cons.mp hx with rfl | hx
        · exact hc
        · exact hsmall x hx

theorem compressAlnum6_holds (h : compressAlnum6 data = some slot) : Holds slot data := by
  rw [compressAlnum6] at h
  split_ifs at h with hlen hlen8
  all_goals
    obtain ⟨codes, hcodes, hslot⟩ := Option.map_eq_some_iff.mp h
    obtain ⟨hsmall, hmap⟩ := alnum6_codes hcodes
    have hcount : codes.length = data.length := by rw [← hmap, List.length_map]
    rw [orLoop_eq hsmall (by decide), shiftLeft_or _ (by decide), Nat.mul_zero, Nat.pow_zero, Nat.one_mul,
      Nat.zero_add] at hslot
    subst hslot
    have hlt := pack_lt hsmall
    have hle : 2 ^ (6 * codes.length) ≤ 2 ^ 54 := Nat.pow_le_pow_right (by decide) (by omega)
  · have htag : tag (0x22 + 2 ^ 8 * pack 6 codes) = .compressedAlnum8 := tag_add_mul (by decide) _
    refine ⟨by omega, ?_, ?_⟩
    · simp only [slotWordPayload, htag, SlotTag.isCompressedInline, if_true, decompressInline]
      rw [decompressAlnum6, map_unpack (ALNUM6_LUT.getD · 0) hsmall (by decide) (by omega), hmap]
    · rw [htag]
      exact SlotTag.noConfusion
  · have htag : tag (0x23 + 2 ^ 8 * pack 6 codes) = .compressedAlnum9 := tag_add_mul (by decide) _
    refine ⟨by omega, ?_, ?_⟩
    · simp only [slotWordPayload, htag, SlotTag.isCompressedInline, if_true, decompressInline]
      rw [decompressAlnum6, map_unpack (ALNUM6_LUT.getD · 0) hsmall (by decide) (by omega), hmap]
    · rw [htag]
      exact SlotTag.noConfusion

theorem tryCompressInline_holds (h : tryCompressInline data = some slot) : Holds slot data := by
  rw [tryCompressInline] at h
  split at h
  case h_1 s hs =>
    obtain rfl := Option.some.inj h
    exact compressZeroTrim8_holds hs
  case h_2 =>
    split at h
    case h_1 s hs =>
      obtain rfl := Option.some.inj h
      exact compressNibble4_holds hs
    case h_2 => exact compressAlnum6_holds h

/-- A value takes the slot word only without metadata, and reads back from it. -/
theorem slotWordValue_holds (h : slotWordValue data hotMeta = some slot) :
    hotMeta = 0 ∧ Holds slot data := by
  rw [slotWordValue] at h
  split_ifs at h with hm hlen
  · exact ⟨not_not.mp hm, newInline_holds h⟩
  · exact ⟨not_not.mp hm, tryCompressInline_holds h⟩

end RoundTrip

end Expanse.Blob
