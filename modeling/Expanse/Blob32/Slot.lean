import Expanse.Library.Bytes

/-!
# The 32-bit slot words

Up to three bytes stand in the word itself, above their number. Anything else is a record of a
slab: the word has its number and 12 bits of metadata.
-/

namespace Expanse.Blob32

open Bytes

inductive SlotTag32 where
  | inline0
  | inline1
  | inline2
  | inline3
  | arena
  | rawWord
deriving DecidableEq

/-- `From<u8>`. -/
def SlotTag32.ofByte (byte : ℕ) : SlotTag32 :=
  if byte = 0x00 then .inline0
  else if byte = 0x01 then .inline1
  else if byte = 0x02 then .inline2
  else if byte = 0x03 then .inline3
  else if byte = 0x10 then .arena
  else .rawWord

namespace ValueSlot32

def tag (raw : ℕ) : SlotTag32 := .ofByte (raw % 256)

/-- The four bytes of an inline word: the length, the payload and zeros. -/
def inlineBytes (bytes : List Byte) : List Byte :=
  Fin.ofNat 256 bytes.length :: (bytes ++ List.replicate (3 - bytes.length) 0)

def newInline (bytes : List Byte) : Option ℕ :=
  if 3 < bytes.length then none else some (ofLe (inlineBytes bytes))

/-- The payload, with zeros up to three bytes, and its length. -/
def inlinePayload (raw : ℕ) : List Byte × ℕ :=
  let bytes := le 4 raw
  let len := (bytes.headD 0).val % 4
  ((bytes.drop 1).take len ++ List.replicate (3 - len) 0, len)

def newArena (hotMeta slabOffset : ℕ) : Option ℕ :=
  if 0x0FFF < slabOffset ∨ 0x0FFF < hotMeta then none
  else some (0x10 ||| slabOffset <<< 8 ||| hotMeta <<< 20)

def slabOffset (raw : ℕ) : ℕ := (raw &&& 0x000FFF00) >>> 8

def hotMeta (raw : ℕ) : ℕ := (raw &&& 0xFFF00000) >>> 20

def arenaWord (hot off : ℕ) : ℕ := 0x10 + 2 ^ 8 * off + 2 ^ 20 * hot

variable {hot off : ℕ} {bytes : List Byte}

theorem newArena_eq (hm : hot ≤ 0x0FFF) (ho : off ≤ 0x0FFF) : newArena hot off = some (arenaWord hot off) := by
  rw [newArena, if_neg (by omega), or_shiftLeft (show 0x10 < 2 ^ 8 by decide), or_shiftLeft (by omega),
    arenaWord]

theorem tag_arenaWord : tag (arenaWord hot off) = .arena := by
  have hmod : arenaWord hot off % 256 = 0x10 := by
    rw [arenaWord]
    omega
  rw [tag, hmod]
  rfl

theorem slabOffset_eq (raw : ℕ) : slabOffset raw = raw / 2 ^ 8 % 2 ^ 12 := by
  rw [slabOffset, Nat.shiftRight_and_distrib, show 0x000FFF00 >>> 8 = 2 ^ 12 - 1 from rfl,
    Nat.and_two_pow_sub_one_eq_mod, Nat.shiftRight_eq_div_pow]

theorem hotMeta_eq (raw : ℕ) : hotMeta raw = raw / 2 ^ 20 % 2 ^ 12 := by
  rw [hotMeta, Nat.shiftRight_and_distrib, show 0xFFF00000 >>> 20 = 2 ^ 12 - 1 from rfl,
    Nat.and_two_pow_sub_one_eq_mod, Nat.shiftRight_eq_div_pow]

theorem slabOffset_arenaWord (ho : off ≤ 0x0FFF) : slabOffset (arenaWord hot off) = off := by
  rw [slabOffset_eq, arenaWord]
  omega

theorem hotMeta_arenaWord (hm : hot ≤ 0x0FFF) (ho : off ≤ 0x0FFF) : hotMeta (arenaWord hot off) = hot := by
  rw [hotMeta_eq, arenaWord]
  omega

theorem arenaWord_lt (hm : hot ≤ 0x0FFF) (ho : off ≤ 0x0FFF) : arenaWord hot off < 2 ^ 32 := by
  rw [arenaWord]
  omega

theorem length_inlineBytes (h : bytes.length ≤ 3) : (inlineBytes bytes).length = 4 := by
  rw [inlineBytes, List.length_cons, List.length_append, List.length_replicate]
  omega

theorem inline_lt (h : bytes.length ≤ 3) : ofLe (inlineBytes bytes) < 2 ^ 32 := by
  have hlt := @ofLe_lt (inlineBytes bytes)
  rw [length_inlineBytes h] at hlt
  exact hlt

theorem tag_inline (h : bytes.length ≤ 3) : tag (ofLe (inlineBytes bytes)) = .ofByte bytes.length := by
  have hmod : ofLe (inlineBytes bytes) % 256 = bytes.length := by
    rw [inlineBytes, ofLe, Fin.val_ofNat]
    omega
  rw [tag, hmod]

theorem inlinePayload_inline (h : bytes.length ≤ 3) :
    inlinePayload (ofLe (inlineBytes bytes)) = (bytes ++ List.replicate (3 - bytes.length) 0, bytes.length) := by
  have hle : le 4 (ofLe (inlineBytes bytes)) = inlineBytes bytes := by
    have hround := @le_ofLe (inlineBytes bytes)
    rwa [length_inlineBytes h] at hround
  have hlen : ((inlineBytes bytes).headD 0).val % 4 = bytes.length := by
    rw [inlineBytes, List.headD_cons, Fin.val_ofNat]
    omega
  rw [inlinePayload, hle, hlen, inlineBytes, List.drop_succ_cons, List.drop_zero, List.take_left]

end ValueSlot32

end Expanse.Blob32
