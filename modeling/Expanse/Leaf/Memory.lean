import Expanse.Library.Packed

/-!
# Byte memory of a leaf

An allocation is a list of bytes, and an address is a position in it. Every access checks its
bounds, an atomic access its alignment too, since allocations are 8-aligned. A packed key is read
and written in pieces of four, two and one bytes, by width; the lemmas say that this is the number
packed at that slot.
-/

namespace Expanse.Leaf

open Arrays Packed

/-- What the source leaves undefined, or panics on. -/
inductive Fault where
  /-- An access past the allocation. -/
  | outOfBounds
  /-- An atomic access at an address that is no multiple of its size. -/
  | misaligned
  /-- A word of a local buffer read before it is written. -/
  | uninit
  /-- An index past a local buffer or a slice, or a key width that no leaf has. -/
  | panic
  deriving DecidableEq, Repr

def load (buf : List ℕ) (p n : ℕ) : Except Fault (List ℕ) :=
  if p + n ≤ buf.length then .ok (slice buf p n) else .error .outOfBounds

def store (buf : List ℕ) (p : ℕ) (bs : List ℕ) : Except Fault (List ℕ) :=
  if p + bs.length ≤ buf.length then .ok (overwrite buf p bs) else .error .outOfBounds

/-- `read_unaligned` of an integer of `n` bytes. -/
def readUnaligned (buf : List ℕ) (p n : ℕ) : Except Fault ℕ := do
  let bs ← load buf p n
  return ofBytes bs

/-- `write_unaligned` of the low `n` bytes of `val`. -/
def writeUnaligned (buf : List ℕ) (p n val : ℕ) : Except Fault (List ℕ) :=
  store buf p (bytesLE n val)

/-- `core::ptr::copy`. -/
def copy (buf : List ℕ) (src dst n : ℕ) : Except Fault (List ℕ) := do
  let bs ← load buf src n
  store buf dst bs

/-- A relaxed atomic load of `n` bytes. -/
def loadAtomic (buf : List ℕ) (p n : ℕ) : Except Fault ℕ :=
  if p % n = 0 then readUnaligned buf p n else .error .misaligned

/-- A relaxed atomic store of the low `n` bytes of `val`. -/
def storeAtomic (buf : List ℕ) (p n val : ℕ) : Except Fault (List ℕ) :=
  if p % n = 0 then writeUnaligned buf p n val else .error .misaligned

/-- Masks a key down to its low `kb` bytes. -/
def keyLow (key kb : ℕ) : ℕ := if 8 ≤ kb then key else key &&& (2 ^ (8 * kb) - 1)

def readPackedFixed (kb : ℕ) (buf : List ℕ) (keys slot : ℕ) : Except Fault ℕ :=
  match kb with
  | 1 => readUnaligned buf (keys + slot) 1
  | 2 => readUnaligned buf (keys + slot * 2) 2
  | 3 => do
    let p := keys + slot * 3
    let low16 ← readUnaligned buf p 2
    let high8 ← readUnaligned buf (p + 2) 1
    return low16 ||| high8 <<< 16
  | 4 => readUnaligned buf (keys + slot * 4) 4
  | 5 => do
    let p := keys + slot * 5
    let low32 ← readUnaligned buf p 4
    let high8 ← readUnaligned buf (p + 4) 1
    return low32 ||| high8 <<< 32
  | 6 => do
    let p := keys + slot * 6
    let low32 ← readUnaligned buf p 4
    let high16 ← readUnaligned buf (p + 4) 2
    return low32 ||| high16 <<< 32
  | 7 => do
    let p := keys + slot * 7
    let low32 ← readUnaligned buf p 4
    let mid16 ← readUnaligned buf (p + 4) 2
    let high8 ← readUnaligned buf (p + 6) 1
    return low32 ||| mid16 <<< 32 ||| high8 <<< 48
  | kb => do
    let bs ← load buf (keys + slot * kb) kb
    return ofBytes (overwrite (List.replicate 8 0) 0 bs)

def writePackedFixed (kb : ℕ) (buf : List ℕ) (keys slot val : ℕ) : Except Fault (List ℕ) :=
  match kb with
  | 1 => writeUnaligned buf (keys + slot) 1 val
  | 2 => writeUnaligned buf (keys + slot * 2) 2 val
  | 3 => do
    let p := keys + slot * 3
    let buf ← writeUnaligned buf p 2 val
    writeUnaligned buf (p + 2) 1 (val >>> 16)
  | 4 => writeUnaligned buf (keys + slot * 4) 4 val
  | 5 => do
    let p := keys + slot * 5
    let buf ← writeUnaligned buf p 4 val
    writeUnaligned buf (p + 4) 1 (val >>> 32)
  | 6 => do
    let p := keys + slot * 6
    let buf ← writeUnaligned buf p 4 val
    writeUnaligned buf (p + 4) 2 (val >>> 32)
  | 7 => do
    let p := keys + slot * 7
    let buf ← writeUnaligned buf p 4 val
    let buf ← writeUnaligned buf (p + 4) 2 (val >>> 32)
    writeUnaligned buf (p + 6) 1 (val >>> 48)
  | kb => store buf (keys + slot * kb) ((bytesLE 8 val).take kb)

variable {buf bs as : List ℕ} {keys p n m kb slot val i : ℕ}

theorem load_ok (h : p + n ≤ buf.length) : load buf p n = .ok (slice buf p n) := if_pos h

theorem store_ok (h : p + bs.length ≤ buf.length) : store buf p bs = .ok (overwrite buf p bs) :=
  if_pos h

theorem readUnaligned_ok (h : p + n ≤ buf.length) :
    readUnaligned buf p n = .ok (ofBytes (slice buf p n)) := by
  rw [readUnaligned, load_ok h]
  rfl

theorem writeUnaligned_ok (h : p + n ≤ buf.length) :
    writeUnaligned buf p n val = .ok (overwrite buf p (bytesLE n val)) :=
  store_ok (by rwa [length_bytesLE])

theorem copy_ok (hs : p + n ≤ buf.length) (hd : m + n ≤ buf.length) :
    copy buf p m n = .ok (overwrite buf m (slice buf p n)) := by
  rw [copy, load_ok hs]
  exact store_ok (by rwa [length_slice hs])

theorem loadAtomic_ok (ha : p % n = 0) (h : p + n ≤ buf.length) :
    loadAtomic buf p n = .ok (ofBytes (slice buf p n)) := by
  rw [loadAtomic, if_pos ha, readUnaligned_ok h]

theorem storeAtomic_ok (ha : p % n = 0) (h : p + n ≤ buf.length) :
    storeAtomic buf p n val = .ok (overwrite buf p (bytesLE n val)) := by
  rw [storeAtomic, if_pos ha, writeUnaligned_ok h]

theorem keyLow_eq (hkb : kb ≤ 7) : keyLow val kb = val % 256 ^ kb := by
  rw [keyLow, if_neg (by omega), Nat.and_two_pow_sub_one_eq_mod, two_pow_eight_mul]

/-- A number written in two pieces. -/
theorem writeUnaligned_add (h : p + (n + m) ≤ buf.length) :
    (do let buf ← writeUnaligned buf p n val
        writeUnaligned buf (p + n) m (val >>> (8 * n))) = writeUnaligned buf p (n + m) val := by
  have hn : (bytesLE n val).length = n := length_bytesLE
  have hm : (bytesLE m (val >>> (8 * n))).length = m := length_bytesLE
  have hl : (overwrite buf p (bytesLE n val)).length = buf.length := length_overwrite (by omega)
  have hjoin : overwrite (overwrite buf p (bytesLE n val)) (p + (bytesLE n val).length)
      (bytesLE m (val >>> (8 * n))) = overwrite buf p (bytesLE n val ++ bytesLE m (val >>> (8 * n))) :=
    overwrite_overwrite (by omega)
  rw [hn, ← bytesLE_add] at hjoin
  rw [writeUnaligned_ok (by omega), writeUnaligned_ok h, ← hjoin]
  exact writeUnaligned_ok (by omega)

theorem readPackedFixed_ok (hkb : 1 ≤ kb ∧ kb ≤ 7) (hb : ∀ b ∈ buf, b < 256)
    (h : keys + slot * kb + kb ≤ buf.length) :
    readPackedFixed kb buf keys slot = .ok (readRem keys kb buf slot) := by
  obtain ⟨h1, h7⟩ := hkb
  have hadd : ∀ {p n m : ℕ}, p + n ≤ buf.length → ofBytes (slice buf p (n + m)) =
      ofBytes (slice buf p n) ||| ofBytes (slice buf (p + n) m) <<< (8 * n) :=
    fun hn => ofBytes_slice_add hb hn
  unfold readRem cell
  interval_cases kb <;> simp only [readPackedFixed, Nat.mul_one] at h ⊢
  · exact readUnaligned_ok h
  · exact readUnaligned_ok h
  · rw [readUnaligned_ok (by omega), readUnaligned_ok (by omega), hadd (n := 2) (m := 1) (by omega)]
    rfl
  · exact readUnaligned_ok h
  · rw [readUnaligned_ok (by omega), readUnaligned_ok (by omega), hadd (n := 4) (m := 1) (by omega)]
    rfl
  · rw [readUnaligned_ok (by omega), readUnaligned_ok (by omega), hadd (n := 4) (m := 2) (by omega)]
    rfl
  · rw [readUnaligned_ok (by omega), readUnaligned_ok (by omega), readUnaligned_ok (by omega),
      hadd (n := 6) (m := 1) (by omega), hadd (n := 4) (m := 2) (by omega)]
    rfl

theorem writePackedFixed_ok (hkb : 1 ≤ kb ∧ kb ≤ 7) (h : keys + slot * kb + kb ≤ buf.length) :
    writePackedFixed kb buf keys slot val = .ok (writeRem keys kb buf slot val) := by
  obtain ⟨h1, h7⟩ := hkb
  rw [writeRem, ← writeUnaligned_ok h]
  interval_cases kb <;> simp only [writePackedFixed, Nat.mul_one] at h ⊢
  · exact writeUnaligned_add (n := 2) (m := 1) h
  · exact writeUnaligned_add (n := 4) (m := 1) h
  · exact writeUnaligned_add (n := 4) (m := 2) h
  · have hlow : (do
        let buf ← writeUnaligned buf (keys + slot * 7) 4 val
        writeUnaligned buf (keys + slot * 7 + 4) 2 (val >>> (8 * 4))) =
        writeUnaligned buf (keys + slot * 7) 6 val := writeUnaligned_add (m := 2) (by omega)
    rw [← writeUnaligned_add (n := 6) (m := 1) h, ← hlow, bind_assoc]

end Expanse.Leaf
