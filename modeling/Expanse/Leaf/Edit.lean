import Expanse.Engine.Edge
import Expanse.Leaf.Memory

/-!
# In-place edits of a leaf

A leaf with room in its capacity class is edited where it is: the keys, and in a map leaf the values
before them, move by one slot, and the new entry is written into the gap. `base` is the position of the
leaf in its allocation.
-/

namespace Expanse.Leaf

open Arrays Packed

/-- `write_packed`, at a width known only at run time. -/
def writePacked (kb : ℕ) (buf : List ℕ) (keys slot val : ℕ) : Except Fault (List ℕ) :=
  if 1 ≤ kb ∧ kb ≤ 7 then writePackedFixed kb buf keys slot val
  else writePackedFixed 8 buf keys slot val

/-- Moves the slots from `pos` on up by one, unless there are none. -/
def moveUp (buf : List ℕ) (base kb pop pos : ℕ) : Except Fault (List ℕ) :=
  if pos < pop then copy buf (base + pos * kb) (base + (pos + 1) * kb) ((pop - pos) * kb) else .ok buf

def setInsertAt (buf : List ℕ) (base kb pop pos key : ℕ) : Except Fault (List ℕ) := do
  let buf ← moveUp buf base kb pop pos
  writePacked kb buf base pos key

def setRemoveAt (buf : List ℕ) (base kb pop pos : ℕ) : Except Fault (List ℕ) :=
  if pos + 1 < pop then copy buf (base + (pos + 1) * kb) (base + pos * kb) ((pop - 1 - pos) * kb)
  else .ok buf

def mapKeysOffset (pop : ℕ) : ℕ := 8 * capClass pop

def mapInsertAt (buf : List ℕ) (base kb pop pos key val : ℕ) : Except Fault (List ℕ) := do
  let keys := base + mapKeysOffset pop
  let buf ← moveUp buf base 8 pop pos
  let buf ← moveUp buf keys kb pop pos
  let buf ← writeUnaligned buf (base + pos * 8) 8 val
  writePackedFixed kb buf keys pos key

def mapRemoveAt (buf : List ℕ) (base kb pop pos : ℕ) : Except Fault (List ℕ) := do
  let keys := base + mapKeysOffset pop
  let buf ← copy buf (base + (pos + 1) * 8) (base + pos * 8) ((pop - 1 - pos) * 8)
  copy buf (keys + (pos + 1) * kb) (keys + pos * kb) ((pop - 1 - pos) * kb)

variable {buf : List ℕ} {base kb pop pos key val : ℕ}

theorem writePacked_ok (hkb : 1 ≤ kb ∧ kb ≤ 7) (h : base + pos * kb + kb ≤ buf.length) :
    writePacked kb buf base pos key = .ok (writeRem base kb buf pos key) := by
  rw [writePacked, if_pos hkb, writePackedFixed_ok hkb h]

theorem moveUp_ok (hpos : pos ≤ pop) (hfit : base + (pop + 1) * kb ≤ buf.length) :
    moveUp buf base kb pop pos =
      .ok (copyWithin buf (base + pos * kb) (base + pop * kb) (base + (pos + 1) * kb)) := by
  have h1 : pos * kb ≤ pop * kb := Nat.mul_le_mul_right kb hpos
  have h2 : (pos + 1) * kb = pos * kb + kb := Nat.succ_mul pos kb
  have h3 : (pop + 1) * kb = pop * kb + kb := Nat.succ_mul pop kb
  have h4 : (pop - pos) * kb = pop * kb - pos * kb := Nat.sub_mul pop pos kb
  rw [moveUp]
  by_cases hlt : pos < pop
  · have hlen : (pop - pos) * kb = base + pop * kb - (base + pos * kb) := by omega
    rw [if_pos hlt, copy_ok (by omega) (by omega), copyWithin, hlen]
  · obtain rfl : pos = pop := by omega
    rw [if_neg hlt, copyWithin, Nat.sub_self, slice, List.take_zero, overwrite]
    simp

theorem setInsertAt_ok (hkb : 1 ≤ kb ∧ kb ≤ 7) (hpos : pos ≤ pop)
    (hfit : base + (pop + 1) * kb ≤ buf.length) :
    setInsertAt buf base kb pop pos key = .ok (openGap base kb pop pos key buf) := by
  have h1 : pos * kb ≤ pop * kb := Nat.mul_le_mul_right kb hpos
  have h2 : (pos + 1) * kb = pos * kb + kb := Nat.succ_mul pos kb
  have h3 : (pop + 1) * kb = pop * kb + kb := Nat.succ_mul pop kb
  have hlen : (copyWithin buf (base + pos * kb) (base + pop * kb) (base + (pos + 1) * kb)).length =
      buf.length := length_copyWithin (by omega) (by omega) (by omega)
  rw [setInsertAt, moveUp_ok hpos hfit]
  exact writePacked_ok hkb (by omega)

/-- The slots after `pos` move down by one. -/
theorem copy_eq_closeGap (hpos : pos < pop) (hfit : base + pop * kb ≤ buf.length) :
    copy buf (base + (pos + 1) * kb) (base + pos * kb) ((pop - 1 - pos) * kb) =
      .ok (closeGap base kb pop pos (pos + 1) buf) := by
  have h1 : (pos + 1) * kb ≤ pop * kb := Nat.mul_le_mul_right kb hpos
  have h2 : (pos + 1) * kb = pos * kb + kb := Nat.succ_mul pos kb
  have h3 : (pop - 1 - pos) * kb = pop * kb - (pos + 1) * kb := by
    rw [Nat.sub_sub, Nat.add_comm 1 pos, Nat.sub_mul]
  have hlen : (pop - 1 - pos) * kb = base + pop * kb - (base + (pos + 1) * kb) := by omega
  rw [copy_ok (by omega) (by omega), closeGap, copyWithin, ← hlen]

theorem setRemoveAt_ok (hpos : pos < pop) (hfit : base + pop * kb ≤ buf.length) :
    setRemoveAt buf base kb pop pos = .ok (closeGap base kb pop pos (pos + 1) buf) := by
  rw [setRemoveAt]
  by_cases hlt : pos + 1 < pop
  · rw [if_pos hlt, copy_eq_closeGap hpos hfit]
  · obtain rfl : pop = pos + 1 := by omega
    rw [if_neg hlt, closeGap, copyWithin, Nat.sub_self, slice, List.take_zero, overwrite]
    simp

theorem mapInsertAt_ok (hkb : 1 ≤ kb ∧ kb ≤ 7) (hpos : pos ≤ pop) (hcls : pop + 1 ≤ capClass pop)
    (hfit : base + mapKeysOffset pop + (pop + 1) * kb ≤ buf.length) :
    mapInsertAt buf base kb pop pos key val =
      .ok (openGap (base + mapKeysOffset pop) kb pop pos key (openGap base 8 pop pos val buf)) := by
  have hoff : mapKeysOffset pop = 8 * capClass pop := rfl
  have h1 : pos * kb ≤ pop * kb := Nat.mul_le_mul_right kb hpos
  have h2 : (pos + 1) * kb = pos * kb + kb := Nat.succ_mul pos kb
  have h3 : (pop + 1) * kb = pop * kb + kb := Nat.succ_mul pop kb
  have hl : (copyWithin buf (base + pos * 8) (base + pop * 8) (base + (pos + 1) * 8)).length =
      buf.length := length_copyWithin (by omega) (by omega) (by omega)
  have hlen : (bytesLE 8 val).length = 8 := length_bytesLE
  have hl' : (openGap base 8 pop pos val buf).length = buf.length := length_openGap hpos (by omega)
  -- the keys move past the value written below them
  have hcomm : copyWithin (openGap base 8 pop pos val buf) (base + mapKeysOffset pop + pos * kb)
      (base + mapKeysOffset pop + pop * kb) (base + mapKeysOffset pop + (pos + 1) * kb) =
      overwrite (copyWithin (copyWithin buf (base + pos * 8) (base + pop * 8) (base + (pos + 1) * 8))
        (base + mapKeysOffset pop + pos * kb) (base + mapKeysOffset pop + pop * kb)
        (base + mapKeysOffset pop + (pos + 1) * kb)) (base + pos * 8) (bytesLE 8 val) :=
    copyWithin_overwrite (by omega) (by omega) (by omega) (by omega) (by omega)
  have hcl : (copyWithin (openGap base 8 pop pos val buf) (base + mapKeysOffset pop + pos * kb)
      (base + mapKeysOffset pop + pop * kb) (base + mapKeysOffset pop + (pos + 1) * kb)).length =
      buf.length := (length_copyWithin (by omega) (by omega) (by omega)).trans hl'
  have hml : (copyWithin (copyWithin buf (base + pos * 8) (base + pop * 8) (base + (pos + 1) * 8))
      (base + mapKeysOffset pop + pos * kb) (base + mapKeysOffset pop + pop * kb)
      (base + mapKeysOffset pop + (pos + 1) * kb)).length = buf.length :=
    (length_copyWithin (by omega) (by omega) (by omega)).trans hl
  rw [mapInsertAt, moveUp_ok hpos (by omega)]
  simp only [bind, Except.bind]
  rw [moveUp_ok hpos (by omega)]
  dsimp only
  rw [writeUnaligned_ok (by omega), ← hcomm]
  dsimp only
  rw [writePackedFixed_ok hkb (by omega)]
  rfl

theorem mapRemoveAt_ok (hpos : pos < pop) (hcls : pop ≤ capClass pop)
    (hfit : base + mapKeysOffset pop + pop * kb ≤ buf.length) :
    mapRemoveAt buf base kb pop pos =
      .ok (closeGap (base + mapKeysOffset pop) kb pop pos (pos + 1)
        (closeGap base 8 pop pos (pos + 1) buf)) := by
  have hoff : mapKeysOffset pop = 8 * capClass pop := rfl
  have hl : (closeGap base 8 pop pos (pos + 1) buf).length = buf.length :=
    length_closeGap (by omega) hpos (by omega)
  rw [mapRemoveAt, copy_eq_closeGap hpos (by omega)]
  exact copy_eq_closeGap hpos (by omega)

end Expanse.Leaf
