import Expanse.Leaf.Shared

/-!
# The shared edits are the plain ones

The pieces of a tail are its bytes, the local buffer holds the bytes of the covering words, and the words
stored back are the edited bytes up to the end of the area. So a rewrite edits the covering bytes and
nothing else, and an edit that moves the bytes the plain one moves leaves the buffer the plain one leaves.
-/

namespace Expanse.Leaf.SharedKeys

open Arrays Packed

variable {buf bytes ws out : List ℕ} {p t n o k v w w0 keys i start stop x base : ℕ}

/-- How many bytes are done after the piece of `n` bytes. -/
def pieceEnd (t n o : ℕ) : ℕ := if t &&& n ≠ 0 then o + n else o

/-- The pieces of a tail are aligned one after another, and add up to it. -/
theorem pieceEnd_sum (ht : t < 8) :
    pieceEnd t 4 0 ≤ t ∧ pieceEnd t 4 0 % 2 = 0 ∧ pieceEnd t 2 (pieceEnd t 4 0) ≤ t ∧
      pieceEnd t 1 (pieceEnd t 2 (pieceEnd t 4 0)) = t := by
  interval_cases t <;> decide

theorem loadPiece_ok (hb : ∀ b ∈ buf, b < 256) (ha : (p + o) % n = 0)
    (hfit : p + pieceEnd t n o ≤ buf.length) :
    loadPiece buf p t n (ofBytes (slice buf p o), o) =
      .ok (ofBytes (slice buf p (pieceEnd t n o)), pieceEnd t n o) := by
  unfold pieceEnd at hfit ⊢
  rw [loadPiece]
  by_cases hbit : t &&& n ≠ 0
  · rw [if_pos hbit] at hfit ⊢
    rw [if_pos hbit, loadAtomic_ok ha (by omega), ofBytes_slice_add hb (by omega), Nat.mul_comm 8 o]
    rfl
  · rw [if_neg hbit, if_neg hbit]

theorem tailLoad_ok (hb : ∀ b ∈ buf, b < 256) (hp : p % 8 = 0) (ht : t < 8) (hfit : p + t ≤ buf.length) :
    tailLoad buf p t = .ok (ofBytes (slice buf p t)) := by
  obtain ⟨h4, heven, h2, h1⟩ := pieceEnd_sum ht
  have e4 : loadPiece buf p t 4 (0, 0) =
      .ok (ofBytes (slice buf p (pieceEnd t 4 0)), pieceEnd t 4 0) := by
    have h : loadPiece buf p t 4 (ofBytes (slice buf p 0), 0) =
        .ok (ofBytes (slice buf p (pieceEnd t 4 0)), pieceEnd t 4 0) :=
      loadPiece_ok hb (by omega) (by omega)
    rwa [slice, List.take_zero] at h
  have e2 := loadPiece_ok (t := t) (n := 2) hb (show (p + pieceEnd t 4 0) % 2 = 0 by omega) (by omega)
  have e1 := loadPiece_ok (t := t) (n := 1) hb
    (Nat.mod_one (p + pieceEnd t 2 (pieceEnd t 4 0))) (by omega)
  rw [h1] at e1
  rw [tailLoad, e4]
  simp only [bind, Except.bind, e2, e1, pure, Except.pure]

theorem storePiece_ok (ha : (p + o) % n = 0) (hfit : p + pieceEnd t n o ≤ buf.length) :
    storePiece p t v n (overwrite buf p (bytesLE o v), o) =
      .ok (overwrite buf p (bytesLE (pieceEnd t n o) v), pieceEnd t n o) := by
  unfold pieceEnd at hfit ⊢
  rw [storePiece]
  by_cases hbit : t &&& n ≠ 0
  · rw [if_pos hbit] at hfit ⊢
    have hl : (overwrite buf p (bytesLE o v)).length = buf.length :=
      length_overwrite (by rw [length_bytesLE]; omega)
    have hjoin : overwrite (overwrite buf p (bytesLE o v)) (p + (bytesLE o v).length)
        (bytesLE n (v >>> (8 * o))) = overwrite buf p (bytesLE o v ++ bytesLE n (v >>> (8 * o))) :=
      overwrite_overwrite (by rw [length_bytesLE, length_bytesLE]; omega)
    rw [length_bytesLE, ← bytesLE_add, Nat.mul_comm 8 o] at hjoin
    rw [if_pos hbit]
    dsimp only
    rw [storeAtomic_ok ha (by omega), hjoin]
    rfl
  · rw [if_neg hbit, if_neg hbit]

theorem overwrite_nil (buf : List ℕ) (k : ℕ) : overwrite buf k [] = buf := by
  simp [overwrite]

theorem tailStore_ok (hp : p % 8 = 0) (ht : t < 8) (hfit : p + t ≤ buf.length) :
    tailStore buf p t v = .ok (overwrite buf p (bytesLE t v)) := by
  obtain ⟨h4, heven, h2, h1⟩ := pieceEnd_sum ht
  have e4 : storePiece p t v 4 (buf, 0) =
      .ok (overwrite buf p (bytesLE (pieceEnd t 4 0) v), pieceEnd t 4 0) := by
    have h : storePiece p t v 4 (overwrite buf p (bytesLE 0 v), 0) =
        .ok (overwrite buf p (bytesLE (pieceEnd t 4 0) v), pieceEnd t 4 0) :=
      storePiece_ok (by omega) (by omega)
    have hnil : bytesLE 0 v = [] := rfl
    rwa [hnil, overwrite_nil] at h
  have e2 : storePiece p t v 2 (overwrite buf p (bytesLE (pieceEnd t 4 0) v), pieceEnd t 4 0) =
      .ok (overwrite buf p (bytesLE (pieceEnd t 2 (pieceEnd t 4 0)) v), pieceEnd t 2 (pieceEnd t 4 0)) :=
    storePiece_ok (by omega) (by omega)
  have e1 : storePiece p t v 1 (overwrite buf p (bytesLE (pieceEnd t 2 (pieceEnd t 4 0)) v),
      pieceEnd t 2 (pieceEnd t 4 0)) =
      .ok (overwrite buf p (bytesLE (pieceEnd t 1 (pieceEnd t 2 (pieceEnd t 4 0))) v),
        pieceEnd t 1 (pieceEnd t 2 (pieceEnd t 4 0))) := storePiece_ok (Nat.mod_one _) (by omega)
  rw [h1] at e1
  rw [tailStore, e4]
  simp only [bind, Except.bind, e2, e1, pure, Except.pure]

/-- A local buffer whose first words are `ws`. -/
def filled (ws : List ℕ) : List (Option ℕ) := ws.map some ++ List.replicate (32 - ws.length) none

theorem writeLocal_filled (h : ws.length < 32) :
    writeLocal (filled ws) ws.length v = .ok (filled (ws ++ [v])) := by
  have hl : (filled ws).length = 32 := by
    rw [filled, List.length_append, List.length_map, List.length_replicate]
    omega
  have hrest : 32 - ws.length = 32 - (ws.length + 1) + 1 := by omega
  rw [writeLocal, if_pos (by omega), filled, List.set_append_right _ _ (by rw [List.length_map]),
    List.length_map, Nat.sub_self, hrest, List.replicate_succ, List.set_cons_zero, filled,
    List.map_append, List.length_append, List.append_assoc]
  rfl

theorem localBytes_filled (ws : List ℕ) (rest : List (Option ℕ)) :
    localBytes (ws.map some ++ rest) ws.length = .ok (ws.flatMap (bytesLE 8)) := by
  induction ws with
  | nil => simp [localBytes]
  | cons v ws ih =>
    rw [List.map_cons, List.cons_append, List.length_cons, localBytes, ih]
    rfl

/-- After `k` words are loaded, the buffer holds the first `k` numbers of eight bytes. -/
theorem loadWords_ok (hk8 : keys % 8 = 0) (hn : k + n ≤ 32)
    (hfit : keys + (w0 + k + n) * 8 ≤ buf.length) :
    loadWords buf keys w0 n (w0 + k) (filled (keysOf (keys + w0 * 8) 8 k buf)) =
      .ok (filled (keysOf (keys + w0 * 8) 8 (k + n) buf)) := by
  induction n generalizing k with
  | zero => rfl
  | succ n ih =>
    have hlen : (keysOf (keys + w0 * 8) 8 k buf).length = k := length_keysOf
    have hword : ofBytes (slice buf (keys + (w0 + k) * 8) 8) = readRem (keys + w0 * 8) 8 buf k := by
      rw [readRem, cell]
      congr 2
      omega
    have hwrite := writeLocal_filled (v := readRem (keys + w0 * 8) 8 buf k)
      (show (keysOf (keys + w0 * 8) 8 k buf).length < 32 by omega)
    rw [hlen, ← keysOf_succ] at hwrite
    rw [loadWords, loadAtomic_ok (by omega) (by omega), hword]
    simp only [bind, Except.bind, Nat.add_sub_cancel_left, hwrite]
    rw [Nat.add_assoc w0 k 1, ih (by omega) (by omega), Nat.add_right_comm, Nat.add_assoc]

theorem storeWords_ok (hb : ∀ b ∈ bytes, b < 256) (hk8 : keys % 8 = 0) (hlen : (k + n) * 8 ≤ bytes.length)
    (hfit : keys + (w0 + k + n) * 8 ≤ buf.length) :
    storeWords bytes keys w0 n (w0 + k) (overwrite buf (keys + w0 * 8) (bytes.take (k * 8))) =
      .ok (overwrite buf (keys + w0 * 8) (bytes.take ((k + n) * 8))) := by
  induction n generalizing k with
  | zero => rfl
  | succ n ih =>
    have htl : (bytes.take (k * 8)).length = k * 8 := by
      rw [List.length_take]
      omega
    have hl : (overwrite buf (keys + w0 * 8) (bytes.take (k * 8))).length = buf.length :=
      length_overwrite (by omega)
    have hsl : (slice bytes (k * 8) 8).length = 8 := length_slice (by omega)
    have hword : bytesLE 8 (localWord bytes k) = slice bytes (k * 8) 8 := by
      rw [localWord, bytesLE_ofBytes (fun b hm => hb b (mem_slice hm)), hsl, List.take_of_length_le hsl.le]
      simp
    have htake : bytes.take (k * 8) ++ slice bytes (k * 8) 8 = bytes.take ((k + 1) * 8) := by
      rw [slice, ← List.take_add, Nat.succ_mul]
    have hjoin : overwrite (overwrite buf (keys + w0 * 8) (bytes.take (k * 8)))
        (keys + w0 * 8 + (bytes.take (k * 8)).length) (slice bytes (k * 8) 8) =
        overwrite buf (keys + w0 * 8) (bytes.take (k * 8) ++ slice bytes (k * 8) 8) :=
      overwrite_overwrite (by omega)
    have haddr : keys + (w0 + k) * 8 = keys + w0 * 8 + (bytes.take (k * 8)).length := by omega
    rw [storeWords, storeAtomic_ok (by omega) (by omega), Nat.add_sub_cancel_left, hword, haddr, hjoin, htake]
    simp only [bind, Except.bind]
    rw [Nat.add_assoc w0 k 1, ih (by omega) (by omega), Nat.add_right_comm, Nat.add_assoc]

/-- The bytes an edit works on: those of the covering words up to the end of the area, then zeros. -/
def covering (buf : List ℕ) (keys w0 w1 area : ℕ) : List ℕ :=
  slice buf (keys + w0 * 8) (min (w1 * 8) area - w0 * 8) ++
    List.replicate (w1 * 8 - min (w1 * 8) area) 0

section Rewrite

variable {w1 area : ℕ} (hk8 : keys % 8 = 0) (hlt : w0 < w1) (hw1 : w1 * 8 < area + 8)
  (hfit : keys + area ≤ buf.length)

include hk8 hlt hw1 hfit

theorem load_covering (hb : ∀ b ∈ buf, b < 256) (hmax : area ≤ 256) :
    ∃ words words',
      loadWords buf keys w0 (min w1 (area / 8) - w0) w0 freshLocal = .ok words ∧
      loadTail buf keys w0 w1 area words = .ok words' ∧
      localBytes words' (w1 - w0) = .ok (covering buf keys w0 w1 area) := by
  have hload : ∀ n, w0 + n ≤ area / 8 →
      loadWords buf keys w0 n w0 freshLocal = .ok (filled (keysOf (keys + w0 * 8) 8 n buf)) := by
    intro n hn
    have h : loadWords buf keys w0 n (w0 + 0) (filled (keysOf (keys + w0 * 8) 8 0 buf)) =
        .ok (filled (keysOf (keys + w0 * 8) 8 (0 + n) buf)) :=
      loadWords_ok hk8 (by omega) (by omega)
    rwa [Nat.zero_add] at h
  have hbytes : ∀ n, w0 + n ≤ area / 8 →
      (keysOf (keys + w0 * 8) 8 n buf).flatMap (bytesLE 8) = slice buf (keys + w0 * 8) (n * 8) := by
    intro n hn
    exact flatMap_bytesLE_keysOf hb (by omega)
  by_cases htail : area / 8 < w1
  · -- the last covering word is the partial one
    have hlast : w1 = area / 8 + 1 := by omega
    have hn : min w1 (area / 8) - w0 = area / 8 - w0 := by omega
    obtain ⟨ws, hws⟩ : ∃ ws, ws = keysOf (keys + w0 * 8) 8 (area / 8 - w0) buf := ⟨_, rfl⟩
    have hlen : ws.length = area / 8 - w0 := by rw [hws, length_keysOf]
    have htl : (slice buf (keys + area / 8 * 8) (area - area / 8 * 8)).length = area - area / 8 * 8 :=
      length_slice (by omega)
    have hwrite := writeLocal_filled (v := ofBytes (slice buf (keys + area / 8 * 8) (area - area / 8 * 8)))
      (show ws.length < 32 by omega)
    rw [hlen] at hwrite
    refine ⟨filled ws, filled (ws ++ [ofBytes (slice buf (keys + area / 8 * 8) (area - area / 8 * 8))]),
      ?_, ?_, ?_⟩
    · rw [hn, hload _ (by omega), hws]
    · rw [loadTail, if_pos htail, tailLoad_ok hb (by omega) (by omega) (by omega)]
      exact hwrite
    · have hcount : w1 - w0 =
          (ws ++ [ofBytes (slice buf (keys + area / 8 * 8) (area - area / 8 * 8))]).length := by
        rw [List.length_append, hlen, List.length_singleton]
        omega
      have hfull : min (w1 * 8) area - w0 * 8 = (area / 8 - w0) * 8 + (area - area / 8 * 8) := by omega
      have hpast : w1 * 8 - min (w1 * 8) area = 8 - (area - area / 8 * 8) := by omega
      have hnext : keys + w0 * 8 + (area / 8 - w0) * 8 = keys + area / 8 * 8 := by omega
      rw [hcount, filled, localBytes_filled, List.flatMap_append, hws, hbytes _ (by omega),
        List.flatMap_singleton, bytesLE_ofBytes (fun b hm => hb b (mem_slice hm)), htl,
        List.take_of_length_le (by omega), covering, hfull, hpast, slice_add, hnext, List.append_assoc]
  · have hn : min w1 (area / 8) - w0 = w1 - w0 := by omega
    refine ⟨filled (keysOf (keys + w0 * 8) 8 (w1 - w0) buf), filled (keysOf (keys + w0 * 8) 8 (w1 - w0) buf),
      ?_, ?_, ?_⟩
    · rw [hn, hload _ (by omega)]
    · rw [loadTail, if_neg htail]
    · have hcount : w1 - w0 = (keysOf (keys + w0 * 8) 8 (w1 - w0) buf).length := length_keysOf.symm
      have hfull : min (w1 * 8) area - w0 * 8 = (w1 - w0) * 8 := by omega
      have hpast : w1 * 8 - min (w1 * 8) area = 0 := by omega
      nth_rewrite 2 [hcount]
      rw [filled, localBytes_filled, hbytes _ (by omega), covering, hfull, hpast, List.replicate_zero,
        List.append_nil]

theorem store_covering (ho : ∀ b ∈ out, b < 256) (hlen : out.length = (w1 - w0) * 8) :
    ∃ buf', storeWords out keys w0 (min w1 (area / 8) - w0) w0 buf = .ok buf' ∧
      storeTail out keys w0 w1 area buf' =
        .ok (overwrite buf (keys + w0 * 8) (out.take (min (w1 * 8) area - w0 * 8))) := by
  have hstore : ∀ n, w0 + n ≤ area / 8 → n ≤ w1 - w0 →
      storeWords out keys w0 n w0 buf = .ok (overwrite buf (keys + w0 * 8) (out.take (n * 8))) := by
    intro n hn hm
    have h : storeWords out keys w0 n (w0 + 0) (overwrite buf (keys + w0 * 8) (out.take (0 * 8))) =
        .ok (overwrite buf (keys + w0 * 8) (out.take ((0 + n) * 8))) :=
      storeWords_ok ho hk8 (by omega) (by omega)
    rwa [Nat.zero_mul, List.take_zero, overwrite_nil, Nat.zero_add] at h
  by_cases htail : area / 8 < w1
  · have hlast : w1 = area / 8 + 1 := by omega
    have hn : min w1 (area / 8) - w0 = area / 8 - w0 := by omega
    have htl : (out.take ((area / 8 - w0) * 8)).length = (area / 8 - w0) * 8 := by
      rw [List.length_take]
      omega
    have hl : (overwrite buf (keys + w0 * 8) (out.take ((area / 8 - w0) * 8))).length = buf.length :=
      length_overwrite (by omega)
    have hsl : (slice out ((area / 8 - w0) * 8) 8).length = 8 := length_slice (by omega)
    have hword : bytesLE (area - area / 8 * 8) (localWord out (area / 8 - w0)) =
        slice out ((area / 8 - w0) * 8) (area - area / 8 * 8) := by
      have hnone : area - area / 8 * 8 - 8 = 0 := by omega
      rw [localWord, bytesLE_ofBytes (fun b hm => ho b (mem_slice hm)), hsl, hnone, List.replicate_zero,
        List.append_nil, slice, slice, List.take_take,
        Nat.min_eq_left (by omega)]
    have htsl : (slice out ((area / 8 - w0) * 8) (area - area / 8 * 8)).length =
        area - area / 8 * 8 := length_slice (by omega)
    have hjoin : overwrite (overwrite buf (keys + w0 * 8) (out.take ((area / 8 - w0) * 8)))
        (keys + w0 * 8 + (out.take ((area / 8 - w0) * 8)).length)
        (slice out ((area / 8 - w0) * 8) (area - area / 8 * 8)) =
        overwrite buf (keys + w0 * 8) (out.take ((area / 8 - w0) * 8) ++
          slice out ((area / 8 - w0) * 8) (area - area / 8 * 8)) := overwrite_overwrite (by omega)
    have htake : out.take ((area / 8 - w0) * 8) ++
        slice out ((area / 8 - w0) * 8) (area - area / 8 * 8) = out.take (min (w1 * 8) area - w0 * 8) := by
      rw [slice, ← List.take_add]
      congr 1
      omega
    have haddr : keys + area / 8 * 8 = keys + w0 * 8 + (out.take ((area / 8 - w0) * 8)).length := by omega
    refine ⟨_, by rw [hn, hstore _ (by omega) (by omega)], ?_⟩
    rw [storeTail, if_pos htail, tailStore_ok (by omega) (by omega) (by omega), hword, haddr, hjoin, htake]
  · have hn : min w1 (area / 8) - w0 = w1 - w0 := by omega
    have hfull : min (w1 * 8) area - w0 * 8 = (w1 - w0) * 8 := by omega
    refine ⟨_, by rw [hn, hstore _ (by omega) (by omega)], ?_⟩
    rw [storeTail, if_neg htail, hfull]

end Rewrite

theorem rewrite_ok {area : ℕ} {edit : List ℕ → ℕ → Except Fault (List ℕ)} (hk8 : keys % 8 = 0)
    (hlt : start < stop) (hstop : stop ≤ area) (hmax : area ≤ 256) (hfit : keys + area ≤ buf.length)
    (hb : ∀ b ∈ buf, b < 256)
    (hedit : edit (covering buf keys (start / 8) ((stop + 7) / 8) area) (start / 8 * 8) = .ok out)
    (ho : ∀ b ∈ out, b < 256) (hlen : out.length = ((stop + 7) / 8 - start / 8) * 8) :
    rewrite buf keys start stop area edit =
      .ok (overwrite buf (keys + start / 8 * 8)
        (out.take (min ((stop + 7) / 8 * 8) area - start / 8 * 8))) := by
  have hw : start / 8 < (stop + 7) / 8 := by omega
  have hw1 : (stop + 7) / 8 * 8 < area + 8 := by omega
  obtain ⟨words, words', h1, h2, h3⟩ := load_covering hk8 hw hw1 hfit hb hmax
  obtain ⟨buf', h4, h5⟩ := store_covering hk8 hw hw1 hfit ho hlen
  rw [rewrite]
  simp only [bind, Except.bind, h1, h2, h3, hedit, h4, h5]

section Covering

variable {w1 area : ℕ}

theorem length_covering (hlt : w0 < w1) (hw1 : w1 * 8 < area + 8) (hfit : keys + area ≤ buf.length) :
    (covering buf keys w0 w1 area).length = (w1 - w0) * 8 := by
  have hl : (slice buf (keys + w0 * 8) (min (w1 * 8) area - w0 * 8)).length =
      min (w1 * 8) area - w0 * 8 := length_slice (by omega)
  rw [covering, List.length_append, hl, List.length_replicate]
  omega

theorem getElem?_covering (hfit : keys + area ≤ buf.length) (hx : x < min (w1 * 8) area - w0 * 8) :
    (covering buf keys w0 w1 area)[x]? = buf[keys + w0 * 8 + x]? := by
  have hl : (slice buf (keys + w0 * 8) (min (w1 * 8) area - w0 * 8)).length =
      min (w1 * 8) area - w0 * 8 := length_slice (by omega)
  rw [covering, List.getElem?_append_left (by omega), getElem?_slice, if_pos hx]

theorem mem_covering {b : ℕ} (hb : ∀ b ∈ buf, b < 256) (h : b ∈ covering buf keys w0 w1 area) :
    b < 256 := by
  rcases List.mem_append.mp h with h | h
  · exact hb b (mem_slice h)
  · rw [List.eq_of_mem_replicate h]
    norm_num

end Covering

/-- A rewrite gives `buf'` when the edit does to the covering bytes what turns `buf` into `buf'` there, and
`buf'` is `buf` elsewhere. -/
theorem rewrite_eq {area : ℕ} {buf' : List ℕ} {edit : List ℕ → ℕ → Except Fault (List ℕ)}
    (hk8 : keys % 8 = 0) (hlt : start < stop) (hstop : stop ≤ area) (hmax : area ≤ 256)
    (hfit : keys + area ≤ buf.length) (hb : ∀ b ∈ buf, b < 256)
    (hedit : edit (covering buf keys (start / 8) ((stop + 7) / 8) area) (start / 8 * 8) = .ok out)
    (ho : ∀ b ∈ out, b < 256) (hlen : out.length = ((stop + 7) / 8 - start / 8) * 8)
    (heq : ∀ x < min ((stop + 7) / 8 * 8) area - start / 8 * 8,
      out[x]? = buf'[keys + start / 8 * 8 + x]?)
    (hrest : ∀ m, m < keys + start / 8 * 8 ∨ keys + min ((stop + 7) / 8 * 8) area ≤ m →
      buf'[m]? = buf[m]?) :
    rewrite buf keys start stop area edit = .ok buf' := by
  have htl : (out.take (min ((stop + 7) / 8 * 8) area - start / 8 * 8)).length =
      min ((stop + 7) / 8 * 8) area - start / 8 * 8 := by
    rw [List.length_take]
    omega
  rw [rewrite_ok hk8 hlt hstop hmax hfit hb hedit ho hlen]
  congr 1
  apply List.ext_getElem?
  intro m
  rw [getElem?_overwrite (by omega), htl]
  by_cases hm : keys + start / 8 * 8 ≤ m ∧
      m < keys + start / 8 * 8 + (min ((stop + 7) / 8 * 8) area - start / 8 * 8)
  · rw [if_pos hm, List.getElem?_take, if_pos (by omega), heq _ (by omega)]
    congr 1
    omega
  · rw [if_neg hm, hrest m (by omega)]

theorem mem_overwrite {b k : ℕ} {xs : List ℕ} (h : b ∈ overwrite buf k xs) : b ∈ buf ∨ b ∈ xs := by
  rcases List.mem_append.mp h with h | h
  · rcases List.mem_append.mp h with h | h
    · exact Or.inl (List.mem_of_mem_take h)
    · exact Or.inr h
  · exact Or.inl (List.mem_of_mem_drop h)

theorem mem_copyWithin {b i j k : ℕ} (h : b ∈ copyWithin buf i j k) : b ∈ buf := by
  rcases mem_overwrite h with h | h
  · exact h
  · exact mem_slice h

theorem mem_bytesLE {b n : ℕ} (h : b ∈ bytesLE n k) : b < 256 := by
  obtain ⟨j, -, rfl⟩ := List.mem_map.mp h
  exact Nat.mod_lt _ (by norm_num)

theorem take_bytesLE {kb n : ℕ} (h : kb ≤ n) : (bytesLE n k).take kb = bytesLE kb k := by
  obtain ⟨m, rfl⟩ := Nat.exists_eq_add_of_le h
  rw [bytesLE_add]
  exact List.take_left' length_bytesLE

section Edits

variable {kb pop pos key : ℕ} (hkb : 1 ≤ kb ∧ kb ≤ 7) (hb : ∀ b ∈ buf, b < 256) (hk8 : keys % 8 = 0)
  (hmax : area kb pop ≤ 256) (hfit : keys + area kb pop ≤ buf.length)

include hkb hb hk8 hmax hfit

theorem insertAt_ok (hpos : pos ≤ pop) (harea : (pop + 1) * kb ≤ area kb pop) :
    insertAt buf keys kb pop pos key = .ok (openGap keys kb pop pos key buf) := by
  have h1 : pos * kb ≤ pop * kb := Nat.mul_le_mul_right kb hpos
  have h2 : (pop + 1) * kb = pop * kb + kb := Nat.succ_mul pop kb
  have h3 : (pop - pos) * kb = pop * kb - pos * kb := Nat.sub_mul pop pos kb
  have hw : pos * kb / 8 < ((pop + 1) * kb + 7) / 8 := by omega
  have hw1 : ((pop + 1) * kb + 7) / 8 * 8 < area kb pop + 8 := by omega
  have hlen := length_covering hw hw1 hfit
  have hget : ∀ x < min (((pop + 1) * kb + 7) / 8 * 8) (area kb pop) - pos * kb / 8 * 8,
      (covering buf keys (pos * kb / 8) (((pop + 1) * kb + 7) / 8) (area kb pop))[x]? =
        buf[keys + pos * kb / 8 * 8 + x]? := fun x hx => getElem?_covering hfit hx
  rw [insertAt]
  generalize hcov : covering buf keys (pos * kb / 8) (((pop + 1) * kb + 7) / 8) (area kb pop) = b at hlen hget
  have hob : ∀ c ∈ b, c < 256 := fun c hc => mem_covering hb (hcov ▸ hc)
  have hgap : overwrite (copyWithin b (pos * kb - pos * kb / 8 * 8)
      ((pop + 1) * kb - pos * kb / 8 * 8 - kb) (pos * kb - pos * kb / 8 * 8 + kb))
      (pos * kb - pos * kb / 8 * 8) (bytesLE kb key) =
      openGap (pos * kb - pos * kb / 8 * 8) kb (pop - pos) 0 key b := by
    have hend : (pop + 1) * kb - pos * kb / 8 * 8 - kb = pos * kb - pos * kb / 8 * 8 + (pop - pos) * kb := by
      omega
    rw [openGap, writeRem, hend]
    simp
  have hcl : (copyWithin b (pos * kb - pos * kb / 8 * 8)
      ((pop + 1) * kb - pos * kb / 8 * 8 - kb) (pos * kb - pos * kb / 8 * 8 + kb)).length = b.length :=
    length_copyWithin (by omega) (by omega) (by omega)
  have hgl : (openGap (pos * kb - pos * kb / 8 * 8) kb (pop - pos) 0 key b).length = b.length := by
    rw [← hgap, length_overwrite (by rw [length_bytesLE]; omega), hcl]
  refine rewrite_eq hk8 (by omega) harea hmax hfit hb ?_ ?_ (hgl.trans hlen) ?_ ?_
  · dsimp only
    rw [hcov, sliceCopyWithin, if_pos (by omega)]
    simp only [bind, Except.bind]
    rw [putKey, if_pos ⟨hkb, by omega⟩, take_bytesLE (by omega), hgap]
  · intro c hc
    rw [← hgap] at hc
    rcases mem_overwrite hc with hc | hc
    · exact hob c (mem_copyWithin hc)
    · exact mem_bytesLE hc
  · intro x hx
    have h4 : (pop - pos + 1) * kb = (pop - pos) * kb + kb := Nat.succ_mul _ kb
    rw [getElem?_openGap (Nat.zero_le _) (by omega), getElem?_openGap hpos (by omega), Nat.zero_mul,
      Nat.add_zero]
    by_cases hnew : pos * kb - pos * kb / 8 * 8 ≤ x ∧ x < pos * kb - pos * kb / 8 * 8 + kb
    · rw [if_pos hnew, if_pos (by omega)]
      congr 1
      omega
    · have hnew' : ¬ (keys + pos * kb ≤ keys + pos * kb / 8 * 8 + x ∧
          keys + pos * kb / 8 * 8 + x < keys + pos * kb + kb) := by omega
      rw [if_neg hnew, if_neg hnew']
      by_cases hmv : pos * kb - pos * kb / 8 * 8 + kb ≤ x ∧
          x < pos * kb - pos * kb / 8 * 8 + (pop - pos) * kb + kb
      · rw [if_pos hmv, if_pos (by omega), hget _ (by omega)]
        congr 1
        omega
      · rw [if_neg hmv, if_neg (by omega), hget _ hx]
  · intro m hm
    rw [getElem?_openGap hpos (by omega), if_neg (by omega), if_neg (by omega)]

/-- The edit of the removal closes a gap in the covering bytes. -/
theorem removeAt_ok (hpos : pos < pop) (harea : pop * kb ≤ area kb pop) :
    removeAt buf keys kb pop pos = .ok (closeGap keys kb pop pos (pos + 1) buf) := by
  have h1 : (pos + 1) * kb ≤ pop * kb := Nat.mul_le_mul_right kb hpos
  have h2 : (pos + 1) * kb = pos * kb + kb := Nat.succ_mul pos kb
  have h3 : (pop - pos) * kb = pop * kb - pos * kb := Nat.sub_mul pop pos kb
  rw [removeAt]
  by_cases hlast : pop ≤ pos + 1
  · obtain rfl : pop = pos + 1 := by omega
    rw [if_pos hlast, closeGap, copyWithin, Nat.sub_self, slice, List.take_zero, overwrite_nil]
  rw [if_neg hlast]
  have hw : pos * kb / 8 < (pop * kb + 7) / 8 := by omega
  have hw1 : (pop * kb + 7) / 8 * 8 < area kb pop + 8 := by omega
  have hlen := length_covering hw hw1 hfit
  have hget : ∀ x < min ((pop * kb + 7) / 8 * 8) (area kb pop) - pos * kb / 8 * 8,
      (covering buf keys (pos * kb / 8) ((pop * kb + 7) / 8) (area kb pop))[x]? =
        buf[keys + pos * kb / 8 * 8 + x]? := fun x hx => getElem?_covering hfit hx
  generalize hcov : covering buf keys (pos * kb / 8) ((pop * kb + 7) / 8) (area kb pop) = b at hlen hget
  have hob : ∀ c ∈ b, c < 256 := fun c hc => mem_covering hb (hcov ▸ hc)
  have hgap : copyWithin b (pos * kb - pos * kb / 8 * 8 + kb) (pop * kb - pos * kb / 8 * 8)
      (pos * kb - pos * kb / 8 * 8) =
      closeGap (pos * kb - pos * kb / 8 * 8) kb (pop - pos) 0 1 b := by
    have hend : pop * kb - pos * kb / 8 * 8 = pos * kb - pos * kb / 8 * 8 + (pop - pos) * kb := by omega
    rw [closeGap, hend]
    simp
  have hgl : (closeGap (pos * kb - pos * kb / 8 * 8) kb (pop - pos) 0 1 b).length = b.length :=
    length_closeGap (by omega) (by omega) (by omega)
  refine rewrite_eq hk8 (by omega) harea hmax hfit hb ?_ ?_ (hgl.trans hlen) ?_ ?_
  · dsimp only
    rw [hcov, sliceCopyWithin, if_pos (by omega), hgap]
  · intro c hc
    rw [← hgap] at hc
    exact hob c (mem_copyWithin hc)
  · intro x hx
    rw [getElem?_closeGap (by omega) (by omega) (by omega),
      getElem?_closeGap (by omega) (by omega) (by omega), Nat.zero_mul, Nat.one_mul, Nat.add_zero]
    by_cases hmv : pos * kb - pos * kb / 8 * 8 ≤ x ∧
        x < pos * kb - pos * kb / 8 * 8 + ((pop - pos) * kb - kb)
    · rw [if_pos hmv, if_pos (by omega), hget _ (by omega)]
      congr 1
      omega
    · rw [if_neg hmv, if_neg (by omega), hget _ hx]
  · intro m hm
    rw [getElem?_closeGap (by omega) (by omega) (by omega), if_neg (by omega)]

end Edits

theorem moveWord_ok (hb : ∀ b ∈ buf, b < 256) (hp : p % 8 = 0) (ht : t % 8 = 0) (hpl : p + 8 ≤ buf.length)
    (htl : t + 8 ≤ buf.length) :
    (do let v ← loadAtomic buf p 8
        storeAtomic buf t 8 v) = .ok (copyWithin buf p (p + 8) t) := by
  have hl : (slice buf p 8).length = 8 := length_slice hpl
  have hword : bytesLE 8 (ofBytes (slice buf p 8)) = slice buf p 8 := by
    rw [bytesLE_ofBytes fun b hm => hb b (mem_slice hm), hl, List.take_of_length_le hl.le]
    simp
  rw [loadAtomic_ok hp hpl]
  simp only [bind, Except.bind]
  rw [storeAtomic_ok ht htl, hword, copyWithin, Nat.add_sub_cancel_left]

/-- Moving the highest word first is moving them at once. -/
theorem shiftUp_ok (hb : ∀ b ∈ buf, b < 256) (hbase : base % 8 = 0)
    (hfit : base + (start + n + 1) * 8 ≤ buf.length) :
    shiftUp buf base start n =
      .ok (copyWithin buf (base + start * 8) (base + (start + n) * 8) (base + (start + 1) * 8)) := by
  induction n generalizing buf with
  | zero =>
    rw [shiftUp, Nat.add_zero, copyWithin, Nat.sub_self, slice, List.take_zero, overwrite_nil]
  | succ n ih =>
    have hto : base + (start + n + 1) * 8 = base + (start + n) * 8 + 8 := by omega
    have hrest : base + (start + 1) * 8 = base + start * 8 + 8 := by omega
    have hmove := moveWord_ok hb (show (base + (start + n) * 8) % 8 = 0 by omega)
      (show (base + (start + n) * 8 + 8) % 8 = 0 by omega) (by omega) (by omega)
    have hl : (copyWithin buf (base + (start + n) * 8) (base + (start + n) * 8 + 8)
        (base + (start + n) * 8 + 8)).length = buf.length :=
      length_copyWithin (by omega) (by omega) (by omega)
    rw [shiftUp, ← bind_assoc, hto, hmove]
    simp only [bind, Except.bind]
    rw [ih (fun b hm => hb b (mem_copyWithin hm)) (by omega), hrest,
      copyWithin_above_first (by omega) (by omega), ← Nat.add_assoc start n 1, hto]

/-- Moving the lowest word first is moving them at once. -/
theorem shiftDown_ok (hb : ∀ b ∈ buf, b < 256) (hbase : base % 8 = 0)
    (hfit : base + (i + n + 1) * 8 ≤ buf.length) :
    shiftDown buf base n i =
      .ok (copyWithin buf (base + (i + 1) * 8) (base + (i + 1 + n) * 8) (base + i * 8)) := by
  induction n generalizing buf i with
  | zero =>
    rw [shiftDown, Nat.add_zero, copyWithin, Nat.sub_self, slice, List.take_zero, overwrite_nil]
  | succ n ih =>
    have hfrom : base + (i + 1) * 8 = base + i * 8 + 8 := by omega
    have hrest : base + (i + 1 + 1) * 8 = base + i * 8 + 8 + 8 := by omega
    have hend : i + 1 + (n + 1) = i + 1 + 1 + n := by omega
    have hmove := moveWord_ok hb (show (base + i * 8 + 8) % 8 = 0 by omega)
      (show (base + i * 8) % 8 = 0 by omega) (by omega) (by omega)
    have hl : (copyWithin buf (base + i * 8 + 8) (base + i * 8 + 8 + 8) (base + i * 8)).length =
        buf.length := length_copyWithin (by omega) (by omega) (by omega)
    rw [shiftDown, ← bind_assoc, hfrom, hmove]
    simp only [bind, Except.bind]
    rw [ih (fun b hm => hb b (mem_copyWithin hm)) (by omega), hrest, hfrom,
      copyWithin_below_first (by omega) (by omega), hend]

section MapEdits

variable {kb pop pos key val : ℕ} (hkb : 1 ≤ kb ∧ kb ≤ 7) (hb : ∀ b ∈ buf, b < 256) (hbase : base % 8 = 0)
  (hmax : area kb pop ≤ 256) (hfit : base + mapKeysOffset pop + area kb pop ≤ buf.length)

include hkb hb hbase hmax hfit

theorem mapInsertAt_ok (hpos : pos ≤ pop) (hcls : pop + 1 ≤ capClass pop)
    (harea : (pop + 1) * kb ≤ area kb pop) :
    mapInsertAt buf base kb pop pos key val =
      .ok (openGap (base + mapKeysOffset pop) kb pop pos key (openGap base 8 pop pos val buf)) := by
  have hoff : mapKeysOffset pop = 8 * capClass pop := rfl
  have hend : base + (pos + (pop - pos)) * 8 = base + pop * 8 := by omega
  have hl : (openGap base 8 pop pos val buf).length = buf.length := length_openGap hpos (by omega)
  have hlc : (copyWithin buf (base + pos * 8) (base + pop * 8) (base + (pos + 1) * 8)).length =
      buf.length := length_copyWithin (by omega) (by omega) (by omega)
  have hbytes : ∀ b ∈ openGap base 8 pop pos val buf, b < 256 := by
    intro b hm
    rcases mem_overwrite hm with hm | hm
    · exact hb b (mem_copyWithin hm)
    · exact mem_bytesLE hm
  rw [mapInsertAt, shiftUp_ok hb hbase (by omega), hend]
  simp only [bind, Except.bind]
  rw [storeAtomic_ok (by omega) (by omega)]
  have hroom : base + mapKeysOffset pop + area kb pop ≤ (openGap base 8 pop pos val buf).length := by
    omega
  exact insertAt_ok hkb hbytes (by omega) hmax hroom hpos harea

theorem mapRemoveAt_ok (hpos : pos < pop) (hcls : pop ≤ capClass pop) (harea : pop * kb ≤ area kb pop) :
    mapRemoveAt buf base kb pop pos =
      .ok (closeGap (base + mapKeysOffset pop) kb pop pos (pos + 1)
        (closeGap base 8 pop pos (pos + 1) buf)) := by
  have hoff : mapKeysOffset pop = 8 * capClass pop := rfl
  have hend : base + (pos + 1 + (pop - 1 - pos)) * 8 = base + pop * 8 := by omega
  have hl : (closeGap base 8 pop pos (pos + 1) buf).length = buf.length :=
    length_closeGap (by omega) hpos (by omega)
  rw [mapRemoveAt, shiftDown_ok hb hbase (by omega), hend]
  have hroom : base + mapKeysOffset pop + area kb pop ≤ (closeGap base 8 pop pos (pos + 1) buf).length := by
    omega
  exact removeAt_ok hkb (fun b hm => hb b (mem_copyWithin hm)) (by omega) hmax hroom hpos harea

end MapEdits

end Expanse.Leaf.SharedKeys

namespace Expanse

open Leaf Packed

theorem area_le {kb pop : ℕ} (hkb : kb ≤ 7) (hpop : pop ≤ LEAF_CAP) : SharedKeys.area kb pop ≤ 256 := by
  have hcap : capClass pop ≤ 32 := by
    unfold LEAF_CAP at hpop
    unfold capClass
    split_ifs <;> omega
  calc SharedKeys.area kb pop ≤ 7 * 32 := Nat.mul_le_mul hkb hcap
    _ ≤ 256 := by norm_num

theorem mul_le_area {kb pop n : ℕ} (h : n ≤ capClass pop) : n * kb ≤ SharedKeys.area kb pop := by
  rw [SharedKeys.area, Nat.mul_comm]
  exact Nat.mul_le_mul_left kb h

/-- Over an 8-aligned key area in its capacity class, the word-wise edits of a shared leaf store byte for
byte what the plain ones store, and leave every byte outside the packed keys. A rewrite in general stores
what its edit makes of the covering bytes up to the end of the area, and no other byte. In a map leaf the
values that move as words end where the plain edits put them. -/
theorem shared_edits_are_plain (kb pop keys : ℕ) (buf : List ℕ) (hkb : 1 ≤ kb ∧ kb ≤ 7)
    (hpop : pop ≤ LEAF_CAP) (hb : ∀ b ∈ buf, b < 256) (hk8 : keys % 8 = 0)
    (hfit : keys + SharedKeys.area kb pop ≤ buf.length) :
    (∀ pos key, pos ≤ pop → capClass (pop + 1) = capClass pop →
      ∃ buf', setInsertAt buf keys kb pop pos key = .ok buf' ∧
        SharedKeys.setInsertAt buf keys kb pop pos key = .ok buf' ∧ buf'.length = buf.length ∧
        ∀ m, m < keys ∨ keys + (pop + 1) * kb ≤ m → buf'[m]? = buf[m]?) ∧
    (∀ pos, pos < pop →
      ∃ buf', setRemoveAt buf keys kb pop pos = .ok buf' ∧
        SharedKeys.setRemoveAt buf keys kb pop pos = .ok buf' ∧ buf'.length = buf.length ∧
        ∀ m, m < keys ∨ keys + pop * kb ≤ m → buf'[m]? = buf[m]?) ∧
    (∀ start stop edit out, start < stop → stop ≤ SharedKeys.area kb pop →
      edit (SharedKeys.covering buf keys (start / 8) ((stop + 7) / 8) (SharedKeys.area kb pop))
        (start / 8 * 8) = .ok out →
      (∀ b ∈ out, b < 256) → out.length = ((stop + 7) / 8 - start / 8) * 8 →
      SharedKeys.rewrite buf keys start stop (SharedKeys.area kb pop) edit =
        .ok (Arrays.overwrite buf (keys + start / 8 * 8)
          (out.take (min ((stop + 7) / 8 * 8) (SharedKeys.area kb pop) - start / 8 * 8)))) ∧
    ∀ base, base % 8 = 0 → base + mapKeysOffset pop + SharedKeys.area kb pop ≤ buf.length →
      (∀ pos key val, pos ≤ pop → capClass (pop + 1) = capClass pop →
        ∃ buf', mapInsertAt buf base kb pop pos key val = .ok buf' ∧
          SharedKeys.mapInsertAt buf base kb pop pos key val = .ok buf' ∧ buf'.length = buf.length ∧
          ∀ m, m < base ∨ base + mapKeysOffset pop + (pop + 1) * kb ≤ m → buf'[m]? = buf[m]?) ∧
      ∀ pos, pos < pop →
        ∃ buf', mapRemoveAt buf base kb pop pos = .ok buf' ∧
          SharedKeys.mapRemoveAt buf base kb pop pos = .ok buf' ∧ buf'.length = buf.length ∧
          ∀ m, m < base ∨ base + mapKeysOffset pop + pop * kb ≤ m → buf'[m]? = buf[m]? := by
  have hmax : SharedKeys.area kb pop ≤ 256 := area_le hkb.2 hpop
  refine ⟨?_, ?_, ?_, ?_⟩
  · intro pos key hpos hcls
    have harea : (pop + 1) * kb ≤ SharedKeys.area kb pop := mul_le_area (hcls ▸ le_capClass (pop + 1))
    exact ⟨openGap keys kb pop pos key buf, setInsertAt_ok hkb hpos (by omega),
      SharedKeys.insertAt_ok hkb hb hk8 hmax hfit hpos harea, length_openGap hpos (by omega),
      fun m hm => getElem?_openGap_of_disjoint hpos (by omega) hm⟩
  · intro pos hpos
    have harea : pop * kb ≤ SharedKeys.area kb pop := mul_le_area (le_capClass pop)
    exact ⟨closeGap keys kb pop pos (pos + 1) buf, setRemoveAt_ok hpos (by omega),
      SharedKeys.removeAt_ok hkb hb hk8 hmax hfit hpos harea, length_closeGap (by omega) hpos (by omega),
      fun m hm => getElem?_closeGap_of_disjoint (by omega) hpos (by omega) hm⟩
  · intro start stop edit out hlt hstop hedit ho hlen
    exact SharedKeys.rewrite_ok hk8 hlt hstop hmax hfit hb hedit ho hlen
  · intro base hbase hroom
    have hoff : mapKeysOffset pop = 8 * capClass pop := rfl
    have hcap : pop ≤ capClass pop := le_capClass pop
    constructor
    · intro pos key val hpos hcls
      have hcap' : pop + 1 ≤ capClass pop := hcls ▸ le_capClass (pop + 1)
      have harea : (pop + 1) * kb ≤ SharedKeys.area kb pop := mul_le_area hcap'
      have hl : (openGap base 8 pop pos val buf).length = buf.length := length_openGap hpos (by omega)
      refine ⟨_, mapInsertAt_ok hkb hpos hcap' (by omega),
        SharedKeys.mapInsertAt_ok hkb hb hbase hmax hroom hpos hcap' harea,
        (length_openGap hpos (by omega)).trans hl, fun m hm => ?_⟩
      rw [getElem?_openGap_of_disjoint hpos (by omega) (by omega),
        getElem?_openGap_of_disjoint hpos (by omega) (by omega)]
    · intro pos hpos
      have harea : pop * kb ≤ SharedKeys.area kb pop := mul_le_area hcap
      have hl : (closeGap base 8 pop pos (pos + 1) buf).length = buf.length :=
        length_closeGap (by omega) hpos (by omega)
      refine ⟨_, mapRemoveAt_ok hpos hcap (by omega),
        SharedKeys.mapRemoveAt_ok hkb hb hbase hmax hroom hpos hcap harea,
        (length_closeGap (by omega) hpos (by omega)).trans hl, fun m hm => ?_⟩
      rw [getElem?_closeGap_of_disjoint (by omega) hpos (by omega) (by omega),
        getElem?_closeGap_of_disjoint (by omega) hpos (by omega) (by omega)]

/-- Three keys of three bytes in an area of twelve: the second key straddles the words, and the last word is
partial. -/
theorem shared_edits_are_plain_straddling :
    SharedKeys.insertAt [1, 0, 0, 2, 0, 0, 3, 0, 0, 9, 9, 9] 0 3 3 1 0x050607 =
        .ok [1, 0, 0, 7, 6, 5, 2, 0, 0, 3, 0, 0] ∧
      SharedKeys.removeAt [1, 0, 0, 2, 0, 0, 3, 0, 0, 9, 9, 9] 0 3 3 1 =
        .ok [1, 0, 0, 3, 0, 0, 3, 0, 0, 9, 9, 9] := by
  obtain ⟨hins, hrem, -⟩ := shared_edits_are_plain 3 3 0 [1, 0, 0, 2, 0, 0, 3, 0, 0, 9, 9, 9] (by decide)
    (by decide) (by decide) (by decide) (by decide)
  obtain ⟨_, hplain, hshared, -⟩ := hins 1 0x050607 (by decide) (by decide)
  obtain ⟨_, hplain', hshared', -⟩ := hrem 1 (by decide)
  exact ⟨hshared.trans hplain.symm, hshared'.trans hplain'.symm⟩

end Expanse
