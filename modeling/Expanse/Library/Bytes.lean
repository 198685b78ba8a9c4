import Mathlib.Tactic
import Expanse.Library.Arrays

/-!
# Bytes

A byte is a number below 256, and a byte string a list of bytes. `le w x` is the number
`x` in `w` little-endian bytes and `ofLe` reads it back. `pack w` packs numbers of `w`
bits into one word, least significant first; `orLoop` is the loop that shifts each of
them into place.
-/

namespace Expanse

/-- A `u8`. -/
abbrev Byte : Type := Fin 256

instance neZero_byte : NeZero 256 := ⟨by decide⟩

namespace Bytes

open Arrays

variable {w x n i : ℕ} {l l' : List Byte}

/-- The `w` low bytes of `x`, least significant first. -/
def le : ℕ → ℕ → List Byte
  | 0, _ => []
  | w + 1, x => Fin.ofNat 256 x :: le w (x / 256)

def ofLe : List Byte → ℕ
  | [] => 0
  | b :: l => b.val + 256 * ofLe l

@[simp] theorem length_le : (le w x).length = w := by
  induction w generalizing x with
  | zero => rfl
  | succ w ih => rw [le, List.length_cons, ih]

theorem ofLe_le : ofLe (le w x) = x % 256 ^ w := by
  induction w generalizing x with
  | zero => simp [le, ofLe, Nat.mod_one]
  | succ w ih => rw [le, ofLe, ih, Nat.pow_succ', Nat.mod_mul, Fin.val_ofNat]

theorem ofLe_le_of_lt (h : x < 256 ^ w) : ofLe (le w x) = x := by
  rw [ofLe_le, Nat.mod_eq_of_lt h]

theorem ofLe_lt : ofLe l < 256 ^ l.length := by
  induction l with
  | nil => simp [ofLe]
  | cons b l ih =>
    have hb := b.isLt
    rw [ofLe, List.length_cons, Nat.pow_succ']
    omega

theorem le_ofLe : le l.length (ofLe l) = l := by
  induction l with
  | nil => rfl
  | cons b l ih =>
    have hb := b.isLt
    have hdiv : (b.val + 256 * ofLe l) / 256 = ofLe l := by omega
    rw [List.length_cons, le, ofLe, hdiv, ih]
    congr 1
    apply Fin.ext
    rw [Fin.val_ofNat]
    omega

/-- A number written in more bytes than it needs starts with the bytes it needs. -/
theorem take_le (h : n ≤ w) : (le w x).take n = le n x := by
  induction w generalizing x n with
  | zero =>
    obtain rfl : n = 0 := by omega
    rfl
  | succ w ih =>
    cases n with
    | zero => rfl
    | succ n => rw [le, List.take_succ_cons, ih (by omega), le]

theorem field_eq (h : At l i (le w x ++ l')) (hx : x < 256 ^ w) : ofLe (slice l i w) = x := by
  have hs := h.slice_eq
  rw [length_le] at hs
  rw [hs, ofLe_le_of_lt hx]

theorem field_next (h : At l i (le w x ++ l')) : At l (i + w) l' := by
  have hn := h.next
  rw [length_le] at hn
  exact hn

/-- The numbers `cs` of `w` bits each, least significant first. -/
def pack (w : ℕ) : List ℕ → ℕ
  | [] => 0
  | c :: cs => c + 2 ^ w * pack w cs

/-- `for (i, c) in cs { packed |= c << (w * i) }`, from field `i` on. -/
def orLoop (w : ℕ) : List ℕ → ℕ → ℕ → ℕ
  | [], _, packed => packed
  | c :: cs, i, packed => orLoop w cs (i + 1) (packed ||| c <<< (w * i))

variable {cs : List ℕ} {packed c : ℕ}

theorem pack_bytes : pack 8 (l.map Fin.val) = ofLe l := by
  induction l with
  | nil => rfl
  | cons b l ih =>
    rw [List.map_cons, pack, ih, ofLe]
    rfl

theorem pack_lt (h : ∀ c ∈ cs, c < 2 ^ w) : pack w cs < 2 ^ (w * cs.length) := by
  induction cs with
  | nil => simp [pack]
  | cons c cs ih =>
    have hc := h c List.mem_cons_self
    have hcs := ih fun x hx => h x (List.mem_cons_of_mem c hx)
    have hstep : 2 ^ w * (pack w cs + 1) ≤ 2 ^ w * 2 ^ (w * cs.length) := Nat.mul_le_mul_left _ hcs
    rw [pack, List.length_cons, Nat.mul_succ, Nat.pow_add, Nat.mul_comm (2 ^ (w * cs.length))]
    rw [Nat.mul_succ] at hstep
    omega

/-- A word below bit `n` with a number put above it. -/
theorem or_shiftLeft (h : packed < 2 ^ n) : packed ||| c <<< n = packed + 2 ^ n * c := by
  rw [Nat.or_comm, ← Nat.shiftLeft_add_eq_or_of_lt h, Nat.shiftLeft_eq, Nat.mul_comm, Nat.add_comm]

theorem orLoop_eq (h : ∀ c ∈ cs, c < 2 ^ w) (hp : packed < 2 ^ (w * i)) :
    orLoop w cs i packed = packed + 2 ^ (w * i) * pack w cs := by
  induction cs generalizing i packed with
  | nil => simp [orLoop, pack]
  | cons c cs ih =>
    have hc := h c List.mem_cons_self
    have hstep : 2 ^ (w * i) * (c + 1) ≤ 2 ^ (w * i) * 2 ^ w := Nat.mul_le_mul_left _ hc
    have hp' : packed + 2 ^ (w * i) * c < 2 ^ (w * (i + 1)) := by
      rw [Nat.mul_succ, Nat.pow_add]
      rw [Nat.mul_succ] at hstep
      omega
    rw [orLoop, or_shiftLeft hp, ih (fun x hx => h x (List.mem_cons_of_mem c hx)) hp', pack,
      Nat.mul_succ w i, Nat.pow_add]
    ring

theorem pack_field (h : ∀ c ∈ cs, c < 2 ^ w) (i : ℕ) :
    pack w cs / 2 ^ (w * i) % 2 ^ w = cs.getD i 0 := by
  induction cs generalizing i with
  | nil => simp [pack]
  | cons c cs ih =>
    have hc := h c List.mem_cons_self
    cases i with
    | zero => simp [pack, Nat.mod_eq_of_lt hc]
    | succ i =>
      rw [pack, Nat.mul_succ, Nat.add_comm (w * i), Nat.pow_add, ← Nat.div_div_eq_div_mul,
        Nat.add_mul_div_left _ _ (Nat.two_pow_pos w), Nat.div_eq_of_lt hc, Nat.zero_add,
        ih fun x hx => h x (List.mem_cons_of_mem c hx)]
      rfl

theorem unpack_eq (h : ∀ c ∈ cs, c < 2 ^ w) :
    (List.range cs.length).map (fun i => pack w cs / 2 ^ (w * i) % 2 ^ w) = cs := by
  apply List.ext_getElem
  · simp
  · intro i hi hi'
    simp only [List.getElem_map, List.getElem_range]
    rw [pack_field h i, List.getD_eq_getElem?_getD, List.getElem?_eq_getElem hi', Option.getD_some]

end Bytes

end Expanse
