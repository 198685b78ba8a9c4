import Mathlib.Algebra.BigOperators.Group.List.Basic
import Mathlib.Tactic

/-!
# Next-fit packing into aligned bins

Items are appended to the last bin of capacity `S`, each from a multiple of `A` on; an
item that does not fit opens a bin. Items that are at least half an alignment unit long
fill all bins but the last to half on average, up to the padding: `A - 2` bytes a bin.
-/

namespace Expanse.NextFit

/-- The least multiple of `A` from `n` on. -/
def roundUp (A n : ℕ) : ℕ := (n + (A - 1)) / A * A

/-- The number of bins and the fill of the last one. -/
structure Bins where
  count : ℕ
  fill : ℕ

def Fits (S : ℕ) (b : Bins) (r : ℕ) : Prop := b.count ≠ 0 ∧ b.fill + r ≤ S

instance instDecidableFits (S : ℕ) (b : Bins) (r : ℕ) : Decidable (Fits S b r) :=
  inferInstanceAs (Decidable (_ ∧ _))

def place (A S : ℕ) (b : Bins) (r : ℕ) : Bins :=
  if Fits S b r then ⟨b.count, roundUp A (b.fill + r)⟩ else ⟨b.count + 1, roundUp A r⟩

def pack (A S : ℕ) (b : Bins) (rs : List ℕ) : Bins := rs.foldl (place A S) b

variable {A S n r load : ℕ} {b : Bins} {rs : List ℕ}

theorem le_roundUp (hA : 0 < A) : n ≤ roundUp A n := by
  have h := Nat.div_add_mod' (n + (A - 1)) A
  have hm := Nat.mod_lt (n + (A - 1)) hA
  rw [roundUp]
  omega

theorem roundUp_lt (hA : 0 < A) : roundUp A n < n + A := by
  have h := Nat.div_mul_le_self (n + (A - 1)) A
  rw [roundUp]
  omega

theorem dvd_roundUp : A ∣ roundUp A n := Dvd.intro_left _ rfl

theorem roundUp_add (hA : 0 < A) (hc : A ∣ n) : roundUp A (n + r) = n + roundUp A r := by
  obtain ⟨q, rfl⟩ := hc
  rw [roundUp, roundUp, Nat.add_assoc, Nat.add_comm, Nat.add_mul_div_left _ _ hA, Nat.add_mul,
    Nat.mul_comm q, Nat.add_comm]

/-- An item of half a unit takes at most twice its length. -/
theorem roundUp_le_two_mul (hA : 0 < A) (hr : A ≤ 2 * r) : roundUp A r ≤ 2 * r := by
  have hlt := roundUp_lt (n := r) hA
  rcases Nat.lt_or_ge r A with h | h
  · -- both are multiples of the unit below two units
    obtain ⟨q, hq⟩ := dvd_roundUp (A := A) (n := r)
    have hq1 : q < 2 := by
      by_contra hc
      have := Nat.mul_le_mul_left A (Nat.not_lt.mp hc)
      omega
    have := Nat.mul_le_mul_left A (Nat.lt_succ_iff.mp hq1)
    omega
  · omega

theorem le_roundUp_self (hA : 0 < A) (hr : 0 < r) : A ≤ roundUp A r :=
  Nat.le_of_dvd (Nat.lt_of_lt_of_le hr (le_roundUp hA)) dvd_roundUp

/-- What a packing of total length `load` keeps. -/
structure Packed (A S : ℕ) (b : Bins) (load : ℕ) : Prop where
  aligned : A ∣ b.fill
  started : b.count ≠ 0 → A ≤ b.fill
  bound : (b.count - 1) * (S + 2 - A) + b.fill ≤ 2 * load

theorem packed_empty : Packed A S ⟨0, 0⟩ 0 :=
  ⟨Nat.dvd_zero A, fun h => absurd rfl h, by simp⟩

/-- An item that opens a bin leaves the bins before it half full. -/
theorem Packed.opens (h : Packed A S b load) (hA : 2 ≤ A) (hS : A ≤ S)
    (hfit : ¬ Fits S b r) : b.count * (S + 2 - A) + roundUp A r ≤ 2 * load + 2 * r ∨
      b.count = 0 := by
  rcases Nat.eq_zero_or_pos b.count with h0 | hpos
  · exact .inr h0
  · left
    have hover : S < b.fill + r := by
      by_contra hc
      exact hfit ⟨by omega, by omega⟩
    have hlt := roundUp_lt (n := r) (show 0 < A by omega)
    have hb := h.bound
    have hsplit : b.count * (S + 2 - A) = (b.count - 1) * (S + 2 - A) + (S + 2 - A) := by
      obtain ⟨c, hc⟩ := Nat.exists_eq_add_of_le hpos
      rw [hc, Nat.add_sub_cancel_left, Nat.add_mul, Nat.one_mul, Nat.add_comm]
    omega

theorem Packed.place (h : Packed A S b load) (hA : 2 ≤ A) (hS : A ≤ S) (hr : A ≤ 2 * r) :
    Packed A S (place A S b r) (load + r) := by
  have hpos : 0 < A := by omega
  have htwo := roundUp_le_two_mul hpos hr
  rw [NextFit.place]
  split_ifs with hfit
  · have hadd := roundUp_add (r := r) hpos h.aligned
    refine ⟨dvd_roundUp, fun hc => ?_, ?_⟩
    · have := h.started hc
      dsimp only
      omega
    · have := h.bound
      dsimp only
      omega
  · refine ⟨dvd_roundUp, fun _ => le_roundUp_self hpos (by omega), ?_⟩
    dsimp only
    rw [Nat.add_sub_cancel]
    rcases h.opens hA hS hfit with ho | h0
    · omega
    · rw [h0, Nat.zero_mul]
      omega

theorem Packed.pack (h : Packed A S b load) (hA : 2 ≤ A) (hS : A ≤ S) (hrs : ∀ r ∈ rs, A ≤ 2 * r) :
    Packed A S (pack A S b rs) (load + rs.sum) := by
  induction rs generalizing b load with
  | nil => exact h
  | cons r rs ih =>
    rw [List.sum_cons, ← Nat.add_assoc]
    exact ih (h.place hA hS (hrs r List.mem_cons_self)) fun x hx => hrs x (List.mem_cons_of_mem r hx)

end Expanse.NextFit
