import Mathlib

/-!
# Order-preserving symbol codes

A code replaces each symbol of a string by a non-empty word. When the words of two
symbols first differ in the order of the symbols, and neither word is a prefix of the
other, the coded strings are ordered as the strings are, and one coded string is a
prefix of another exactly when the strings are.
-/

namespace Expanse

/-- `u` and `v` differ at some position, and the first such symbol of `u` is the smaller one. -/
def Diverges {β : Type*} [LT β] (u v : List β) : Prop :=
  ∃ p x y u' v', u = p ++ x :: u' ∧ v = p ++ y :: v' ∧ x < y

namespace Diverges

variable {β : Type*} [LinearOrder β] {u v : List β}

theorem append (h : Diverges u v) (s t : List β) : Diverges (u ++ s) (v ++ t) := by
  obtain ⟨p, x, y, u', v', rfl, rfl, hxy⟩ := h
  exact ⟨p, x, y, u' ++ s, v' ++ t, by simp, by simp, hxy⟩

theorem lt (h : Diverges u v) : u < v := by
  obtain ⟨p, x, y, u', v', rfl, rfl, hxy⟩ := h
  exact List.append_left_lt (List.cons_lt_cons_iff.mpr (.inl hxy))

theorem not_isPrefix (h : Diverges u v) : ¬ u <+: v := by
  obtain ⟨p, x, y, u', v', rfl, rfl, hxy⟩ := h
  intro hp
  rw [List.prefix_append_right_inj, List.cons_prefix_cons] at hp
  exact hxy.ne hp.1

theorem not_isPrefix' (h : Diverges u v) : ¬ v <+: u := by
  obtain ⟨p, x, y, u', v', rfl, rfl, hxy⟩ := h
  intro hp
  rw [List.prefix_append_right_inj, List.cons_prefix_cons] at hp
  exact hxy.ne hp.1.symm

end Diverges

/-- A code whose words are non-empty and diverge in the order of their symbols. -/
structure OrderCode (α β : Type*) [LinearOrder α] [LinearOrder β] where
  word : α → List β
  word_ne_nil : ∀ a, word a ≠ []
  diverges : ∀ {a b}, a < b → Diverges (word a) (word b)

namespace OrderCode

variable {α β : Type*} [LinearOrder α] [LinearOrder β] (c : OrderCode α β) {a b : List α}

def encode (a : List α) : List β := a.flatMap c.word

@[simp] theorem encode_nil : c.encode [] = [] := rfl

@[simp] theorem encode_cons (x : α) (a : List α) : c.encode (x :: a) = c.word x ++ c.encode a := by
  simp [encode]

theorem encode_eq_nil : c.encode a = [] ↔ a = [] := by
  cases a with
  | nil => simp
  | cons x a => simp [c.word_ne_nil x]

theorem encode_lt (h : a < b) : c.encode a < c.encode b := by
  induction a generalizing b with
  | nil =>
    cases b with
    | nil => exact absurd h (lt_irrefl _)
    | cons y b =>
      obtain ⟨z, w, hw⟩ := List.exists_cons_of_ne_nil (mt c.encode_eq_nil.mp (List.cons_ne_nil y b))
      rw [hw]
      exact List.nil_lt_cons z w
  | cons x a ih =>
    cases b with
    | nil => exact absurd h (by simp)
    | cons y b =>
      rw [encode_cons, encode_cons]
      rcases List.cons_lt_cons_iff.mp h with hxy | ⟨rfl, hab⟩
      · exact ((c.diverges hxy).append _ _).lt
      · exact List.append_left_lt (ih hab)

theorem encode_strictMono : StrictMono c.encode := fun _ _ => c.encode_lt

theorem encode_le_iff : c.encode a ≤ c.encode b ↔ a ≤ b := c.encode_strictMono.le_iff_le

theorem encode_inj : c.encode a = c.encode b ↔ a = b := c.encode_strictMono.injective.eq_iff

theorem encode_isPrefix_iff : c.encode a <+: c.encode b ↔ a <+: b := by
  induction a generalizing b with
  | nil => simp
  | cons x a ih =>
    cases b with
    | nil => simp [c.word_ne_nil x]
    | cons y b =>
      rw [encode_cons, encode_cons, List.cons_prefix_cons]
      rcases lt_trichotomy x y with hxy | rfl | hxy
      · have h := ((c.diverges hxy).append (c.encode a) (c.encode b)).not_isPrefix
        simp [h, hxy.ne]
      · rw [List.prefix_append_right_inj, ih]
        simp
      · have h := ((c.diverges hxy).append (c.encode b) (c.encode a)).not_isPrefix'
        simp [h, hxy.ne']

end OrderCode

end Expanse
