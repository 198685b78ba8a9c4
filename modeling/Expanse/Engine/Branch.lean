import Expanse.Library.RankedArray

/-!
# Branch nodes

A branch maps each of 256 digits to a child slot. Three layouts store the map:
linear nodes with a sorted digit array (three or seven slots), a bitmap node with
packed subarrays, and an uncompressed node with 256 direct slots. Every layout is
read through `child`; the lemmas say what each edit does to that reading.
-/

namespace Expanse

open SortedAssoc

/-- A slot type with an empty value. -/
class Nullable (α : Type) where
  null : α
  isNull : α → Bool
  isNull_iff : ∀ a, isNull a = true ↔ a = null

def BRANCH_L3_CAP : ℕ := 3
def BRANCH_L7_CAP : ℕ := 7
def BRANCHB_UP : ℕ := 192
def BRANCHB_TO_L7_DOWN : ℕ := 6
def BRANCHU_TO_B_DOWN : ℕ := 160

/-- Header of a linear branch; `num` is the length of `digits`. -/
structure BranchHeader where
  level : ℕ
  presence : ℕ
  digits : List ℕ

namespace BranchHeader

def new (level : ℕ) : BranchHeader := ⟨level, 0, []⟩

def addPresence (presence d : ℕ) : ℕ := presence ||| 2 ^ (d % 16)

def refreshPresence (digits : List ℕ) : ℕ := digits.foldl addPresence 0

/-- Slot of `d`, behind the 16-bit presence filter. -/
def find (h : BranchHeader) (d : ℕ) : Option ℕ :=
  if h.presence.testBit (d % 16) then indexOf? h.digits d else none

end BranchHeader

inductive LinearForm where
  | l3
  | l7
deriving DecidableEq

def LinearForm.cap : LinearForm → ℕ
  | .l3 => BRANCH_L3_CAP
  | .l7 => BRANCH_L7_CAP

/-- The branch layouts. An uncompressed node carries no level: it never skips. -/
inductive Branch (α : Type) where
  | linear (form : LinearForm) (hdr : BranchHeader) (edges : List α)
  | bitmap (level : ℕ) (kids : Ranked α)
  | uncompressed (edges : List α)

namespace Branch

variable {α : Type}

/-- The node's own level under a slot at `slotLevel`. -/
def level (slotLevel : ℕ) : Branch α → ℕ
  | linear _ hdr _ => hdr.level
  | bitmap level _ => level
  | uncompressed _ => slotLevel

variable [Nullable α]

def newL3 (level : ℕ) : Branch α := .linear .l3 (BranchHeader.new level) []

/-- The populated slot of `d`. The unrolled three-slot search compares digits directly; the
seven-slot search asks the presence filter first. -/
def find (d : ℕ) : Branch α → Option α
  | linear .l3 hdr edges => (indexOf? hdr.digits d).bind (edges[·]?)
  | linear .l7 hdr edges => (hdr.find d).bind (edges[·]?)
  | bitmap _ kids => kids.get d
  | uncompressed edges => edges[d]?

/-- The child under `d`, null when the digit has no slot. -/
def child (b : Branch α) (d : ℕ) : α := (b.find d).getD Nullable.null

/-- Store through the slot of `d`. -/
def setChild (d : ℕ) (c : α) : Branch α → Branch α
  | linear form hdr edges =>
    match indexOf? hdr.digits d with
    | some i => linear form hdr (edges.set i c)
    | none => linear form hdr edges
  | bitmap level kids => bitmap level (kids.set d c)
  | uncompressed edges => uncompressed (edges.set d c)

/-- Open a null slot for an absent digit at its sorted position. -/
def insertSlot (d : ℕ) : Branch α → Branch α
  | linear form hdr edges =>
    let pos := hdr.digits.findIdx (d < ·)
    linear form
      { level := hdr.level
        presence := BranchHeader.addPresence hdr.presence d
        digits := hdr.digits.insertIdx pos d }
      (edges.insertIdx pos Nullable.null)
  | bitmap level kids => bitmap level (kids.insert d Nullable.null)
  | uncompressed edges => uncompressed edges

/-- Close the slot of `d`; an uncompressed node keeps a null slot instead. -/
def removeSlot (d : ℕ) : Branch α → Branch α
  | linear form hdr edges =>
    match indexOf? hdr.digits d with
    | some i =>
      let digits := hdr.digits.eraseIdx i
      linear form ⟨hdr.level, BranchHeader.refreshPresence digits, digits⟩ (edges.eraseIdx i)
    | none => linear form hdr edges
  | bitmap level kids => bitmap level (kids.remove d)
  | uncompressed edges => uncompressed (edges.set d Nullable.null)

/-- The populated slots in digit order, as the node stores them. -/
def slots : Branch α → List (ℕ × α)
  | linear _ hdr edges => hdr.digits.zip edges
  | bitmap _ kids => kids.entries
  | uncompressed edges => ((List.range 256).zip edges).filter fun e => !Nullable.isNull e.2

def count : Branch α → ℕ
  | linear _ hdr _ => hdr.digits.length
  | bitmap _ kids => Bitmap.count kids.bits
  | uncompressed edges => (edges.filter fun e => !Nullable.isNull e).length

/-- `upgrade_l3_to_l7`: header and edges are copied into the bigger node. -/
def upgradeL3ToL7 : Branch α → Branch α
  | linear _ hdr edges => linear .l7 hdr edges
  | b => b

/-- `upgrade_l7_to_b`: the children are packed per subexpanse. -/
def upgradeL7ToB : Branch α → Branch α
  | linear _ hdr edges => bitmap hdr.level (Ranked.ofEntries (hdr.digits.zip edges))
  | b => b

/-- `upgrade_b_to_u`: the subarrays are flattened into 256 direct slots. -/
def upgradeBToU : Branch α → Branch α
  | bitmap _ kids =>
    uncompressed ((List.range 256).map fun d => (kids.get d).getD Nullable.null)
  | b => b

/-- `downgrade_l7_to_l3`: header and the first three edges are copied. -/
def downgradeL7ToL3 : Branch α → Branch α
  | linear _ hdr edges => linear .l3 hdr (edges.take BRANCH_L3_CAP)
  | b => b

/-- `downgrade_b_to_l7`: the bitmap is walked in digit order. -/
def downgradeBToL7 : Branch α → Branch α
  | bitmap level kids =>
    let digits := kids.entries.map Prod.fst
    linear .l7 ⟨level, digits.foldl BranchHeader.addPresence 0, digits⟩ (kids.entries.map Prod.snd)
  | b => b

/-- `downgrade_u_to_b`: the non-null slots are packed per subexpanse. -/
def downgradeUToB (level : ℕ) : Branch α → Branch α
  | uncompressed edges =>
    bitmap level (Ranked.ofEntries
      (((List.range 256).zip edges).filter fun e => !Nullable.isNull e.2))
  | b => b

/-- Well-formed layout: digits ascend below 256, one edge per digit, every present digit
passes the filter, and the node is within its capacity. -/
def Ok : Branch α → Prop
  | linear form hdr edges =>
    hdr.digits.length = edges.length ∧ hdr.digits.Pairwise (· < ·) ∧
      (∀ d ∈ hdr.digits, d < 256) ∧ (∀ d ∈ hdr.digits, hdr.presence.testBit (d % 16) = true) ∧
      hdr.digits.length ≤ form.cap
  | bitmap _ kids => kids.Ok
  | uncompressed edges => edges.length = 256

/-- Only an uncompressed node stores null slots. -/
def isSparse : Branch α → Bool
  | uncompressed _ => false
  | _ => true

/-- No slot of a sparse layout holds the null edge. -/
def Filled (b : Branch α) : Prop :=
  b.isSparse = true → ∀ d c, b.find d = some c → c ≠ Nullable.null

/-- A further digit fits in the node. -/
def HasRoom : Branch α → Prop
  | linear form hdr _ => hdr.digits.length < form.cap
  | _ => True

end Branch

namespace BranchHeader

theorem findIdx_eq_lowerBound {digits : List ℕ} {d : ℕ} (hd : d ∉ digits) :
    digits.findIdx (d < ·) = lowerBound digits d := by
  induction digits with
  | nil => rfl
  | cons x xs ih =>
    simp only [List.mem_cons, not_or] at hd
    rw [List.findIdx_cons, lowerBound, ih hd.2]
    by_cases hx : d < x
    · simp [hx, hx.le]
    · have : ¬ d ≤ x := by omega
      simp [hx, this]

theorem testBit_foldl_addPresence (digits : List ℕ) (p i : ℕ) :
    (digits.foldl addPresence p).testBit i = true ↔
      p.testBit i = true ∨ ∃ d ∈ digits, d % 16 = i := by
  induction digits generalizing p with
  | nil => simp
  | cons x xs ih =>
    rw [List.foldl_cons, ih]
    simp only [addPresence, Nat.testBit_or, Nat.testBit_two_pow, Bool.or_eq_true,
      decide_eq_true_eq, List.mem_cons, exists_eq_or_imp]
    tauto

end BranchHeader

namespace Branch

variable {α : Type}

section Linear

variable {hdr : BranchHeader} {edges : List α} {form : LinearForm}

theorem zip_sorted (h : (linear form hdr edges).Ok) : KeySorted (hdr.digits.zip edges) := by
  obtain ⟨hlen, hs, -⟩ := h
  rw [keySorted_iff, List.map_fst_zip (le_of_eq hlen)]
  exact hs

theorem zip_keys (h : (linear form hdr edges).Ok) :
    (hdr.digits.zip edges).map Prod.fst = hdr.digits := List.map_fst_zip (le_of_eq h.1)

theorem find_linear (h : (linear form hdr edges).Ok) (d : ℕ) :
    find d (linear form hdr edges) = (indexOf? hdr.digits d).bind (edges[·]?) := by
  cases form with
  | l3 => rfl
  | l7 =>
    obtain ⟨-, -, -, hp, -⟩ := h
    rw [find, BranchHeader.find]
    split_ifs with hb
    · rfl
    · rw [indexOf?_of_not_mem fun hd => hb (hp d hd)]

theorem find_linear_iff (h : (linear form hdr edges).Ok) {d : ℕ} {c : α} :
    find d (linear form hdr edges) = some c ↔ (d, c) ∈ hdr.digits.zip edges := by
  rw [find_linear h]
  exact bind_indexOf?_iff h.2.1

theorem find_linear_isSome (h : (linear form hdr edges).Ok) {d : ℕ} :
    (find d (linear form hdr edges)).isSome ↔ d ∈ hdr.digits := by
  rw [Option.isSome_iff_exists]
  constructor
  · rintro ⟨c, hc⟩
    exact (List.of_mem_zip ((find_linear_iff h).mp hc)).1
  · intro hd
    rw [← zip_keys h] at hd
    obtain ⟨⟨x, c⟩, hx, rfl⟩ := List.mem_map.mp hd
    exact ⟨c, (find_linear_iff h).mpr hx⟩

end Linear

variable [Nullable α]

section Reading

variable {b : Branch α} (h : b.Ok)

include h

omit [Nullable α] in
theorem find_lt {d : ℕ} {c : α} (hf : b.find d = some c) : d < 256 := by
  cases b with
  | linear form hdr edges =>
    exact h.2.2.1 d (List.of_mem_zip ((find_linear_iff h).mp hf)).1
  | bitmap level kids => exact Ranked.get_bound h hf
  | uncompressed edges =>
    have := (List.getElem?_eq_some_iff.mp hf).1
    rwa [show edges.length = 256 from h] at this

theorem slots_sorted : KeySorted b.slots := by
  cases b with
  | linear form hdr edges => exact zip_sorted h
  | bitmap level kids => exact Ranked.entries_sorted h
  | uncompressed edges =>
    rw [slots]
    apply List.Pairwise.sublist List.filter_sublist
    have hk : KeySorted ((List.range 256).zip edges) := by
      rw [keySorted_iff, List.map_fst_zip (by simp [show edges.length = 256 from h])]
      exact List.pairwise_lt_range
    exact hk

theorem mem_slots {d : ℕ} {c : α} :
    (d, c) ∈ b.slots ↔ b.find d = some c ∧ (b.isSparse = false → c ≠ Nullable.null) := by
  cases b with
  | linear form hdr edges => simp [slots, find_linear_iff h, isSparse]
  | bitmap level kids => simp [slots, find, Ranked.mem_entries h, isSparse]
  | uncompressed edges =>
    have hlen : edges.length = 256 := h
    simp only [slots, List.mem_filter, find, isSparse, forall_const]
    have hn : (!Nullable.isNull c) = true ↔ c ≠ Nullable.null := by
      rw [Bool.not_eq_true', ← Bool.not_eq_true, Nullable.isNull_iff]
    rw [hn]
    refine and_congr_left fun _ => ?_
    constructor
    · intro hm
      obtain ⟨i, hi⟩ := List.mem_iff_getElem?.mp hm
      obtain ⟨h1, h2⟩ := List.getElem?_zip_eq_some.mp hi
      obtain ⟨_, h1⟩ := List.getElem?_eq_some_iff.mp h1
      rw [List.getElem_range] at h1
      have hid : i = d := h1
      rw [← hid]
      exact h2
    · intro hc
      have hlt := (List.getElem?_eq_some_iff.mp hc).1
      apply List.mem_of_getElem? (i := d)
      rw [List.getElem?_zip_eq_some]
      exact ⟨by rw [List.getElem?_range (by omega)], hc⟩

theorem mem_slots_iff (hf : b.Filled) {d : ℕ} {c : α} :
    (d, c) ∈ b.slots ↔ b.child d = c ∧ c ≠ Nullable.null := by
  rw [mem_slots h, child]
  constructor
  · rintro ⟨hc, hn⟩
    rw [hc]
    refine ⟨rfl, ?_⟩
    cases hs : b.isSparse with
    | true => exact hf hs d c hc
    | false => exact hn hs
  · rintro ⟨hc, hn⟩
    cases hd : b.find d with
    | none =>
      rw [hd] at hc
      exact absurd hc.symm hn
    | some e =>
      rw [hd] at hc
      exact ⟨by rw [← hc]; rfl, fun _ => hn⟩

theorem child_of_not_lt {d : ℕ} (hd : 256 ≤ d) : b.child d = Nullable.null := by
  rw [child]
  cases hf : b.find d with
  | none => rfl
  | some c =>
    have := find_lt h hf
    omega

end Reading

section Storing

variable {b : Branch α} (h : b.Ok) {d : ℕ}

include h

omit [Nullable α] in
theorem setChild_ok (hd : (b.find d).isSome) (c : α) : (b.setChild d c).Ok := by
  cases b with
  | linear form hdr edges =>
    have hm := (find_linear_isSome h).mp hd
    obtain ⟨hlen, hs, hb, hp, hc⟩ := h
    rw [setChild, indexOf?_of_mem hs hm]
    exact ⟨by rw [List.length_set]; exact hlen, hs, hb, hp, hc⟩
  | bitmap level kids =>
    exact Ranked.set_ok h (h.bound d ((Ranked.get_isSome h).mp hd)) c
  | uncompressed edges =>
    change (edges.set d c).length = 256
    rw [List.length_set]
    exact h

omit [Nullable α] in
theorem find_setChild (hd : (b.find d).isSome) (c : α) (x : ℕ) :
    (b.setChild d c).find x = if x = d then some c else b.find x := by
  have hok := setChild_ok h hd c
  cases b with
  | linear form hdr edges =>
    have hm := (find_linear_isSome h).mp hd
    have hs := zip_sorted h
    have hg := getElem?_lowerBound h.2.1 hm
    obtain ⟨e, he⟩ := Option.isSome_iff_exists.mp hd
    have hz : (hdr.digits.zip edges)[lowerBound hdr.digits d]? = some (d, e) := by
      rw [List.getElem?_zip_eq_some]
      refine ⟨hg, ?_⟩
      rw [find_linear h, indexOf?_of_mem h.2.1 hm] at he
      exact he
    rw [setChild, indexOf?_of_mem h.2.1 hm] at hok ⊢
    apply Option.ext
    intro y
    rw [find_linear_iff hok, zip_set hg, updated_set hs hz x y]
    by_cases hx : x = d
    · simp [hx, eq_comm]
    · simp [hx, find_linear_iff h]
  | bitmap level kids => exact Ranked.get_set h ((Ranked.get_isSome h).mp hd) c x
  | uncompressed edges =>
    obtain ⟨e, he⟩ := Option.isSome_iff_exists.mp hd
    have hlt := (List.getElem?_eq_some_iff.mp he).1
    rw [setChild, find, find, List.getElem?_set]
    by_cases hx : x = d
    · subst hx
      simp [hlt]
    · simp [hx, Ne.symm hx]

theorem child_setChild (hd : (b.find d).isSome) (c : α) (x : ℕ) :
    (b.setChild d c).child x = if x = d then c else b.child x := by
  rw [child, find_setChild h hd, child]
  split_ifs <;> rfl

omit [Nullable α] in
theorem setChild_find {c : α} (hf : b.find d = some c) : b.setChild d c = b := by
  cases b with
  | linear form hdr edges =>
    have hm := (find_linear_isSome h).mp (by rw [hf]; rfl)
    rw [find_linear h, indexOf?_of_mem h.2.1 hm] at hf
    obtain ⟨hlt, he⟩ := List.getElem?_eq_some_iff.mp hf
    rw [setChild, indexOf?_of_mem h.2.1 hm, ← he]
    simp
  | bitmap level kids => rw [setChild, Ranked.set_get hf]
  | uncompressed edges =>
    obtain ⟨hlt, he⟩ := List.getElem?_eq_some_iff.mp hf
    rw [setChild, ← he]
    simp

omit [Nullable α] h in
variable (b d) in
theorem setChild_setChild (c c' : α) : (b.setChild d c).setChild d c' = b.setChild d c' := by
  cases b with
  | linear form hdr edges =>
    cases hi : indexOf? hdr.digits d with
    | none => simp [setChild, hi]
    | some i => simp [setChild, hi]
  | bitmap level kids => rw [setChild, setChild, setChild, Ranked.set_set]
  | uncompressed edges => simp [setChild]

omit [Nullable α] in
theorem setChild_comm {d' : ℕ} (hd : (b.find d).isSome) (hd' : (b.find d').isSome) (hne : d ≠ d')
    (c c' : α) : (b.setChild d c).setChild d' c' = (b.setChild d' c').setChild d c := by
  cases b with
  | linear form hdr edges =>
    have hi := indexOf?_of_mem h.2.1 ((find_linear_isSome h).mp hd)
    have hi' := indexOf?_of_mem h.2.1 ((find_linear_isSome h).mp hd')
    have hg := getElem?_lowerBound h.2.1 ((find_linear_isSome h).mp hd)
    have hg' := getElem?_lowerBound h.2.1 ((find_linear_isSome h).mp hd')
    simp only [setChild, hi, hi']
    rw [List.set_comm]
    intro he
    rw [he, hg'] at hg
    cases hg
    exact hne rfl
  | bitmap level kids =>
    rw [setChild, setChild, setChild, setChild,
      Ranked.set_comm ((Ranked.get_isSome h).mp hd) ((Ranked.get_isSome h).mp hd') hne]
  | uncompressed edges =>
    simp only [setChild]
    rw [List.set_comm _ _ hne]

theorem insertSlot_ok (hd : b.find d = none) (h256 : d < 256) (hroom : b.HasRoom) :
    (b.insertSlot d).Ok := by
  cases b with
  | linear form hdr edges =>
    have hm : d ∉ hdr.digits := by
      rw [← find_linear_isSome h, hd]
      simp
    obtain ⟨hlen, hs, hb, hp, hc⟩ := h
    rw [insertSlot]
    simp only [BranchHeader.findIdx_eq_lowerBound hm]
    refine ⟨?_, pairwise_insert hs hm, ?_, ?_, ?_⟩
    · rw [List.length_insertIdx, List.length_insertIdx, hlen]
    · intro x hx
      rcases (List.mem_insertIdx (lowerBound_le _ _)).mp hx with rfl | hx
      · exact h256
      · exact hb x hx
    · intro x hx
      simp only [BranchHeader.addPresence, Nat.testBit_or, Nat.testBit_two_pow, Bool.or_eq_true,
        decide_eq_true_eq]
      rcases (List.mem_insertIdx (lowerBound_le _ _)).mp hx with rfl | hx
      · exact Or.inr rfl
      · exact Or.inl (hp x hx)
    · rw [List.length_insertIdx_of_le_length (lowerBound_le _ _)]
      exact hroom
  | bitmap level kids =>
    have hb : kids.bits.testBit d = false := by
      rw [← Bool.not_eq_true, ← Ranked.get_isSome h]
      simp [show kids.get d = none from hd]
    exact Ranked.insert_ok h h256 hb _
  | uncompressed edges => exact h

theorem find_insertSlot (hd : b.find d = none) (h256 : d < 256) (hroom : b.HasRoom) (x : ℕ) :
    (b.insertSlot d).find x = if x = d then some Nullable.null else b.find x := by
  have hok := insertSlot_ok h hd h256 hroom
  cases b with
  | linear form hdr edges =>
    have hm : d ∉ hdr.digits := by
      rw [← find_linear_isSome h, hd]
      simp
    apply Option.ext
    intro y
    rw [insertSlot] at hok ⊢
    simp only [BranchHeader.findIdx_eq_lowerBound hm] at hok ⊢
    rw [find_linear_iff hok, zip_insertIdx h.1, updated_insertIdx _ _ x y]
    · by_cases hx : x = d
      · simp [hx, eq_comm]
      · simp [hx, find_linear_iff h]
    · rw [← List.length_map (f := Prod.fst), zip_keys h]
      exact lowerBound_le _ _
    · rwa [zip_keys h]
  | bitmap level kids =>
    have hb : kids.bits.testBit d = false := by
      rw [← Bool.not_eq_true, ← Ranked.get_isSome h]
      simp [show kids.get d = none from hd]
    exact Ranked.get_insert h h256 hb _ x
  | uncompressed edges =>
    rw [find, List.getElem?_eq_none_iff, show edges.length = 256 from h] at hd
    omega

theorem child_insertSlot (hd : b.find d = none) (h256 : d < 256) (hroom : b.HasRoom) (x : ℕ) :
    (b.insertSlot d).child x = b.child x := by
  rw [child, find_insertSlot h hd h256 hroom, child]
  split_ifs with hx
  · rw [hx, hd]
    rfl
  · rfl

theorem removeSlot_ok (hd : (b.find d).isSome) : (b.removeSlot d).Ok := by
  cases b with
  | linear form hdr edges =>
    have hm := (find_linear_isSome h).mp hd
    obtain ⟨hlen, hs, hb, hp, hc⟩ := h
    rw [removeSlot, indexOf?_of_mem hs hm]
    refine ⟨?_, hs.sublist (List.eraseIdx_sublist _ _),
      fun x hx => hb x (List.mem_of_mem_eraseIdx hx), ?_, ?_⟩
    · rw [List.length_eraseIdx, List.length_eraseIdx, hlen]
    · intro x hx
      rw [BranchHeader.refreshPresence, BranchHeader.testBit_foldl_addPresence]
      exact Or.inr ⟨x, hx, rfl⟩
    · exact (List.length_eraseIdx_le _ _).trans hc
  | bitmap level kids => exact Ranked.remove_ok h ((Ranked.get_isSome h).mp hd)
  | uncompressed edges =>
    change (edges.set d Nullable.null).length = 256
    rw [List.length_set]
    exact h

theorem find_removeSlot (hd : (b.find d).isSome) (x : ℕ) :
    (b.removeSlot d).find x =
      if x = d then (if b.isSparse then none else some Nullable.null) else b.find x := by
  have hok := removeSlot_ok h hd
  cases b with
  | linear form hdr edges =>
    have hm := (find_linear_isSome h).mp hd
    have hs := zip_sorted h
    have hg := getElem?_lowerBound h.2.1 hm
    obtain ⟨e, he⟩ := Option.isSome_iff_exists.mp hd
    have hz : (hdr.digits.zip edges)[lowerBound hdr.digits d]? = some (d, e) := by
      rw [List.getElem?_zip_eq_some]
      refine ⟨hg, ?_⟩
      rw [find_linear h, indexOf?_of_mem h.2.1 hm] at he
      exact he
    rw [removeSlot, indexOf?_of_mem h.2.1 hm] at hok ⊢
    apply Option.ext
    intro y
    rw [find_linear_iff hok, zip_eraseIdx, erased_eraseIdx hs hz x y]
    by_cases hx : x = d
    · simp [hx, isSparse]
    · simp [hx, find_linear_iff h]
  | bitmap level kids => exact Ranked.get_remove h ((Ranked.get_isSome h).mp hd) x
  | uncompressed edges =>
    obtain ⟨e, he⟩ := Option.isSome_iff_exists.mp hd
    have hlt := (List.getElem?_eq_some_iff.mp he).1
    rw [removeSlot, find, find, List.getElem?_set]
    by_cases hx : x = d
    · subst hx
      simp [hlt, isSparse]
    · simp [hx, Ne.symm hx]

theorem child_removeSlot (hd : (b.find d).isSome) (x : ℕ) :
    (b.removeSlot d).child x = if x = d then Nullable.null else b.child x := by
  rw [child, find_removeSlot h hd, child]
  split_ifs <;> rfl

theorem setChild_filled (hd : (b.find d).isSome) {c : α} (hc : c ≠ Nullable.null)
    (hf : b.isSparse = true → ∀ x e, x ≠ d → b.find x = some e → e ≠ Nullable.null) :
    (b.setChild d c).Filled := by
  have hsp : (b.setChild d c).isSparse = b.isSparse := by
    cases b with
    | linear form hdr edges =>
      rw [setChild]
      split <;> rfl
    | bitmap _ _ => rfl
    | uncompressed _ => rfl
  intro hs x e he
  rw [find_setChild h hd] at he
  split_ifs at he with hx
  · cases he
    exact hc
  · exact hf (hsp ▸ hs) x e hx he

theorem insertSlot_filled (hd : b.find d = none) (h256 : d < 256) (hroom : b.HasRoom)
    (hf : b.Filled) : (b.insertSlot d).isSparse = true →
      ∀ x e, x ≠ d → (b.insertSlot d).find x = some e → e ≠ Nullable.null := by
  intro hs x e hx he
  rw [find_insertSlot h hd h256 hroom, if_neg hx] at he
  refine hf ?_ x e he
  cases b <;> simp_all [insertSlot, isSparse]

theorem removeSlot_filled (hd : (b.find d).isSome) (hf : b.Filled) : (b.removeSlot d).Filled := by
  have hsp : (b.removeSlot d).isSparse = b.isSparse := by
    cases b with
    | linear form hdr edges =>
      rw [removeSlot]
      split <;> rfl
    | bitmap _ _ => rfl
    | uncompressed _ => rfl
  intro hs x e he
  rw [hsp] at hs
  rw [find_removeSlot h hd] at he
  simp only [hs, if_true] at he
  split_ifs at he
  exact hf hs x e he

end Storing

section Level

variable (b : Branch α) (d L : ℕ)

omit [Nullable α] in
@[simp] theorem level_setChild (c : α) : (b.setChild d c).level L = b.level L := by
  cases b with
  | linear form hdr edges =>
    rw [setChild]
    split <;> rfl
  | bitmap _ _ => rfl
  | uncompressed _ => rfl

@[simp] theorem level_insertSlot : (b.insertSlot d).level L = b.level L := by
  cases b <;> rfl

@[simp] theorem level_removeSlot : (b.removeSlot d).level L = b.level L := by
  cases b with
  | linear form hdr edges =>
    rw [removeSlot]
    split <;> rfl
  | bitmap _ _ => rfl
  | uncompressed _ => rfl

end Level

-- Each change of layout keeps the reading of every digit.
section Layout

variable {hdr : BranchHeader} {edges : List α} {form : LinearForm} {level : ℕ} {kids : Ranked α}

omit [Nullable α] in
theorem relabel_ok (h : (linear form hdr edges).Ok) {form' : LinearForm}
    (hc : hdr.digits.length ≤ form'.cap) : (linear form' hdr edges).Ok :=
  ⟨h.1, h.2.1, h.2.2.1, h.2.2.2.1, hc⟩

omit [Nullable α] in
theorem find_relabel (h : (linear form hdr edges).Ok) {form' : LinearForm}
    (h' : (linear form' hdr edges).Ok) (d : ℕ) :
    find d (linear form' hdr edges) = find d (linear form hdr edges) := by
  rw [find_linear h, find_linear h']

theorem child_congr {b b' : Branch α} (h : ∀ d, b'.find d = b.find d) (d : ℕ) :
    b'.child d = b.child d := by rw [child, child, h]

theorem filled_congr {b b' : Branch α} (h : ∀ d, b'.find d = b.find d) (hs : b.isSparse = true)
    (hf : b.Filled) : b'.Filled := fun _ d c hc => hf hs d c (by rw [← h]; exact hc)

omit [Nullable α] in
theorem upgradeL3ToL7_ok (h : (linear .l3 hdr edges).Ok) :
    (linear .l7 hdr edges).Ok :=
  relabel_ok h (h.2.2.2.2.trans (by decide))

omit [Nullable α] in
theorem upgradeL7ToB_ok (h : (linear form hdr edges).Ok) :
    (upgradeL7ToB (linear form hdr edges)).Ok :=
  Ranked.ofEntries_ok (zip_sorted h) fun _ he => h.2.2.1 _ (List.of_mem_zip he).1

omit [Nullable α] in
theorem find_upgradeL7ToB (h : (linear form hdr edges).Ok) (d : ℕ) :
    find d (upgradeL7ToB (linear form hdr edges)) = find d (linear form hdr edges) := by
  apply Option.ext
  intro c
  rw [find_linear_iff h]
  exact Ranked.get_ofEntries (zip_sorted h) fun _ he => h.2.2.1 _ (List.of_mem_zip he).1

theorem upgradeBToU_ok : (upgradeBToU (bitmap level kids)).Ok := by
  simp [upgradeBToU, Ok]

theorem child_upgradeBToU (h : (bitmap level kids).Ok) (d : ℕ) :
    (upgradeBToU (bitmap level kids)).child d = (bitmap level kids).child d := by
  by_cases hd : d < 256
  · simp [child, upgradeBToU, find, hd]
  · rw [child_of_not_lt upgradeBToU_ok (by omega), child_of_not_lt h (by omega)]

theorem filled_uncompressed : (uncompressed edges).Filled := by
  intro hs
  cases hs

omit [Nullable α] in
theorem downgradeL7ToL3_ok (h : (linear form hdr edges).Ok)
    (hn : hdr.digits.length ≤ BRANCH_L3_CAP) :
    downgradeL7ToL3 (linear form hdr edges) = linear .l3 hdr edges ∧
      (linear .l3 hdr edges).Ok := by
  refine ⟨?_, relabel_ok h hn⟩
  rw [downgradeL7ToL3, List.take_of_length_le (by rw [← h.1]; exact hn)]

omit [Nullable α] in
theorem downgradeBToL7_ok (h : (bitmap level kids).Ok)
    (hn : Bitmap.count kids.bits ≤ BRANCH_L7_CAP) :
    (downgradeBToL7 (bitmap level kids)).Ok := by
  have hk := Ranked.entries_keys h
  refine ⟨by simp, keySorted_iff.mp (Ranked.entries_sorted h), ?_, ?_, ?_⟩
  · intro d hd
    rw [hk] at hd
    exact (Bitmap.mem_digits.mp hd).1
  · intro d hd
    rw [BranchHeader.testBit_foldl_addPresence]
    exact Or.inr ⟨d, hd, rfl⟩
  · rw [hk]
    exact hn

omit [Nullable α] in
theorem find_downgradeBToL7 (h : (bitmap level kids).Ok)
    (hn : Bitmap.count kids.bits ≤ BRANCH_L7_CAP) (d : ℕ) :
    find d (downgradeBToL7 (bitmap level kids)) = find d (bitmap level kids) := by
  apply Option.ext
  intro c
  have hok := downgradeBToL7_ok h hn
  rw [downgradeBToL7] at hok ⊢
  rw [find_linear_iff hok, zip_fst_snd]
  exact Ranked.mem_entries h

variable (level) in
theorem downgradeUToB_ok (h : (uncompressed edges).Ok) :
    (downgradeUToB level (uncompressed edges)).Ok := by
  have hs := slots_sorted h
  exact Ranked.ofEntries_ok hs fun e he =>
    find_lt h ((mem_slots h (d := e.1) (c := e.2)).mp he).1

theorem find_downgradeUToB (h : (uncompressed edges).Ok) {d : ℕ} {c : α} :
    find d (downgradeUToB level (uncompressed edges)) = some c ↔
      find d (uncompressed edges) = some c ∧ c ≠ Nullable.null := by
  have hm := mem_slots h (d := d) (c := c)
  simp only [isSparse, forall_const] at hm
  rw [← hm]
  exact Ranked.get_ofEntries (slots_sorted h) fun e he =>
    find_lt h ((mem_slots h (d := e.1) (c := e.2)).mp he).1

variable (level) in
theorem child_downgradeUToB (h : (uncompressed edges).Ok) (d : ℕ) :
    (downgradeUToB level (uncompressed edges)).child d = (uncompressed edges).child d := by
  rw [child, child]
  cases hf : find d (uncompressed edges) with
  | none =>
    cases hg : find d (downgradeUToB level (uncompressed edges)) with
    | none => rfl
    | some c =>
      have := ((find_downgradeUToB h).mp hg).1
      rw [hf] at this
      cases this
  | some c =>
    by_cases hc : c = Nullable.null
    · cases hg : find d (downgradeUToB level (uncompressed edges)) with
      | none => exact hc.symm
      | some c' =>
        have := ((find_downgradeUToB h).mp hg)
        rw [hf] at this
        rw [Option.some.inj this.1]
    · rw [(find_downgradeUToB h).mpr ⟨hf, hc⟩]

variable (level) in
theorem downgradeUToB_filled (h : (uncompressed edges).Ok) :
    (downgradeUToB level (uncompressed edges)).Filled :=
  fun _ _ _ hc => ((find_downgradeUToB h).mp hc).2

end Layout

theorem count_eq_slots {b : Branch α} (h : b.Ok) : b.count = b.slots.length := by
  cases b with
  | linear form hdr edges => rw [count, slots, List.length_zip, ← h.1, Nat.min_self]
  | bitmap level kids =>
    rw [count, slots, Bitmap.count, ← Ranked.entries_keys h, List.length_map]
  | uncompressed edges =>
    have hlen : edges.length = 256 := h
    rw [count, slots]
    have hz : edges = ((List.range 256).zip edges).map Prod.snd := by
      rw [List.map_snd_zip (by simp [hlen])]
    conv_lhs => rw [hz]
    rw [List.filter_map, List.length_map]
    rfl

end Branch

end Expanse
