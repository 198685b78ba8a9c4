import Expanse.Library.Intervals
import Expanse.Library.Packed

/-!
# A byte heap with linked lists in it

A program holds blocks it has from a system allocator. It reads and writes words inside
them, and gives them back with the layout it asked for. A list is linked through the first
words of its nodes; the lemmas say which writes leave a list as it is, and how a node is put
in front.
-/

namespace Expanse.SysHeap

open Packed Intervals

def ADDRESSES : ℕ := 2 ^ 64

abbrev Memory : Type := ℕ → ℕ

structure Layout where
  size : ℕ
  align : ℕ
deriving DecidableEq, Repr

/-- A block from the system allocator. -/
structure Chunk where
  base : ℕ
  layout : Layout
deriving DecidableEq, Repr

namespace Chunk

def span (c : Chunk) : ℕ × ℕ := (c.base, c.layout.size)

end Chunk

/-- What ends a program on its way through the heap, or is undefined there. -/
inductive Fault where
  | refused
  | invalidLayout
  | invalidAccess
  | invalidFree
  | indexOutOfBounds
  | overflow
  | assertion
  | unending
deriving DecidableEq, Repr

def readWord (m : Memory) (a : ℕ) : ℕ := ofBytes ((List.range 8).map fun j => m (a + j))

def writeWord (m : Memory) (a w : ℕ) : Memory := fun x =>
  if a ≤ x ∧ x < a + 8 then w / 256 ^ (x - a) % 256 else m x

/-- `m` with `n` bytes from `a` on taken from `content`. -/
def paste (m : Memory) (a n : ℕ) (content : Memory) : Memory := fun x =>
  if a ≤ x ∧ x < a + n then content x else m x

variable {m m' : Memory} {a b n w : ℕ}

theorem readWord_congr (h : ∀ x, a ≤ x → x < a + 8 → m' x = m x) : readWord m' a = readWord m a := by
  unfold readWord
  congr 1
  apply List.map_congr_left
  intro j hj
  have := List.mem_range.mp hj
  exact h (a + j) (by omega) (by omega)

theorem readWord_writeWord (hw : w < ADDRESSES) : readWord (writeWord m a w) a = w := by
  have hbytes : ((List.range 8).map fun j => writeWord m a w (a + j)) = bytesLE 8 w := by
    unfold bytesLE
    apply List.map_congr_left
    intro j hj
    have := List.mem_range.mp hj
    rw [writeWord, if_pos (by omega), Nat.add_sub_cancel_left]
  rw [readWord, hbytes, ofBytes_bytesLE]
  exact Nat.mod_eq_of_lt (lt_of_lt_of_eq hw (by rw [ADDRESSES]; norm_num))

theorem writeWord_of_apart {x : ℕ} (h : x < a ∨ a + 8 ≤ x) : writeWord m a w x = m x := by
  rw [writeWord, if_neg (by omega)]

theorem readWord_writeWord_of_apart (h : Apart (a, 8) (b, 8)) :
    readWord (writeWord m a w) b = readWord m b := by
  apply readWord_congr
  intro x hlo hhi
  rcases h with h | h
  · exact writeWord_of_apart (.inr (by dsimp only at h; omega))
  · exact writeWord_of_apart (.inl (by dsimp only at h; omega))

theorem paste_of_apart {content : Memory} {x : ℕ} (h : x < a ∨ a + n ≤ x) :
    paste m a n content x = m x := by
  rw [paste, if_neg (by omega)]

/-- The list from `head` on: each node's word is the next node, 0 ends it. -/
def Chain (m : Memory) : ℕ → List ℕ → Prop
  | head, [] => head = 0
  | head, a :: l => head = a ∧ a ≠ 0 ∧ Chain m (readWord m a) l

/-- The nodes from `cur` on, at most `fuel`. -/
def walk (m : Memory) : ℕ → ℕ → List ℕ
  | 0, _ => []
  | fuel + 1, cur => if cur = 0 then [] else cur :: walk m fuel (readWord m cur)

variable {head fuel : ℕ} {l : List ℕ}

theorem chain_nil : Chain m head [] ↔ head = 0 := Iff.rfl

theorem Chain.congr (h : Chain m head l) (heq : ∀ a ∈ l, readWord m' a = readWord m a) :
    Chain m' head l := by
  induction l generalizing head with
  | nil => exact h
  | cons a l ih =>
    obtain ⟨rfl, hne, hrest⟩ := h
    refine ⟨rfl, hne, ?_⟩
    rw [heq head List.mem_cons_self]
    exact ih hrest fun b hb => heq b (List.mem_cons_of_mem _ hb)

theorem Chain.eq_nil_iff (h : Chain m head l) : l = [] ↔ head = 0 := by
  cases l with
  | nil => exact iff_of_true rfl h
  | cons a l =>
    obtain ⟨rfl, hne, -⟩ := h
    exact iff_of_false (by simp) hne

theorem Chain.head_mem (h : Chain m head l) (hne : head ≠ 0) : ∃ l', l = head :: l' := by
  cases l with
  | nil => exact absurd h hne
  | cons a l =>
    obtain ⟨rfl, -, -⟩ := h
    exact ⟨l, rfl⟩

theorem Chain.walk_eq (h : Chain m head l) (hf : l.length ≤ fuel) : walk m fuel head = l := by
  induction l generalizing head fuel with
  | nil =>
    rw [Chain] at h
    subst h
    cases fuel with
    | zero => rfl
    | succ fuel => rfl
  | cons a l ih =>
    obtain ⟨rfl, hne, hrest⟩ := h
    obtain ⟨fuel, rfl⟩ : ∃ k, fuel = k + 1 := ⟨fuel - 1, by simp at hf; omega⟩
    rw [walk, if_neg hne, ih hrest (by simpa using hf)]

theorem Chain.push (h : Chain m head l) (ha : a ≠ 0) (hlt : head < ADDRESSES)
    (hap : ∀ b ∈ l, Apart (a, 8) (b, 8)) : Chain (writeWord m a head) a (a :: l) := by
  refine ⟨rfl, ha, ?_⟩
  rw [readWord_writeWord hlt]
  exact h.congr fun b hb => readWord_writeWord_of_apart (hap b hb)

/-- The nodes are linked from `head` on, and the word of the last of them is `last`. -/
def Segment (m : Memory) : ℕ → List ℕ → ℕ → Prop
  | head, [], last => head = last
  | head, a :: l, last => head = a ∧ a ≠ 0 ∧ Segment m (readWord m a) l last

theorem segment_zero : Segment m head l 0 ↔ Chain m head l := by
  induction l generalizing head with
  | nil => exact Iff.rfl
  | cons a l ih => exact and_congr_right fun _ => and_congr_right fun _ => ih

theorem Segment.snoc (h : Segment m head l a) (ha : a ≠ 0) : Segment m head (l ++ [a]) (readWord m a) := by
  induction l generalizing head with
  | nil => exact ⟨h, ha, rfl⟩
  | cons b l ih =>
    obtain ⟨rfl, hne, hrest⟩ := h
    exact ⟨rfl, hne, ih hrest⟩

theorem Segment.relink {last t : ℕ} (h : Segment m head (l ++ [t]) last) (hw : w < ADDRESSES)
    (hap : ∀ a ∈ l, Apart (t, 8) (a, 8)) : Segment (writeWord m t w) head (l ++ [t]) w := by
  induction l generalizing head with
  | nil =>
    obtain ⟨rfl, hne, -⟩ := h
    exact ⟨rfl, hne, readWord_writeWord hw⟩
  | cons b l ih =>
    obtain ⟨rfl, hne, hrest⟩ := h
    refine ⟨rfl, hne, ?_⟩
    rw [readWord_writeWord_of_apart (hap head List.mem_cons_self)]
    exact ih hrest fun a ha => hap a (List.mem_cons_of_mem _ ha)

theorem length_le_addresses (hn : l.Nodup) (hlt : ∀ a ∈ l, a < ADDRESSES) : l.length ≤ ADDRESSES := by
  have hsub : l.toFinset ⊆ Finset.range ADDRESSES := by
    intro a ha
    exact Finset.mem_range.mpr (hlt a (List.mem_toFinset.mp ha))
  have hcard := Finset.card_le_card hsub
  rwa [List.toFinset_card_of_nodup hn, Finset.card_range] at hcard

structure Heap where
  mem : Memory
  held : List Chunk

/-- An answer of the system allocator: an address, 0 where it refuses, and what the block holds
if it was not asked to be zeroed. -/
structure Grant where
  addr : ℕ
  content : Memory

namespace Heap

/-- The bytes lie in a block the program holds. -/
def Owns (h : Heap) (a n : ℕ) : Prop := ∃ c ∈ h.held, c.base ≤ a ∧ a + n ≤ c.base + c.layout.size

instance (h : Heap) (a n : ℕ) : Decidable (h.Owns a n) := inferInstanceAs (Decidable (∃ c ∈ h.held, _))

def read (h : Heap) (a : ℕ) : Except Fault ℕ :=
  if h.Owns a 8 then .ok (readWord h.mem a) else .error .invalidAccess

def write (h : Heap) (a w : ℕ) : Except Fault Heap :=
  if h.Owns a 8 then .ok { h with mem := writeWord h.mem a w } else .error .invalidAccess

/-- `write_bytes` of zeros. -/
def zero (h : Heap) (a n : ℕ) : Except Fault Heap :=
  if h.Owns a n then .ok { h with mem := paste h.mem a n fun _ => 0 } else .error .invalidAccess

def granted (h : Heap) (zeroed : Bool) (g : Grant) (l : Layout) : Heap :=
  ⟨paste h.mem g.addr l.size (if zeroed then fun _ => 0 else g.content), ⟨g.addr, l⟩ :: h.held⟩

def alloc (h : Heap) (zeroed : Bool) (g : Grant) (l : Layout) : Except Fault (ℕ × Heap) :=
  if g.addr = 0 then .error .refused else .ok (g.addr, h.granted zeroed g l)

def dealloc (h : Heap) (a : ℕ) (l : Layout) : Except Fault Heap :=
  if ⟨a, l⟩ ∈ h.held then .ok { h with held := h.held.erase ⟨a, l⟩ } else .error .invalidFree

/-- Blocks lie apart between the null address and the end of the address space. -/
structure Sound (h : Heap) : Prop where
  apart : (h.held.map Chunk.span).Pairwise Apart
  base : ∀ c ∈ h.held, c.base ≠ 0
  top : ∀ c ∈ h.held, c.base + c.layout.size ≤ ADDRESSES

/-- What a system allocator promises of a block it grants. -/
structure Grants (h : Heap) (g : Grant) (l : Layout) : Prop where
  addr : g.addr ≠ 0
  top : g.addr + l.size ≤ ADDRESSES
  apart : ∀ c ∈ h.held, Apart (g.addr, l.size) c.span

variable {h : Heap} {g : Grant} {lay : Layout}

instance (h : Heap) (g : Grant) (l : Layout) : Decidable (h.Grants g l) :=
  decidable_of_iff (g.addr ≠ 0 ∧ g.addr + l.size ≤ ADDRESSES ∧ ∀ c ∈ h.held, Apart (g.addr, l.size) c.span)
    ⟨fun ⟨ha, ht, hap⟩ => ⟨ha, ht, hap⟩, fun hg => ⟨hg.addr, hg.top, hg.apart⟩⟩

theorem read_ok (ho : h.Owns a 8) : h.read a = .ok (readWord h.mem a) := if_pos ho

theorem write_ok (ho : h.Owns a 8) : h.write a w = .ok { h with mem := writeWord h.mem a w } := if_pos ho

theorem zero_ok (ho : h.Owns a n) :
    h.zero a n = .ok { h with mem := paste h.mem a n fun _ => 0 } := if_pos ho

theorem alloc_ok (hg : h.Grants g lay) (zeroed : Bool) :
    h.alloc zeroed g lay = .ok (g.addr, h.granted zeroed g lay) := if_neg hg.addr

theorem dealloc_ok (hm : ⟨a, lay⟩ ∈ h.held) :
    h.dealloc a lay = .ok { h with held := h.held.erase ⟨a, lay⟩ } := if_pos hm

theorem Owns.of_held {c : Chunk} (hc : c ∈ h.held) (hlo : c.base ≤ a)
    (hhi : a + n ≤ c.base + c.layout.size) : h.Owns a n := ⟨c, hc, hlo, hhi⟩

theorem Sound.of_perm {h' : Heap} {l : List Chunk} (hs : h.Sound) (hp : h.held.Perm (h'.held ++ l)) :
    h'.Sound := by
  have hsub : ∀ c ∈ h'.held, c ∈ h.held := fun c hc => hp.mem_iff.mpr (List.mem_append_left _ hc)
  have hap := (hp.map Chunk.span).pairwise hs.apart Apart.symm
  rw [List.map_append] at hap
  exact ⟨(List.pairwise_append.mp hap).1, fun c hc => hs.base c (hsub c hc),
    fun c hc => hs.top c (hsub c hc)⟩

theorem Sound.granted (hs : h.Sound) (hg : h.Grants g lay) (zeroed : Bool) :
    (h.granted zeroed g lay).Sound := by
  have hheld : (h.granted zeroed g lay).held = ⟨g.addr, lay⟩ :: h.held := rfl
  refine ⟨?_, ?_, ?_⟩
  · rw [hheld, List.map_cons, List.pairwise_cons]
    refine ⟨?_, hs.apart⟩
    intro x hx
    obtain ⟨c, hc, rfl⟩ := List.mem_map.mp hx
    exact hg.apart c hc
  · rw [hheld]
    intro c hc
    rcases List.mem_cons.mp hc with rfl | hc
    · exact hg.addr
    · exact hs.base c hc
  · rw [hheld]
    intro c hc
    rcases List.mem_cons.mp hc with rfl | hc
    · exact hg.top
    · exact hs.top c hc

end Heap

end Expanse.SysHeap
