import Expanse.Library.Pool
import Expanse.Engine.Batch
import Expanse.Engine.GetSpec

/-!
# What the batch driver answers

Whatever the order in which the lanes are stepped, each lane ends with the answer of the
scalar descent of its key, since a step keeps the answer a lane is on its way to. The
positions that the lanes serve and those already written are together the positions
handed out, so each is written once. Every visit uses up a level of some lane, or a key.
-/

namespace Expanse

open Radix SortedAssoc

namespace Batch

variable {V R : Type}

/-- The lanes in flight with the positions they serve. -/
def busy (b : Batch V R) : List (Lane V × ℕ) := (b.lanes.zip b.slots).take b.live

/-- Visits that are left at most: a lane ends within its levels, a key that waits within all. -/
def work (level : ℕ) (keys : List ℕ) (b : Batch V R) : ℕ :=
  (b.busy.map fun x => x.1.level + 1).sum + (keys.length - b.next) * (level + 1)

variable {step : Lane V → Except Fault (Option R × Lane V)} {root : Edge V} {level w i fuel inner : ℕ}
  {keys : List ℕ} {ans : ℕ → R} {Serves : Lane V → R → Prop} {b : Batch V R}

/-- The invariant of the driver: `ans` answers each key, `Serves` relates a lane to its answer. -/
structure Sound (ans : ℕ → R) (Serves : Lane V → R → Prop) (w : ℕ) (keys : List ℕ) (b : Batch V R) :
    Prop where
  lanes : b.lanes.length = w
  slots : b.slots.length = w
  live : b.live ≤ w
  next : b.next ≤ keys.length
  full : b.next < keys.length → b.live = w
  out : b.out.length = keys.length
  serves : ∀ x ∈ b.busy, ∃ key, keys[x.2]? = some key ∧ Serves x.1 (ans key)
  handed : (b.written ++ b.busy.map Prod.snd).Perm (List.range b.next)
  answered : ∀ p ∈ b.written, b.out[p]? = keys[p]?.map ans

/-- A step ends a descent with its answer, or brings it one level further. -/
def Steps (step : Lane V → Except Fault (Option R × Lane V)) (Serves : Lane V → R → Prop) : Prop :=
  ∀ lane r, Serves lane r → step lane = .ok (some r, lane) ∨
    ∃ lane', step lane = .ok (none, lane') ∧ lane'.level < lane.level ∧ Serves lane' r

theorem length_busy (h : Sound ans Serves w keys b) : b.busy.length = b.live := by
  have hl := h.live
  rw [busy, List.length_take, List.length_zip, h.lanes, h.slots]
  omega

theorem Sound.entry (h : Sound ans Serves w keys b) (hi : i < b.live) :
    ∃ lane p, b.lanes[i]? = some lane ∧ b.slots[i]? = some p ∧ b.busy[i]? = some (lane, p) := by
  have hlen := length_busy h
  obtain ⟨⟨lane, p⟩, hentry⟩ : ∃ x, b.busy[i]? = some x := ⟨_, List.getElem?_eq_getElem (by omega)⟩
  have hzip := hentry
  rw [busy, List.getElem?_take, if_pos hi, List.getElem?_zip_eq_some] at hzip
  exact ⟨lane, p, hzip.1, hzip.2, hentry⟩

theorem zip_set (lanes : List (Lane V)) (slots : List ℕ) (i : ℕ) (lane : Lane V) (p : ℕ) :
    (lanes.set i lane).zip (slots.set i p) = (lanes.zip slots).set i (lane, p) := by
  induction lanes generalizing slots i with
  | nil => rfl
  | cons l lanes ih =>
    cases slots with
    | nil => cases i <;> rfl
    | cons q slots =>
      cases i with
      | zero => rfl
      | succ i => simp [ih]

theorem busy_set {lane : Lane V} {p : ℕ} :
    ((b.lanes.set i lane).zip (b.slots.set i p)).take b.live = b.busy.set i (lane, p) := by
  rw [zip_set, List.take_set]
  rfl

/-- Another lane keeps its answer when one job is exchanged for another. -/
theorem Sound.serves_of_perm (h : Sound ans Serves w keys b) {x y : Lane V × ℕ}
    {busy' : List (Lane V × ℕ)} (hp : (x :: busy').Perm (y :: b.busy))
    (hy : ∃ key, keys[y.2]? = some key ∧ Serves y.1 (ans key)) :
    ∀ z ∈ busy', ∃ key, keys[z.2]? = some key ∧ Serves z.1 (ans key) := by
  intro z hz
  rcases List.mem_cons.mp (hp.mem_iff.mp (List.mem_cons_of_mem x hz)) with rfl | hz
  · exact hy
  · exact h.serves z hz

/-- The store of an answer keeps the earlier ones, since no position is handed out twice. -/
theorem Sound.answered_set (h : Sound ans Serves w keys b) {lane : Lane V} {p key : ℕ}
    (hm : (lane, p) ∈ b.busy) (hk : keys[p]? = some key) :
    ∀ q ∈ b.written ++ [p], (b.out.set p (ans key))[q]? = keys[q]?.map ans := by
  have hp : p < b.out.length := by
    rw [h.out]
    exact (List.getElem?_eq_some_iff.mp hk).1
  have hnew : p ∉ b.written := by
    intro hw
    have hnodup := h.handed.nodup_iff.mpr List.nodup_range
    exact (List.nodup_append.mp hnodup).2.2 p hw p (List.mem_map_of_mem (f := Prod.snd) hm) rfl
  intro q hq
  rcases List.mem_append.mp hq with hq | hq
  · have hne : p ≠ q := fun he => hnew (he ▸ hq)
    rw [List.getElem?_set_ne hne]
    exact h.answered q hq
  · rw [List.mem_singleton.mp hq, List.getElem?_set_self hp, hk]
    rfl

theorem sum_work {x y : Lane V × ℕ} {l l' : List (Lane V × ℕ)} (hp : (x :: l').Perm (y :: l)) :
    x.1.level + 1 + (l'.map fun x => x.1.level + 1).sum =
      y.1.level + 1 + (l.map fun x => x.1.level + 1).sum := by
  have hs := (hp.map fun x : Lane V × ℕ => x.1.level + 1).sum_eq
  simpa only [List.map_cons, List.sum_cons] using hs

theorem advance_sound (h : Sound ans Serves w keys b) {lane lane' : Lane V} {p key : ℕ}
    (hs : b.slots[i]? = some p) (hb : b.busy[i]? = some (lane, p)) (hk : keys[p]? = some key)
    (hlt : lane'.level < lane.level) (hserves : Serves lane' (ans key)) :
    Sound ans Serves w keys { b with lanes := b.lanes.set i lane' } ∧
      work level keys { b with lanes := b.lanes.set i lane' } < work level keys b := by
  have hslots : b.slots.set i p = b.slots := by
    obtain ⟨hi, rfl⟩ := List.getElem?_eq_some_iff.mp hs
    exact List.set_getElem_self hi
  have hbusy : ({ b with lanes := b.lanes.set i lane' } : Batch V R).busy =
      b.busy.set i (lane', p) := by
    rw [← busy_set, hslots]
    rfl
  have hperm : ((lane, p) :: b.busy.set i (lane', p)).Perm ((lane', p) :: b.busy) :=
    Pool.perm_set hb
  refine ⟨⟨?_, h.slots, h.live, h.next, h.full, h.out, ?_, ?_, h.answered⟩, ?_⟩
  · rw [List.length_set]
    exact h.lanes
  · rw [hbusy]
    exact h.serves_of_perm hperm ⟨key, hk, hserves⟩
  · rw [hbusy]
    refine .trans (.append_left _ ?_) h.handed
    exact (hperm.map Prod.snd).cons_inv
  · have hsum := sum_work hperm
    unfold work
    rw [hbusy]
    dsimp only at hsum ⊢
    omega

theorem retire_sound (h : Sound ans Serves w keys b) {lane : Lane V} {p key : ℕ}
    (hi : i < b.live) (hs : b.slots[i]? = some p)
    (hb : b.busy[i]? = some (lane, p)) (hk : keys[p]? = some key)
    (hroot : ∀ key ∈ keys, Serves ⟨root, key, level⟩ (ans key)) :
    ∃ i' b', retire root level keys i (ans key) b = .ok (i', b') ∧ Sound ans Serves w keys b' ∧
      work level keys b' < work level keys b := by
  have hp : p < b.out.length := by
    rw [h.out]
    exact (List.getElem?_eq_some_iff.mp hk).1
  have hdone := h.answered_set (List.mem_of_getElem? hb) hk
  have hlive := h.live
  have hnext := h.next
  unfold retire
  simp only [hs, if_neg (show ¬ b.out.length ≤ p by omega)]
  cases hn : keys[b.next]? with
  | some key' =>
    obtain ⟨hlt, hget⟩ := List.getElem?_eq_some_iff.mp hn
    have hperm : ((lane, p) :: b.busy.set i (⟨root, key', level⟩, b.next)).Perm
        ((⟨root, key', level⟩, b.next) :: b.busy) := Pool.perm_set hb
    have hbusy : ((b.lanes.set i ⟨root, key', level⟩).zip (b.slots.set i b.next)).take b.live =
        b.busy.set i (⟨root, key', level⟩, b.next) := busy_set
    refine ⟨_, _, rfl, ⟨?_, ?_, hlive, hlt, fun _ => h.full hlt, ?_, ?_, ?_, hdone⟩, ?_⟩
    · rw [List.length_set]
      exact h.lanes
    · rw [List.length_set]
      exact h.slots
    · rw [List.length_set]
      exact h.out
    · change ∀ x ∈ ((b.lanes.set i _).zip (b.slots.set i _)).take b.live, _
      rw [hbusy]
      exact h.serves_of_perm hperm ⟨key', hn, hroot key' (List.mem_of_getElem? hn)⟩
    · change ((b.written ++ [p]) ++ (((b.lanes.set i _).zip (b.slots.set i _)).take b.live).map
        Prod.snd).Perm (List.range (b.next + 1))
      rw [hbusy, List.append_assoc, List.range_succ]
      have hsnd : (p :: (b.busy.set i (⟨root, key', level⟩, b.next)).map Prod.snd).Perm
          (b.next :: b.busy.map Prod.snd) := hperm.map Prod.snd
      calc b.written ++ p :: (b.busy.set i (⟨root, key', level⟩, b.next)).map Prod.snd
        _ |>.Perm (b.written ++ b.next :: b.busy.map Prod.snd) := hsnd.append_left _
        _ |>.Perm (b.next :: (b.written ++ b.busy.map Prod.snd)) := List.perm_middle
        _ |>.Perm (b.next :: List.range b.next) := h.handed.cons _
        _ |>.Perm (List.range b.next ++ [b.next]) := (List.perm_append_singleton _ _).symm
    · have hsum := sum_work hperm
      have hmul : (keys.length - b.next) * (level + 1) =
          (keys.length - (b.next + 1)) * (level + 1) + (level + 1) := by
        rw [← Nat.succ_mul]
        congr 1
        omega
      unfold work
      change (((((b.lanes.set i _).zip (b.slots.set i _)).take b.live).map _).sum + _) < _
      rw [hbusy]
      dsimp only at hsum ⊢
      omega
  | none =>
    have hend : keys.length ≤ b.next := List.getElem?_eq_none_iff.mp hn
    have hlen := length_busy h
    obtain ⟨last, q, hll, hls, hlb⟩ := h.entry (show b.live - 1 < b.live by omega)
    simp only [hll, hls]
    have hperm : ((lane, p) :: (b.busy.set i (last, q)).take (b.live - 1)).Perm b.busy := by
      rw [← hlen] at hlb ⊢
      exact Pool.perm_swapRemove hb hlb
    have hbusy : ((b.lanes.set i last).zip (b.slots.set i q)).take (b.live - 1) =
        (b.busy.set i (last, q)).take (b.live - 1) := by
      rw [← busy_set, List.take_take, Nat.min_eq_left (Nat.sub_le _ _)]
    refine ⟨_, _, rfl, ⟨?_, ?_, ?_, hnext, ?_, ?_, ?_, ?_, hdone⟩, ?_⟩
    · rw [List.length_set]
      exact h.lanes
    · rw [List.length_set]
      exact h.slots
    · exact (Nat.sub_le _ _).trans hlive
    · intro hlt
      exact absurd hlt (Nat.not_lt.mpr hend)
    · rw [List.length_set]
      exact h.out
    · change ∀ x ∈ ((b.lanes.set i _).zip (b.slots.set i _)).take (b.live - 1), _
      rw [hbusy]
      intro x hx
      exact h.serves x (hperm.mem_iff.mp (List.mem_cons_of_mem _ hx))
    · change ((b.written ++ [p]) ++ (((b.lanes.set i _).zip (b.slots.set i _)).take
        (b.live - 1)).map Prod.snd).Perm (List.range b.next)
      rw [hbusy, List.append_assoc]
      have hsnd : (p :: ((b.busy.set i (last, q)).take (b.live - 1)).map Prod.snd).Perm
          (b.busy.map Prod.snd) := hperm.map Prod.snd
      exact (hsnd.append_left _).trans h.handed
    · have hsum := (hperm.map fun x : Lane V × ℕ => x.1.level + 1).sum_eq
      simp only [List.map_cons, List.sum_cons] at hsum
      unfold work
      change (((((b.lanes.set i _).zip (b.slots.set i _)).take (b.live - 1)).map _).sum + _) < _
      rw [hbusy]
      dsimp only at hsum ⊢
      omega

theorem visit_sound (hstep : Steps step Serves)
    (hroot : ∀ key ∈ keys, Serves ⟨root, key, level⟩ (ans key))
    (h : Sound ans Serves w keys b) (hi : i < b.live) :
    ∃ i' b', visit step root level keys i b = .ok (i', b') ∧ Sound ans Serves w keys b' ∧
      work level keys b' < work level keys b := by
  obtain ⟨lane, p, hl, hs, hb⟩ := h.entry hi
  obtain ⟨key, hk, hserves⟩ := h.serves _ (List.mem_of_getElem? hb)
  unfold visit
  simp only [hl]
  rcases hstep lane (ans key) hserves with hend | ⟨lane', hgo, hlt, hserves'⟩
  · simp only [hend]
    exact retire_sound h hi hs hb hk hroot
  · simp only [hgo]
    exact ⟨_, _, rfl, advance_sound h hs hb hk hlt hserves'⟩

/-- A sweep ends, and uses up work unless no lane is live where it starts. -/
theorem sweep_sound (hstep : Steps step Serves)
    (hroot : ∀ key ∈ keys, Serves ⟨root, key, level⟩ (ans key))
    (h : Sound ans Serves w keys b) (hfuel : work level keys b < fuel) :
    ∃ b', sweep step root level keys fuel i b = .ok b' ∧ Sound ans Serves w keys b' ∧
      work level keys b' ≤ work level keys b ∧
      (i < b.live → work level keys b' < work level keys b) := by
  induction fuel generalizing i b with
  | zero => omega
  | succ fuel ih =>
    unfold sweep
    by_cases hi : i < b.live
    · obtain ⟨i', b₁, hvisit, h₁, hlt⟩ := visit_sound hstep hroot h hi
      obtain ⟨b₂, hsweep, h₂, hle, -⟩ := ih (i := i') h₁ (by omega)
      simp only [if_pos hi, hvisit]
      exact ⟨b₂, hsweep, h₂, by omega, fun _ => by omega⟩
    · simp only [if_neg hi]
      exact ⟨b, rfl, h, le_rfl, fun hlt => absurd hlt hi⟩

theorem drive_sound (hstep : Steps step Serves)
    (hroot : ∀ key ∈ keys, Serves ⟨root, key, level⟩ (ans key))
    (h : Sound ans Serves w keys b) (hinner : work level keys b < inner)
    (hfuel : work level keys b < fuel) :
    ∃ b', drive step root level keys inner fuel b = .ok b' ∧ Sound ans Serves w keys b' ∧
      b'.live = 0 := by
  induction fuel generalizing b with
  | zero => omega
  | succ fuel ih =>
    unfold drive
    by_cases hlive : 0 < b.live
    · obtain ⟨b₁, hsweep, h₁, -, hlt⟩ := sweep_sound (i := 0) hstep hroot h hinner
      have hless := hlt hlive
      simp only [if_pos hlive, hsweep]
      exact ih h₁ (by omega) (by omega)
    · simp only [if_neg hlive]
      exact ⟨b, rfl, h, by omega⟩

/-- The driver's variables once the first `n` keys have a lane each. -/
def opened (w : ℕ) (root : Edge V) (level : ℕ) (keys : List ℕ) (out : List R) (n : ℕ) : Batch V R :=
  ⟨(keys.take n).map (⟨root, ·, level⟩) ++ List.replicate (w - n) ⟨root, 0, level⟩,
    List.range n ++ List.replicate (w - n) 0, n, n, out, []⟩

theorem fill_opened {out : List R} {n free : ℕ} (hw : n + free = w) (hn : n ≤ keys.length) :
    fill keys free (opened w root level keys out n) =
      opened w root level keys out (min w keys.length) := by
  induction free generalizing n with
  | zero =>
    rw [Nat.min_eq_left (by omega), ← hw]
    rfl
  | succ free ih =>
    unfold fill
    cases hk : keys[n]? with
    | none =>
      have hend := List.getElem?_eq_none_iff.mp hk
      have hmin : min w keys.length = n := by omega
      simp only [opened, hk, hmin]
    | some key =>
      have hlt := (List.getElem?_eq_some_iff.mp hk).1
      have hfree : w - n = (w - (n + 1)) + 1 := by omega
      have hlanes : ((keys.take n).map (⟨root, ·, level⟩ : ℕ → Lane V)).length = n := by
        rw [List.length_map, List.length_take, Nat.min_eq_left hn]
      have hmodify : (opened w root level keys out n).lanes.modify n ({ · with key := key }) =
          (opened w root level keys out (n + 1)).lanes := by
        have hfirst := Pool.modify_length_append ({ · with key := key })
          ((keys.take n).map (⟨root, ·, level⟩ : ℕ → Lane V)) ⟨root, 0, level⟩
          (List.replicate (w - (n + 1)) ⟨root, 0, level⟩)
        rw [hlanes, ← List.replicate_succ, ← hfree] at hfirst
        rw [opened, hfirst, opened, List.take_add_one, hk]
        simp
      have hset : (opened w root level keys out n).slots.set n n =
          (opened w root level keys out (n + 1)).slots := by
        rw [opened, List.set_append_right _ _ (by simp), hfree, List.replicate_succ, opened,
          List.range_succ]
        simp
      have hnext : (opened w root level keys out n).next = n := rfl
      rw [← ih (n := n + 1) (by omega) hlt]
      simp only [hnext, hk]
      congr 1
      exact congrArg₂ (fun lanes slots => (⟨lanes, slots, n + 1, n + 1, out, []⟩ : Batch V R))
        hmodify hset

theorem opened_sound {out : List R} {n : ℕ} (hlen : out.length = keys.length)
    (hn : n = min w keys.length) (hroot : ∀ key ∈ keys, Serves ⟨root, key, level⟩ (ans key)) :
    Sound ans Serves w keys (opened w root level keys out n) ∧
      work level keys (opened w root level keys out n) ≤ keys.length * (level + 1) := by
  have hnk : n ≤ keys.length := by omega
  have hbusy : (opened w root level keys out n).busy =
      ((keys.take n).map (⟨root, ·, level⟩)).zip (List.range n) := by
    have hl : ((keys.take n).map (⟨root, ·, level⟩ : ℕ → Lane V)).length = n := by
      rw [List.length_map, List.length_take, Nat.min_eq_left hnk]
    unfold busy opened
    rw [List.zip_append (by rw [hl, List.length_range])]
    exact List.take_left' (by rw [List.length_zip, hl, List.length_range, Nat.min_self])
  have hjobs : ∀ x ∈ (opened w root level keys out n).busy,
      ∃ key, keys[x.2]? = some key ∧ x.1 = ⟨root, key, level⟩ := by
    rw [hbusy]
    intro x hx
    obtain ⟨j, hj⟩ := List.mem_iff_getElem?.mp hx
    obtain ⟨hlane, hpos⟩ := List.getElem?_zip_eq_some.mp hj
    obtain ⟨hjn, hj⟩ := List.getElem?_eq_some_iff.mp hpos
    rw [List.length_range] at hjn
    rw [List.getElem_range] at hj
    rw [← hj]
    rw [List.getElem?_map, List.getElem?_take_of_lt hjn] at hlane
    obtain ⟨key, hk, hx⟩ := Option.map_eq_some_iff.mp hlane
    exact ⟨key, hk, hx.symm⟩
  have hlen' : (opened w root level keys out n).busy.length = n := by
    rw [hbusy, List.length_zip, List.length_map, List.length_take, List.length_range]
    omega
  refine ⟨⟨?_, ?_, ?_, hnk, ?_, hlen, ?_, ?_, ?_⟩, ?_⟩
  · simp [opened]
    omega
  · simp [opened]
    omega
  · exact hn ▸ Nat.min_le_left _ _
  · intro hlt
    change n < keys.length at hlt
    change n = w
    omega
  · intro x hx
    obtain ⟨key, hk, hx⟩ := hjobs x hx
    exact ⟨key, hk, hx ▸ hroot key (List.mem_of_getElem? hk)⟩
  · rw [hbusy, List.map_snd_zip (by simp [hnk])]
    exact .refl _
  · intro p hp
    exact absurd hp List.not_mem_nil
  · have hsum : ((opened w root level keys out n).busy.map fun x => x.1.level + 1).sum ≤
        n * (level + 1) := by
      have hcard := List.sum_le_card_nsmul
        ((opened w root level keys out n).busy.map fun x => x.1.level + 1) (level + 1) fun y hy => ?_
      · rwa [List.length_map, hlen', smul_eq_mul] at hcard
      obtain ⟨x, hx, rfl⟩ := List.mem_map.mp hy
      obtain ⟨key, -, hx⟩ := hjobs x hx
      rw [hx]
    calc work level keys (opened w root level keys out n)
      _ ≤ n * (level + 1) + (keys.length - n) * (level + 1) := Nat.add_le_add_right hsum _
      _ = keys.length * (level + 1) := by rw [← Nat.add_mul, Nat.add_sub_cancel' hnk]

end Batch

open Batch in
/-- Given a step that answers as `ans`, the driver writes each position once, with the answer
of the key there. -/
theorem batchDriver_spec {V R : Type} {step : Lane V → Except Fault (Option R × Lane V)}
    {root : Edge V} {level w fuel : ℕ} {keys : List ℕ} {ans : ℕ → R} {Serves : Lane V → R → Prop}
    (hstep : Steps step Serves) (hroot : ∀ key ∈ keys, Serves ⟨root, key, level⟩ (ans key))
    (hw : 0 < w) {out : List R} (hlen : out.length = keys.length)
    (hfuel : keys.length * (level + 1) < fuel) :
    ∃ written, batchDriver step fuel w root keys out level = .ok (keys.map ans, written) ∧
      written.Perm (List.range keys.length) := by
  cases keys with
  | nil =>
    rw [List.eq_nil_of_length_eq_zero hlen]
    exact ⟨[], rfl, .nil⟩
  | cons key rest =>
    obtain ⟨hopened, hwork⟩ := opened_sound (w := w) hlen rfl hroot
    have hfill : fill (key :: rest) w (start w root level out) =
        opened w root level (key :: rest) out (min w (key :: rest).length) :=
      fill_opened (n := 0) (Nat.zero_add w) (Nat.zero_le _)
    have hlt : work level (key :: rest)
        (opened w root level (key :: rest) out (min w (key :: rest).length)) < fuel := by omega
    obtain ⟨b, hdrive, hb, hlive⟩ := drive_sound hstep hroot hopened hlt hlt
    have hnext : b.next = (key :: rest).length := by
      have hle := hb.next
      have hfull := hb.full
      omega
    have hbusy : b.busy = [] := by
      rw [busy, hlive, List.take_zero]
    have hperm : b.written.Perm (List.range (key :: rest).length) := by
      have hhanded := hb.handed
      rwa [hbusy, List.map_nil, List.append_nil, hnext] at hhanded
    have hout : b.out = (key :: rest).map ans := by
      refine List.ext_getElem? fun p => ?_
      by_cases hp : p < (key :: rest).length
      · rw [hb.answered p (hperm.mem_iff.mpr (List.mem_range.mpr hp)), List.getElem?_map]
      · rw [List.getElem?_eq_none (by rw [hb.out]; omega),
          List.getElem?_eq_none (by rw [List.length_map]; omega)]
    refine ⟨b.written, ?_, hperm⟩
    unfold batchDriver
    rw [if_neg (by simp), hfill, hdrive, ← hout]

end Expanse
