import Mathlib.Data.List.DropRight
import Mathlib.Tactic.SplitIfs

/-!
Ring buffers (`src/collections/ring.c`).

The ring has one slot more than it can hold elements, and a forced push on a full ring gives back
the oldest one. `RingBuffer.Holds` says that the elements in a ring are those of a list, the oldest one
first.
-/

open List

namespace ZenohPico.Collections

variable {α : Type}

/-! ### The source's functions -/

/-- `_z_ring_t`. An empty slot is `none`. -/
structure RingBuffer (α : Type) where
  val : ℕ → Option α
  capacity : ℕ
  rIdx : ℕ
  wIdx : ℕ

namespace RingBuffer

variable (r : RingBuffer α)

/-- `_z_ring_init`, with what it leaves in the slots: it clears only as many bytes as there are
slots. -/
def init (val : ℕ → Option α) (capacity : ℕ) : RingBuffer α := ⟨val, capacity + 1, 0, 0⟩

/-- `_z_ring_capacity` -/
def ringCapacity : ℕ := r.capacity - 1

/-- `_z_ring_len` -/
def len : ℕ := if r.rIdx ≤ r.wIdx then r.wIdx - r.rIdx else r.wIdx + (r.capacity - r.rIdx)

/-- `_z_ring_is_empty` -/
def isEmpty : Bool := r.wIdx = r.rIdx

/-- `_z_ring_is_full` -/
def isFull : Bool := r.len = r.ringCapacity

/-- `_z_ring_push` -/
def push (e : α) : Option α × RingBuffer α :=
  if r.isFull then (some e, r)
  else
    (none, { r with
      val := Function.update r.val r.wIdx (some e)
      wIdx := (r.wIdx + 1) % r.capacity })

/-- `_z_ring_pull` -/
def pull : Option α × RingBuffer α :=
  if r.isEmpty then (none, r)
  else
    (r.val r.rIdx, { r with
      val := Function.update r.val r.rIdx none
      rIdx := (r.rIdx + 1) % r.capacity })

/-- `_z_ring_push_force` -/
def pushForce (e : α) : Option α × RingBuffer α :=
  match r.push e with
  | (none, pushed) => (none, pushed)
  | (some _, _) => (r.pull.1, (r.pull.2.push e).2)

/-- The place before a place of the ring -/
def prevIdx (idx : ℕ) : ℕ := if idx = 0 then r.capacity - 1 else idx - 1

end RingBuffer

/-- `_z_ring_reverse_iterator_t` -/
structure RingReverseIterator (α : Type) where
  ring : RingBuffer α
  rIdx : ℕ
  wIdx : ℕ

/-- `_z_ring_reverse_iterator_make` -/
def RingBuffer.reverseIteratorMake (ring : RingBuffer α) : RingReverseIterator α :=
  ⟨ring, ring.prevIdx ring.wIdx, ring.prevIdx ring.rIdx⟩

/-- `_z_ring_reverse_iterator_next`, with the value -/
def RingReverseIterator.next (iter : RingReverseIterator α) :
    Option (Option α × RingReverseIterator α) :=
  if iter.rIdx ≠ iter.wIdx then
    some (iter.ring.val iter.rIdx, { iter with rIdx := iter.ring.prevIdx iter.rIdx })
  else none

namespace RingBuffer

/-! ### The elements of a ring -/

/-- The place `n` behind another one -/
theorem wrap_eq {capacity start n : ℕ} (hstart : start < capacity) (hn : n < capacity) :
    (start + n) % capacity = if start + n < capacity then start + n else start + n - capacity := by
  split_ifs with h
  · exact Nat.mod_eq_of_lt h
  · rw [Nat.mod_eq_sub_mod (Nat.le_of_not_lt h), Nat.mod_eq_of_lt (by omega)]

/-- The elements of the ring, the oldest one first -/
structure Holds (r : RingBuffer α) (xs : List α) : Prop where
  fits : xs.length < r.capacity
  start : r.rIdx < r.capacity
  stop : r.wIdx = (r.rIdx + xs.length) % r.capacity
  slot : ∀ i x, xs[i]? = some x → r.val ((r.rIdx + i) % r.capacity) = some x

variable {r : RingBuffer α} {xs : List α} {x : α}

theorem init_holds (val : ℕ → Option α) (capacity : ℕ) : (init val capacity).Holds [] where
  fits := Nat.succ_pos _
  start := Nat.succ_pos _
  stop := (Nat.zero_mod _).symm
  slot i x h := by
    rw [List.getElem?_nil] at h
    cases h

/-- Two places of the ring -/
theorem wrap_ne {capacity start i j : ℕ} (hstart : start < capacity) (hi : i < j)
    (hj : j < capacity) : (start + i) % capacity ≠ (start + j) % capacity := by
  rw [wrap_eq hstart (hi.trans hj), wrap_eq hstart hj]
  split_ifs <;> omega

/-- The next place, and the places behind it -/
theorem wrap_succ (capacity start i : ℕ) :
    ((start + 1) % capacity + i) % capacity = (start + (i + 1)) % capacity := by
  rw [Nat.mod_add_mod, Nat.add_assoc, Nat.add_comm 1 i]

theorem prevIdx_wrap (hstart : r.rIdx < r.capacity) {n : ℕ} (hn : n + 1 < r.capacity) :
    r.prevIdx ((r.rIdx + (n + 1)) % r.capacity) = (r.rIdx + n) % r.capacity := by
  rw [wrap_eq hstart hn, wrap_eq hstart (Nat.lt_of_succ_lt hn)]
  by_cases hwrap : r.rIdx + (n + 1) < r.capacity
  · rw [if_pos hwrap, if_pos (by omega), prevIdx, if_neg (by omega)]
    rfl
  · rw [if_neg hwrap, prevIdx]
    split_ifs <;> omega

theorem wrap_ne_prevIdx (hstart : r.rIdx < r.capacity) {n : ℕ} (hn : n + 1 < r.capacity) :
    (r.rIdx + n) % r.capacity ≠ r.prevIdx r.rIdx := by
  rw [wrap_eq hstart (Nat.lt_of_succ_lt hn)]
  unfold prevIdx
  split_ifs <;> omega

namespace Holds

theorem len_eq (h : r.Holds xs) : r.len = xs.length := by
  have hfits := h.fits
  have hstart := h.start
  have hstop := h.stop
  rw [wrap_eq hstart hfits] at hstop
  unfold len
  split_ifs at hstop ⊢ <;> omega

theorem isEmpty_iff (h : r.Holds xs) : r.isEmpty ↔ xs = [] := by
  have hfits := h.fits
  have hstart := h.start
  have hstop := h.stop
  rw [wrap_eq hstart hfits] at hstop
  rw [isEmpty, decide_eq_true_iff, ← length_eq_zero_iff]
  split_ifs at hstop <;> omega

theorem isFull_iff (h : r.Holds xs) : r.isFull ↔ xs.length = r.ringCapacity := by
  rw [isFull, decide_eq_true_iff, h.len_eq]

theorem push (h : r.Holds xs) (hroom : xs.length < r.ringCapacity) (e : α) :
    (r.push e).1 = none ∧ (r.push e).2.Holds (xs ++ [e]) := by
  have hfull : ¬ r.isFull := fun hfull ↦ absurd (h.isFull_iff.mp hfull) (Nat.ne_of_lt hroom)
  have hfits : xs.length + 1 < r.capacity := Nat.add_lt_of_lt_sub hroom
  rw [RingBuffer.push, if_neg hfull]
  refine ⟨rfl, ⟨?_, h.start, ?_, fun i x hx ↦ ?_⟩⟩
  · rw [length_append]
    exact hfits
  · dsimp only
    rw [h.stop, Nat.mod_add_mod, length_append, length_singleton, Nat.add_assoc]
  · dsimp only
    rcases Nat.lt_trichotomy i xs.length with hi | rfl | hi
    · rw [List.getElem?_append_left hi] at hx
      rw [Function.update_of_ne, h.slot i x hx]
      rw [h.stop]
      exact wrap_ne h.start hi h.fits
    · rw [List.getElem?_concat_length] at hx
      rw [← h.stop, Function.update_self, hx]
    · rw [List.getElem?_eq_none (by rw [length_append]; exact hi)] at hx
      cases hx

theorem push_full (h : r.Holds xs) (hfull : xs.length = r.ringCapacity) (e : α) :
    r.push e = (some e, r) := by
  rw [RingBuffer.push, if_pos (h.isFull_iff.mpr hfull)]

theorem pull_nil (h : r.Holds []) : r.pull = (none, r) := by
  rw [RingBuffer.pull, if_pos (h.isEmpty_iff.mpr rfl)]

theorem pull_cons (h : r.Holds (x :: xs)) : r.pull.1 = some x ∧ r.pull.2.Holds xs := by
  have hempty : ¬ r.isEmpty := fun hempty ↦ cons_ne_nil _ _ (h.isEmpty_iff.mp hempty)
  have hfits := h.fits
  rw [length_cons] at hfits
  rw [RingBuffer.pull, if_neg hempty]
  refine ⟨?_, ⟨Nat.lt_of_succ_lt hfits, Nat.mod_lt _ (Nat.zero_lt_of_lt h.start), ?_,
    fun i y hy ↦ ?_⟩⟩
  · have hslot := h.slot 0 x rfl
    rwa [Nat.add_zero, Nat.mod_eq_of_lt h.start] at hslot
  · dsimp only
    rw [h.stop, wrap_succ, length_cons]
  · dsimp only
    have hi : i < xs.length := by
      by_contra hi
      rw [List.getElem?_eq_none (Nat.le_of_not_lt hi)] at hy
      cases hy
    rw [wrap_succ, Function.update_of_ne, h.slot (i + 1) y hy]
    have hne := wrap_ne h.start (Nat.succ_pos i) ((Nat.succ_lt_succ hi).trans hfits)
    rw [Nat.add_zero, Nat.mod_eq_of_lt h.start] at hne
    exact hne.symm

theorem capacity_push (e : α) : (r.push e).2.capacity = r.capacity := by
  unfold RingBuffer.push
  split_ifs <;> rfl

theorem capacity_pull : r.pull.2.capacity = r.capacity := by
  unfold RingBuffer.pull
  split_ifs <;> rfl

theorem capacity_pushForce (e : α) : (r.pushForce e).2.capacity = r.capacity := by
  unfold RingBuffer.pushForce
  split
  · next pushed hpush => exact (congrArg (fun p ↦ p.2.capacity) hpush).symm.trans (capacity_push e)
  · exact (capacity_push e).trans capacity_pull

/-- The ring keeps the latest elements. -/
theorem pushForce (h : r.Holds xs) (e : α) :
    (r.pushForce e).2.Holds ((xs ++ [e]).rtake r.ringCapacity) := by
  have hle : xs.length ≤ r.ringCapacity := Nat.le_sub_one_of_lt h.fits
  rcases hle.lt_or_eq with hroom | hfull
  · obtain ⟨hnone, hholds⟩ := h.push hroom e
    have hall : (xs ++ [e]).rtake r.ringCapacity = xs ++ [e] := by
      rw [List.rtake, length_append, length_singleton, Nat.sub_eq_zero_of_le hroom, drop_zero]
    rw [hall, RingBuffer.pushForce]
    split
    · next pushed hpush => rwa [hpush] at hholds
    · next hpush =>
      rw [hpush] at hnone
      cases hnone
  · rw [RingBuffer.pushForce, h.push_full hfull]
    cases xs with
    | nil =>
      have hnone : r.ringCapacity = 0 := hfull.symm
      dsimp only
      rw [h.pull_nil, h.push_full hfull, hnone, rtake_zero]
      exact h
    | cons x xs =>
      obtain ⟨-, hpull⟩ := h.pull_cons
      have hroom : xs.length < r.pull.2.ringCapacity := by
        rw [ringCapacity, capacity_pull, ← ringCapacity, ← hfull]
        exact Nat.lt_succ_self _
      have hlatest : (x :: xs ++ [e]).rtake r.ringCapacity = xs ++ [e] := by
        rw [← hfull, List.rtake, length_append, length_cons, length_singleton,
          Nat.add_sub_cancel_left]
        rfl
      rw [hlatest]
      exact (hpull.push hroom e).2

end Holds

/-- The latest elements after some more -/
theorem rtake_rtake_append (xs ys : List α) (n : ℕ) :
    (xs.rtake n ++ ys).rtake n = (xs ++ ys).rtake n := by
  rw [rtake_eq_reverse_take_reverse, rtake_eq_reverse_take_reverse,
    rtake_eq_reverse_take_reverse, reverse_append, reverse_append,
    reverse_reverse, take_append, take_append, take_take, Nat.min_eq_left (Nat.sub_le _ _)]

/-- A ring of this capacity holds the latest of the elements pushed into it. -/
theorem foldl_pushForce_holds (val : ℕ → Option α) (capacity : ℕ) (xs : List α) :
    (xs.foldl (fun r x ↦ (r.pushForce x).2) (init val capacity)).Holds (xs.rtake capacity) ∧
      (xs.foldl (fun r x ↦ (r.pushForce x).2) (init val capacity)).capacity = capacity + 1 := by
  induction xs using List.reverseRecOn with
  | nil =>
    refine ⟨?_, rfl⟩
    rw [rtake_nil]
    exact init_holds val capacity
  | append_singleton xs x ih =>
    obtain ⟨hholds, hcapacity⟩ := ih
    rw [foldl_append, foldl_cons, foldl_nil]
    refine ⟨?_, (Holds.capacity_pushForce x).trans hcapacity⟩
    have hforce := hholds.pushForce x
    rwa [ringCapacity, hcapacity, Nat.add_sub_cancel, rtake_rtake_append] at hforce

/-! ### From the newest element backwards -/

/-- The iterator gives these elements, the last one first. -/
structure Gives (iter : RingReverseIterator α) (xs : List α) : Prop where
  holds : ∃ ys, iter.ring.Holds (xs ++ ys)
  rIdx : iter.rIdx = iter.ring.prevIdx ((iter.ring.rIdx + xs.length) % iter.ring.capacity)
  wIdx : iter.wIdx = iter.ring.prevIdx iter.ring.rIdx

theorem Holds.gives (h : r.Holds xs) : Gives r.reverseIteratorMake xs where
  holds := ⟨[], (append_nil xs).symm ▸ h⟩
  rIdx := congrArg r.prevIdx h.stop
  wIdx := rfl

variable {iter : RingReverseIterator α}

theorem Gives.nil (h : Gives iter []) : iter.next = none := by
  obtain ⟨ys, hholds⟩ := h.holds
  have hsame : iter.rIdx = iter.wIdx := by
    rw [h.rIdx, h.wIdx, length_nil, Nat.add_zero, Nat.mod_eq_of_lt hholds.start]
  rw [RingReverseIterator.next, if_neg (not_not_intro hsame)]

theorem Gives.concat (h : Gives iter (xs ++ [x])) :
    ∃ iter', iter.next = some (some x, iter') ∧ Gives iter' xs := by
  obtain ⟨ys, hholds⟩ := h.holds
  have hfits : xs.length + 1 < iter.ring.capacity := by
    have hfits := hholds.fits
    rw [length_append, length_append, length_singleton] at hfits
    omega
  have hplace : iter.rIdx = (iter.ring.rIdx + xs.length) % iter.ring.capacity := by
    rw [h.rIdx, length_append, length_singleton, prevIdx_wrap hholds.start hfits]
  have hne : iter.rIdx ≠ iter.wIdx := by
    rw [hplace, h.wIdx]
    exact wrap_ne_prevIdx hholds.start hfits
  have hvalue : iter.ring.val iter.rIdx = some x := by
    rw [hplace]
    refine hholds.slot xs.length x ?_
    rw [append_assoc, List.getElem?_append_right (Nat.le_refl _), Nat.sub_self]
    rfl
  refine ⟨{ iter with rIdx := iter.ring.prevIdx iter.rIdx }, ?_, ⟨[x] ++ ys, ?_⟩, ?_, h.wIdx⟩
  · rw [RingReverseIterator.next, if_pos hne, hvalue]
  · rw [← append_assoc]
    exact hholds
  · exact congrArg iter.ring.prevIdx hplace

end RingBuffer

end ZenohPico.Collections
