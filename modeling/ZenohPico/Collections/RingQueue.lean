import ZenohPico.Collections.Ring

/-!
What a ring buffer (`src/collections/ring.c`) is for: a queue that holds a bounded number of
elements.

`BoundedQueue` is the queue, and every sequence of pushes, forced pushes, pulls and iterations over
a ring gives what it gives on the queue. The elements of the queue are those that entered it and
have not left it, in the order in which they entered.
-/

open List

namespace ZenohPico.Collections

variable {α : Type} {capacity : ℕ}

/-! ### The queue -/

/-- A queue of at most `capacity` elements, the oldest one first -/
structure BoundedQueue (α : Type) (capacity : ℕ) where
  elements : List α
  bounded : elements.length ≤ capacity

/-- What is done with a queue -/
inductive QueueOp (α : Type)
  | push (e : α)
  | pushForce (e : α)
  | pull
  | iterate
  | reverseIterate

/-- What it gives: an element or nothing, or the elements that were visited -/
inductive QueueAnswer (α : Type)
  | gave (e : Option α)
  | visited (es : List (Option α))
  deriving DecidableEq

namespace BoundedQueue

variable (q : BoundedQueue α capacity)

/-- The queue of this capacity that holds nothing -/
def empty (capacity : ℕ) : BoundedQueue α capacity := ⟨[], Nat.zero_le _⟩

/-- An element enters where there is room, and is given back where there is none. -/
def push (e : α) : Option α × BoundedQueue α capacity :=
  if h : q.elements.length < capacity then
    (none, ⟨q.elements ++ [e], by
      rw [length_append, length_singleton]
      exact h⟩)
  else (some e, q)

/-- The oldest element leaves. -/
def pull : Option α × BoundedQueue α capacity :=
  (q.elements.head?, ⟨q.elements.tail, by
    rw [length_tail]
    exact (Nat.sub_le _ _).trans q.bounded⟩)

/-- An element enters, and the oldest one leaves where there was no room. -/
def pushForce (e : α) : Option α × BoundedQueue α capacity :=
  if q.elements.length < capacity then q.push e else (q.pull.1, (q.pull.2.push e).2)

def step (op : QueueOp α) : QueueAnswer α × BoundedQueue α capacity :=
  match op with
  | .push e => (.gave (q.push e).1, (q.push e).2)
  | .pushForce e => (.gave (q.pushForce e).1, (q.pushForce e).2)
  | .pull => (.gave q.pull.1, q.pull.2)
  | .iterate => (.visited (q.elements.map some), q)
  | .reverseIterate => (.visited (q.elements.reverse.map some), q)

/-- The elements that an operation lets in -/
def entering (op : QueueOp α) : List α :=
  match op with
  | .push e => if q.elements.length < capacity then [e] else []
  | .pushForce e => [e]
  | .pull | .iterate | .reverseIterate => []

/-- The elements that an operation takes out, by a pull or because a forced push found no room -/
def leaving (op : QueueOp α) : List α :=
  match op with
  | .pull => q.elements.head?.toList
  | .pushForce _ => if q.elements.length < capacity then [] else q.elements.head?.toList
  | .push _ | .iterate | .reverseIterate => []

def runQueue : List (QueueOp α) → BoundedQueue α capacity →
    List (QueueAnswer α) × BoundedQueue α capacity
  | [], q => ([], q)
  | op :: ops, q =>
    ((q.step op).1 :: (runQueue ops (q.step op).2).1, (runQueue ops (q.step op).2).2)

/-- The elements that entered the queue in a run -/
def entered : List (QueueOp α) → BoundedQueue α capacity → List α
  | [], _ => []
  | op :: ops, q => q.entering op ++ entered ops (q.step op).2

/-- The elements that left the queue in a run -/
def left : List (QueueOp α) → BoundedQueue α capacity → List α
  | [], _ => []
  | op :: ops, q => q.leaving op ++ left ops (q.step op).2

variable {q}

theorem elements_push {e : α} (h : q.elements.length < capacity) :
    (q.push e).2.elements = q.elements ++ [e] := by
  rw [push, dif_pos h]

theorem push_of_full {e : α} (h : ¬ q.elements.length < capacity) : q.push e = (some e, q) := by
  rw [push, dif_neg h]

theorem elements_pushForce_of_full {e : α} (hcapacity : 0 < capacity)
    (h : ¬ q.elements.length < capacity) : (q.pushForce e).2.elements = q.elements.tail ++ [e] := by
  rw [pushForce, if_neg h]
  refine elements_push ?_
  rw [pull, length_tail]
  have := q.bounded
  omega

theorem toList_head?_append_tail (xs : List α) : xs.head?.toList ++ xs.tail = xs := by
  cases xs <;> rfl

/-- What was in the queue and what enters is what leaves and what stays. -/
theorem elements_step (hcapacity : 0 < capacity) (op : QueueOp α) :
    q.elements ++ q.entering op = q.leaving op ++ (q.step op).2.elements := by
  cases op with
  | push e =>
    by_cases hroom : q.elements.length < capacity
    · rw [entering, if_pos hroom, leaving, step, elements_push hroom, nil_append]
    · rw [entering, if_neg hroom, leaving, step, push_of_full hroom, append_nil, nil_append]
  | pushForce e =>
    by_cases hroom : q.elements.length < capacity
    · rw [entering, leaving, if_pos hroom, step, pushForce, if_pos hroom, elements_push hroom,
        nil_append]
    · rw [entering, leaving, if_neg hroom, step, elements_pushForce_of_full hcapacity hroom,
        ← append_assoc, toList_head?_append_tail]
  | pull => rw [entering, leaving, step, pull, toList_head?_append_tail, append_nil]
  | iterate => rw [entering, leaving, step, append_nil, nil_append]
  | reverseIterate => rw [entering, leaving, step, append_nil, nil_append]

/-- The elements of the queue are those that entered it and have not left it, in their order. -/
theorem elements_run (hcapacity : 0 < capacity) (ops : List (QueueOp α))
    (q : BoundedQueue α capacity) :
    q.elements ++ entered ops q = left ops q ++ (runQueue ops q).2.elements := by
  induction ops generalizing q with
  | nil => rw [entered, left, runQueue, append_nil, nil_append]
  | cons op ops ih =>
    rw [entered, left, runQueue, ← append_assoc, elements_step hcapacity op, append_assoc,
      ih, append_assoc]

end BoundedQueue

/-! ### The iterators -/

/-- `_z_ring_iterator_t` -/
structure RingIterator (α : Type) where
  ring : RingBuffer α
  rIdx : ℕ
  wIdx : ℕ

/-- `_z_ring_iterator_make` -/
def RingBuffer.iteratorMake (ring : RingBuffer α) : RingIterator α := ⟨ring, ring.rIdx, ring.wIdx⟩

/-- `_z_ring_iterator_next`, with the value -/
def RingIterator.next (iter : RingIterator α) : Option (Option α × RingIterator α) :=
  if iter.rIdx ≠ iter.wIdx then
    some (iter.ring.val iter.rIdx, { iter with rIdx := (iter.rIdx + 1) % iter.ring.capacity })
  else none

/-- The values of an iterator until it has no next one, where this takes no more than the given
number of calls -/
def visit {σ : Type} (next : σ → Option (Option α × σ)) : ℕ → σ → Option (List (Option α))
  | 0, _ => none
  | calls + 1, iter =>
    match next iter with
    | none => some []
    | some (value, iter') => (visit next calls iter').map (value :: ·)

variable {calls : ℕ}

theorem visit_nil {σ : Type} {next : σ → Option (Option α × σ)} {iter : σ} (hcalls : 0 < calls)
    (h : next iter = none) : visit next calls iter = some [] := by
  obtain ⟨calls, rfl⟩ := Nat.exists_eq_succ_of_ne_zero (Nat.ne_of_gt hcalls)
  rw [visit, h]

theorem visit_cons {σ : Type} {next : σ → Option (Option α × σ)} {iter iter' : σ} {value : Option α}
    {es : List (Option α)} (h : next iter = some (value, iter'))
    (hrest : visit next calls iter' = some es) :
    visit next (calls + 1) iter = some (value :: es) := by
  rw [visit, h]
  dsimp only
  rw [hrest]
  rfl

namespace RingBuffer

/-- The iterator has these elements before it, behind those that it has gone past. -/
structure Ahead (iter : RingIterator α) (past xs : List α) : Prop where
  holds : iter.ring.Holds (past ++ xs)
  rIdx : iter.rIdx = (iter.ring.rIdx + past.length) % iter.ring.capacity
  wIdx : iter.wIdx = iter.ring.wIdx

variable {r : RingBuffer α} {xs past : List α} {x : α} {iter : RingIterator α}

theorem Holds.ahead (h : r.Holds xs) : Ahead r.iteratorMake [] xs where
  holds := h
  rIdx := (Nat.mod_eq_of_lt h.start).symm
  wIdx := rfl

theorem Ahead.nil (h : Ahead iter past []) : iter.next = none := by
  have hstop := h.holds.stop
  rw [append_nil] at hstop
  have hsame : iter.rIdx = iter.wIdx := h.rIdx.trans (hstop.symm.trans h.wIdx.symm)
  rw [RingIterator.next, if_neg (not_not_intro hsame)]

theorem Ahead.cons (h : Ahead iter past (x :: xs)) :
    ∃ iter', iter.next = some (some x, iter') ∧ Ahead iter' (past ++ [x]) xs := by
  have hfits := h.holds.fits
  rw [length_append, length_cons] at hfits
  have hne : iter.rIdx ≠ iter.wIdx := by
    rw [h.rIdx, h.wIdx, h.holds.stop, length_append, length_cons]
    exact wrap_ne h.holds.start (Nat.lt_add_of_pos_right (Nat.succ_pos _)) hfits
  have hvalue : iter.ring.val iter.rIdx = some x := by
    rw [h.rIdx]
    refine h.holds.slot past.length x ?_
    rw [List.getElem?_append_right (Nat.le_refl _), Nat.sub_self]
    rfl
  refine ⟨{ iter with rIdx := (iter.rIdx + 1) % iter.ring.capacity }, ?_, ?_, ?_, h.wIdx⟩
  · rw [RingIterator.next, if_pos hne, hvalue]
  · rw [append_assoc]
    exact h.holds
  · dsimp only
    rw [h.rIdx, Nat.mod_add_mod, length_append, length_singleton, Nat.add_assoc]

/-- The elements from the oldest one on -/
theorem Ahead.visit_eq (h : Ahead iter past xs) (hcalls : xs.length < calls) :
    visit RingIterator.next calls iter = some (xs.map some) := by
  induction xs generalizing iter past calls with
  | nil => exact visit_nil hcalls h.nil
  | cons x xs ih =>
    obtain ⟨iter', hnext, hrest⟩ := h.cons
    obtain ⟨calls, rfl⟩ := Nat.exists_eq_succ_of_ne_zero (Nat.ne_zero_of_lt hcalls)
    exact visit_cons hnext (ih hrest (Nat.lt_of_succ_lt_succ hcalls))

/-- The elements from the newest one back -/
theorem Gives.visit_eq {iter : RingReverseIterator α} (h : Gives iter xs)
    (hcalls : xs.length < calls) :
    visit RingReverseIterator.next calls iter = some (xs.reverse.map some) := by
  induction xs using List.reverseRecOn generalizing iter calls with
  | nil => exact visit_nil hcalls h.nil
  | append_singleton xs x ih =>
    rw [length_append, length_singleton] at hcalls
    obtain ⟨iter', hnext, hrest⟩ := h.concat
    obtain ⟨calls, rfl⟩ := Nat.exists_eq_succ_of_ne_zero (Nat.ne_zero_of_lt hcalls)
    rw [reverse_append, reverse_singleton, map_append]
    exact visit_cons hnext (ih hrest (Nat.lt_of_succ_lt_succ hcalls))

/-! ### The ring as the queue -/

/-- One operation on a ring, where an iteration comes to its end -/
def step (r : RingBuffer α) (op : QueueOp α) : Option (QueueAnswer α × RingBuffer α) :=
  match op with
  | .push e => some (.gave (r.push e).1, (r.push e).2)
  | .pushForce e => some (.gave (r.pushForce e).1, (r.pushForce e).2)
  | .pull => some (.gave r.pull.1, r.pull.2)
  | .iterate => (visit RingIterator.next r.capacity r.iteratorMake).map (.visited ·, r)
  | .reverseIterate =>
    (visit RingReverseIterator.next r.capacity r.reverseIteratorMake).map (.visited ·, r)

def runRing : List (QueueOp α) → RingBuffer α → Option (List (QueueAnswer α) × RingBuffer α)
  | [], r => some ([], r)
  | op :: ops, r => do
    let (answer, r) ← r.step op
    let (answers, r) ← runRing ops r
    return (answer :: answers, r)

/-- The ring is a way to keep this queue. -/
structure Keeps (r : RingBuffer α) (q : BoundedQueue α capacity) : Prop where
  holds : r.Holds q.elements
  capacity_eq : r.capacity = capacity + 1

variable {q : BoundedQueue α capacity}

theorem keeps_init (val : ℕ → Option α) (capacity : ℕ) :
    (init val capacity).Keeps (.empty capacity) :=
  ⟨init_holds val capacity, rfl⟩

namespace Keeps

theorem ringCapacity_eq (h : r.Keeps q) : r.ringCapacity = capacity := by
  rw [ringCapacity, h.capacity_eq, Nat.add_sub_cancel]

theorem push (h : r.Keeps q) (e : α) :
    (r.push e).1 = (q.push e).1 ∧ (r.push e).2.Keeps (q.push e).2 := by
  by_cases hroom : q.elements.length < capacity
  · obtain ⟨hnone, hholds⟩ := h.holds.push (h.ringCapacity_eq.symm ▸ hroom) e
    refine ⟨?_, ?_, (Holds.capacity_push e).trans h.capacity_eq⟩
    · rw [hnone, BoundedQueue.push, dif_pos hroom]
    · rw [BoundedQueue.elements_push hroom]
      exact hholds
  · have hfull : q.elements.length = r.ringCapacity := by
      rw [h.ringCapacity_eq]
      exact le_antisymm q.bounded (not_lt.mp hroom)
    rw [h.holds.push_full hfull, BoundedQueue.push_of_full hroom]
    exact ⟨rfl, h⟩

theorem pull (h : r.Keeps q) : r.pull.1 = q.pull.1 ∧ r.pull.2.Keeps q.pull.2 := by
  obtain ⟨hholds, hcapacity⟩ := h
  obtain ⟨elements, bounded⟩ := q
  cases elements with
  | nil =>
    rw [hholds.pull_nil]
    exact ⟨rfl, hholds, hcapacity⟩
  | cons x xs =>
    obtain ⟨hsome, hrest⟩ := hholds.pull_cons
    exact ⟨hsome, hrest, Holds.capacity_pull.trans hcapacity⟩

theorem pushForce (h : r.Keeps q) (e : α) :
    (r.pushForce e).1 = (q.pushForce e).1 ∧ (r.pushForce e).2.Keeps (q.pushForce e).2 := by
  obtain ⟨hanswer, hkeeps⟩ := h.push e
  by_cases hroom : q.elements.length < capacity
  · have hnone : (r.push e).1 = none := (h.holds.push (h.ringCapacity_eq.symm ▸ hroom) e).1
    have hforce : r.pushForce e = r.push e := by
      rw [RingBuffer.pushForce]
      split
      · next pushed hpush => exact hpush.symm
      · next hpush =>
        rw [hpush] at hnone
        cases hnone
    rw [hforce, BoundedQueue.pushForce, if_pos hroom]
    exact ⟨hanswer, hkeeps⟩
  · have hgiven : (r.push e).1 = some e := by rw [hanswer, BoundedQueue.push_of_full hroom]
    have hforce : r.pushForce e = (r.pull.1, (r.pull.2.push e).2) := by
      rw [RingBuffer.pushForce]
      split
      · next hpush =>
        rw [hpush] at hgiven
        cases hgiven
      · rfl
    rw [hforce, BoundedQueue.pushForce, if_neg hroom]
    exact ⟨h.pull.1, (h.pull.2.push e).2⟩

theorem step (h : r.Keeps q) (op : QueueOp α) :
    ∃ r', r.step op = some ((q.step op).1, r') ∧ r'.Keeps (q.step op).2 := by
  cases op with
  | push e =>
    obtain ⟨hanswer, hkeeps⟩ := h.push e
    refine ⟨_, ?_, hkeeps⟩
    rw [RingBuffer.step, BoundedQueue.step, hanswer]
  | pushForce e =>
    obtain ⟨hanswer, hkeeps⟩ := h.pushForce e
    refine ⟨_, ?_, hkeeps⟩
    rw [RingBuffer.step, BoundedQueue.step, hanswer]
  | pull =>
    obtain ⟨hanswer, hkeeps⟩ := h.pull
    refine ⟨_, ?_, hkeeps⟩
    rw [RingBuffer.step, BoundedQueue.step, hanswer]
  | iterate =>
    refine ⟨r, ?_, h⟩
    rw [RingBuffer.step, h.holds.ahead.visit_eq h.holds.fits]
    rfl
  | reverseIterate =>
    refine ⟨r, ?_, h⟩
    rw [RingBuffer.step, h.holds.gives.visit_eq h.holds.fits]
    rfl

/-- A run over the ring gives what it gives over the queue, and leaves the same elements. -/
theorem run (h : r.Keeps q) (ops : List (QueueOp α)) :
    ∃ r', runRing ops r = some ((q.runQueue ops).1, r') ∧ r'.Keeps (q.runQueue ops).2 := by
  induction ops generalizing r q with
  | nil => exact ⟨r, rfl, h⟩
  | cons op ops ih =>
    obtain ⟨r₁, hstep, h₁⟩ := h.step op
    obtain ⟨r₂, hrun, h₂⟩ := ih h₁
    refine ⟨r₂, ?_, h₂⟩
    rw [runRing, hstep, Option.bind_eq_bind, Option.bind_some]
    dsimp only
    rw [hrun]
    rfl

end Keeps

/-- Over any sequence of operations a ring is a queue of its capacity, whatever its slots hold at
first. Every operation gives what it gives on the queue, an iteration in particular the elements
that are in it; the queue holds those that entered it and have not left it, in their order. -/
theorem ring_refines_queue (hcapacity : 0 < capacity) (val : ℕ → Option α)
    (ops : List (QueueOp α)) :
    ∃ (r : RingBuffer α) (q : BoundedQueue α capacity) (answers : List (QueueAnswer α)),
      runRing ops (init val capacity) = some (answers, r) ∧
      BoundedQueue.runQueue ops (.empty capacity) = (answers, q) ∧
      r.Holds q.elements ∧ r.len = q.elements.length ∧ r.len ≤ capacity ∧
      BoundedQueue.entered ops (.empty capacity) =
        BoundedQueue.left ops (.empty capacity) ++ q.elements ∧
      visit RingIterator.next r.capacity r.iteratorMake = some (q.elements.map some) ∧
      visit RingReverseIterator.next r.capacity r.reverseIteratorMake =
        some (q.elements.reverse.map some) := by
  obtain ⟨r, hrun, hkeeps⟩ := (keeps_init val capacity).run ops
  have hlen := hkeeps.holds.len_eq
  refine ⟨r, _, _, hrun, rfl, hkeeps.holds, hlen, ?_, ?_, ?_, ?_⟩
  · rw [hlen]
    exact BoundedQueue.bounded _
  · exact BoundedQueue.elements_run hcapacity ops (.empty capacity)
  · exact hkeeps.holds.ahead.visit_eq hkeeps.holds.fits
  · exact hkeeps.holds.gives.visit_eq hkeeps.holds.fits

theorem ring_refines_queue_dropsOldest : 0 < 2 ∧ ∃ r : RingBuffer ℕ,
      runRing [.push 1, .push 2, .push 3, .pushForce 4, .iterate, .reverseIterate, .pull]
        (init (fun _ ↦ some 7) 2) = some ([.gave none, .gave none, .gave (some 3), .gave (some 1),
            .visited [some 2, some 4], .visited [some 4, some 2], .gave (some 2)], r) ∧
              r.Holds [4] := by
  obtain ⟨r, q, answers, hrun, hqueue, hholds, -⟩ := ring_refines_queue (by decide : 0 < 2)
    (fun _ ↦ some 7) [.push 1, .push 2, .push 3, .pushForce 4, .iterate, .reverseIterate, .pull]
  obtain ⟨rfl, rfl⟩ := Prod.mk.inj hqueue
  exact ⟨by decide, r, hrun, hholds⟩

end RingBuffer

end ZenohPico.Collections
