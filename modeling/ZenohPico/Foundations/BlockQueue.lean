import Mathlib.Data.List.Basic
import Mathlib.Tactic.SplitIfs
import Mathlib.Tactic.Ring

/-!
Queues that are written block by block.

A block queue keeps everything that was written to it, the number of the elements that were taken,
and the room that is left in its last block. When the room is used up the queue grows by blocks of
a fixed length, or does not grow when that length is zero. The end of the queue can be set back to
a place at which it was before.
-/

open List

namespace ZenohPico.Foundations

variable {α : Type*}

/-- A queue, by what was written to it -/
structure BlockQueue (α : Type*) where
  log : List α
  taken : ℕ
  room : ℕ
  step : ℕ
  taken_le : taken ≤ log.length

namespace BlockQueue

/-- The room in the last block after `n` more elements -/
def roomAfter (room step n : ℕ) : ℕ :=
  if n ≤ room then room - n else (step - (n - room) % step) % step

/-- The queue with one block of the length `room` -/
def empty (room step : ℕ) : BlockQueue α := ⟨[], 0, room, step, Nat.zero_le _⟩

variable (q : BlockQueue α)

/-- What was written and not taken yet, the oldest first -/
def content : List α := q.log.drop q.taken

/-- Elements behind the others, in as many new blocks as they need -/
def put (as : List α) : BlockQueue α where
  log := q.log ++ as
  taken := q.taken
  room := roomAfter q.room q.step as.length
  step := q.step
  taken_le := q.taken_le.trans (by simp)

/-- Elements behind the others that are in no block -/
def attach (as : List α) : BlockQueue α where
  log := q.log ++ as
  taken := q.taken
  room := q.room
  step := q.step
  taken_le := q.taken_le.trans (by simp)

/-- One more block -/
def grow : BlockQueue α := { q with room := q.step }

/-- The queue without its first `n` elements -/
def drop (n : ℕ) : BlockQueue α where
  log := q.log
  taken := min (q.taken + n) q.log.length
  room := q.room
  step := q.step
  taken_le := min_le_right _ _

/-- The queue with its end set back to behind the first `pos` elements written -/
def setBack (pos : ℕ) : BlockQueue α where
  log := q.log.take pos
  taken := min q.taken pos
  room := q.room + (q.log.length - pos)
  step := q.step
  taken_le := by
    rw [length_take]
    have := q.taken_le
    omega

@[ext]
theorem ext {q q' : BlockQueue α} (hlog : q.log = q'.log) (htaken : q.taken = q'.taken)
    (hroom : q.room = q'.room) (hstep : q.step = q'.step) : q = q' := by
  obtain ⟨log, taken, room, step, hle⟩ := q
  obtain ⟨log', taken', room', step', hle'⟩ := q'
  subst hlog htaken hroom hstep
  rfl

/-! ### The content -/

@[simp]
theorem length_content : q.content.length = q.log.length - q.taken := length_drop

@[simp]
theorem content_put (as : List α) : (q.put as).content = q.content ++ as :=
  drop_append_of_le_length q.taken_le

@[simp]
theorem content_attach (as : List α) : (q.attach as).content = q.content ++ as :=
  drop_append_of_le_length q.taken_le

@[simp]
theorem content_drop (n : ℕ) : (q.drop n).content = q.content.drop n := by
  rw [content, content, drop_drop]
  change List.drop (min (q.taken + n) q.log.length) q.log = _
  rcases Nat.le_total (q.taken + n) q.log.length with h | h
  · rw [min_eq_left h]
  · rw [min_eq_right h, drop_length, drop_eq_nil_of_le h]

theorem content_setBack {pos : ℕ} (h : q.taken ≤ pos) :
    (q.setBack pos).content = q.content.take (pos - q.taken) := by
  change (q.log.take pos).drop (min q.taken pos) = _
  rw [min_eq_left h, drop_take, content]

/-! ### How writes combine -/

/-- What is left in the last of the blocks, when `m` more elements follow `n` -/
theorem roomAfter_add {room step n : ℕ} (m : ℕ) (h : n ≤ room) :
    roomAfter (roomAfter room step n) step m = roomAfter room step (n + m) := by
  simp only [roomAfter, if_pos h]
  by_cases hm : m ≤ room - n
  · rw [if_pos hm, if_pos (by omega)]
    omega
  · rw [if_neg hm, if_neg (by omega)]
    congr 3
    omega

/-- A new block for elements for which there is no room -/
theorem roomAfter_grow {step n : ℕ} (hstep : step ≠ 0) (hn : n ≠ 0) :
    roomAfter step step n = roomAfter 0 step n := by
  simp only [roomAfter, Nat.le_zero, if_neg hn, Nat.sub_zero]
  split_ifs with h
  · rcases h.lt_or_eq with hlt | rfl
    · rw [Nat.mod_eq_of_lt hlt, Nat.mod_eq_of_lt (by omega)]
    · simp
  · rw [← Nat.mod_eq_sub_mod (by omega)]

theorem put_put {as : List α} (bs : List α) (h : as.length ≤ q.room) :
    (q.put as).put bs = q.put (as ++ bs) := by
  ext1
  · exact append_assoc ..
  · rfl
  · change roomAfter (roomAfter q.room q.step as.length) q.step bs.length = _
    rw [roomAfter_add _ h, ← length_append]
    rfl
  · rfl

theorem grow_put {as : List α} (hroom : q.room = 0) (hstep : q.step ≠ 0) (has : as ≠ []) :
    q.grow.put as = q.put as := by
  ext1
  · rfl
  · rfl
  · change roomAfter q.step q.step as.length = roomAfter q.room q.step as.length
    rw [roomAfter_grow hstep (by simpa using has), hroom]
  · rfl

@[simp]
theorem put_nil : q.put [] = q := by
  ext1
  · exact append_nil _
  · rfl
  · change roomAfter q.room q.step 0 = q.room
    simp [roomAfter]
  · rfl

@[simp]
theorem drop_zero : q.drop 0 = q := by
  ext1
  · rfl
  · exact min_eq_left q.taken_le
  · rfl
  · rfl

theorem drop_drop (n m : ℕ) : (q.drop n).drop m = q.drop (n + m) := by
  ext1
  · rfl
  · change min (min (q.taken + n) q.log.length + m) q.log.length =
      min (q.taken + (n + m)) q.log.length
    omega
  · rfl
  · rfl

end BlockQueue

end ZenohPico.Foundations
