import Mathlib.Data.List.Basic

/-!
A stream of frames, each sent after its length.

The length takes a fixed number of symbols. What was received of a stream either begins with a
whole frame, or is cut inside the length or inside the frame that comes first.
-/

/-- Lengths written in `width` symbols, for the frames shorter than `limit`. -/
structure Framing (α : Type*) where
  width : ℕ
  limit : ℕ
  encode : ℕ → List α
  decode : List α → ℕ
  length_encode : ∀ n, (encode n).length = width
  decode_encode : ∀ n < limit, decode (encode n) = n

open List

namespace Framing

variable {α : Type*} (f : Framing α)

/-- A frame after its length -/
def frame (b : List α) : List α := f.encode b.length ++ b

/-- Frames one after the other -/
def stream (bs : List (List α)) : List α := bs.flatMap f.frame

/-- The frames that lie wholly in the first symbols of their stream -/
def complete : ℕ → List (List α) → List (List α)
  | _, [] => []
  | n, b :: bs =>
    if f.width + b.length ≤ n then b :: complete (n - (f.width + b.length)) bs else []

/-- How far into a frame the first symbols of a stream end -/
def offset (n : ℕ) (bs : List (List α)) : ℕ := n - (f.stream (f.complete n bs)).length

@[simp]
theorem stream_nil : f.stream [] = [] := rfl

@[simp]
theorem stream_cons (b : List α) (bs : List (List α)) :
    f.stream (b :: bs) = f.frame b ++ f.stream bs := flatMap_cons

@[simp]
theorem stream_append (bs bs' : List (List α)) :
    f.stream (bs ++ bs') = f.stream bs ++ f.stream bs' := flatMap_append

@[simp]
theorem length_frame (b : List α) : (f.frame b).length = f.width + b.length := by
  rw [frame, length_append, length_encode]

variable {f}

theorem complete_append (bs bs' : List (List α)) (n : ℕ) :
    f.complete ((f.stream bs).length + n) (bs ++ bs') = bs ++ f.complete n bs' := by
  induction bs with
  | nil => rw [stream_nil, length_nil, Nat.zero_add, nil_append, nil_append]
  | cons b bs ih =>
    rw [stream_cons, length_append, length_frame, cons_append, complete,
      if_pos (by omega), cons_append, ← ih]
    congr 2
    omega

variable {bs : List (List α)}

theorem complete_eq_nil {n : ℕ} (h : ∀ b ∈ bs.head?, n < f.width + b.length) :
    f.complete n bs = [] := by
  cases bs with
  | nil => rfl
  | cons b bs =>
    have hlt := h b rfl
    rw [complete, if_neg (by omega)]

/-- The whole stream has all the frames. -/
theorem complete_of_length_le {n : ℕ} (h : (f.stream bs).length ≤ n) : f.complete n bs = bs := by
  have hcomplete := f.complete_append bs [] (n - (f.stream bs).length)
  rwa [Nat.add_sub_cancel' h, append_nil, complete, append_nil] at hcomplete

theorem complete_prefix (n : ℕ) (bs : List (List α)) : f.complete n bs <+: bs := by
  induction bs generalizing n with
  | nil => exact prefix_refl _
  | cons b bs ih =>
    rw [complete]
    split
    · exact cons_prefix_cons.mpr ⟨rfl, ih _⟩
    · exact nil_prefix

theorem offset_append {n : ℕ} {bs' : List (List α)} (h : f.complete n bs' = []) :
    f.offset ((f.stream bs).length + n) (bs ++ bs') = n := by
  rw [offset, complete_append, h, append_nil]
  omega

/-- The length that a received part of a stream begins with is that of the first frame. -/
theorem decode_take {got rest : List α} (hlimit : ∀ b ∈ bs, b.length < f.limit)
    (h : got ++ rest = f.stream bs) (hwidth : f.width ≤ got.length) (hpos : 0 < f.width) :
    ∃ b bs', bs = b :: bs' ∧ got.take f.width = f.encode b.length ∧
      f.decode (got.take f.width) = b.length ∧ got.drop f.width ++ rest = b ++ f.stream bs' := by
  cases bs with
  | nil =>
    have hlength := congrArg List.length h
    rw [stream_nil, length_append, length_nil] at hlength
    omega
  | cons b bs' =>
    rw [stream_cons, frame, append_assoc] at h
    have htake := congrArg (List.take f.width) h
    have hdrop := congrArg (List.drop f.width) h
    rw [take_append_of_le_length hwidth, take_left' (f.length_encode _)] at htake
    rw [drop_append_of_le_length hwidth, drop_left' (f.length_encode _)] at hdrop
    refine ⟨b, bs', rfl, htake, ?_, hdrop⟩
    rw [htake, f.decode_encode _ (hlimit b mem_cons_self)]

/-- A received frame, with what follows it. -/
theorem eq_append_of_length_le {b got rest tail : List α} (h : got ++ rest = b ++ tail)
    (hlength : b.length ≤ got.length) :
    got.take b.length = b ∧ got.drop b.length ++ rest = tail := by
  have htake := congrArg (List.take b.length) h
  have hdrop := congrArg (List.drop b.length) h
  rw [take_append_of_le_length hlength, take_left] at htake
  rw [drop_append_of_le_length hlength, drop_left] at hdrop
  exact ⟨htake, hdrop⟩

end Framing
