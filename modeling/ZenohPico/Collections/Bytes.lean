import Mathlib.Data.List.Basic

/-!
Slices and lists of slices (`include/zenoh-pico/collections/arc_slice.h`,
`src/collections/bytes.c`).

What is read through a slice lies within it, or nothing is read: where the source would read
elsewhere, the functions here have no result.
-/

open List

namespace ZenohPico.Collections

/-- `_z_arc_slice_t`, with the buffer that its slice owns. `_z_arc_slice_wrap` asserts that it
fits. -/
structure ArcSlice where
  slice : List UInt8
  start : ℕ
  len : ℕ
  fits : start + len ≤ slice.length

namespace ArcSlice

variable (s : ArcSlice)

def bytes : List UInt8 := (s.slice.drop s.start).take s.len

/-- So many bytes from behind a place of `_z_arc_slice_data` -/
def copy (offset count : ℕ) : Option (List UInt8) :=
  if offset + count ≤ s.len then some ((s.slice.drop (s.start + offset)).take count) else none

theorem fits_subslice {s : ArcSlice} {offset len : ℕ} (h : offset + len ≤ s.len) :
    s.start + offset + len ≤ s.slice.length := by
  have hfits := s.fits
  omega

/-- `_z_arc_slice_get_subslice` -/
def getSubslice (offset len : ℕ) : Option ArcSlice :=
  if h : offset + len ≤ s.len then some ⟨s.slice, s.start + offset, len, fits_subslice h⟩ else none

/-- What is left of the slice behind a place of it -/
def remaining (idx : ℕ) : Option ℕ := if idx ≤ s.len then some (s.len - idx) else none

variable {s} {idx count : ℕ}

theorem length_bytes : s.bytes.length = s.len := by
  have hfits := s.fits
  rw [bytes, length_take, length_drop]
  omega

theorem remaining_eq (h : idx ≤ s.len) : s.remaining idx = some (s.bytes.drop idx).length := by
  rw [remaining, if_pos h, length_drop, length_bytes]

theorem take_drop_slice (h : idx + count ≤ s.len) :
    (s.slice.drop (s.start + idx)).take count = (s.bytes.drop idx).take count := by
  rw [bytes, drop_take, take_take, drop_drop, Nat.min_eq_left (by omega)]

theorem copy_eq (h : idx + count ≤ s.len) :
    s.copy idx count = some ((s.bytes.drop idx).take count) := by
  rw [copy, if_pos h, take_drop_slice h]

theorem getSubslice_eq (h : idx + count ≤ s.len) :
    ∃ sub, s.getSubslice idx count = some sub ∧ sub.bytes = (s.bytes.drop idx).take count :=
  ⟨_, dif_pos h, take_drop_slice h⟩

end ArcSlice

/-- `_z_bytes_len` -/
def bytesLen : List ArcSlice → ℕ
  | [] => 0
  | s :: slices => s.len + bytesLen slices

/-- The bytes of all slices, one after the other -/
def flatten (slices : List ArcSlice) : List UInt8 := slices.flatMap ArcSlice.bytes

theorem flatten_nil : flatten [] = [] := rfl

theorem flatten_cons (s : ArcSlice) (slices : List ArcSlice) :
    flatten (s :: slices) = s.bytes ++ flatten slices := rfl

theorem flatten_append (slices slices' : List ArcSlice) :
    flatten (slices ++ slices') = flatten slices ++ flatten slices' := flatMap_append

theorem flatten_singleton (s : ArcSlice) : flatten [s] = s.bytes := append_nil _

theorem length_flatten (slices : List ArcSlice) : (flatten slices).length = bytesLen slices := by
  induction slices with
  | nil => rfl
  | cons s slices ih => rw [flatten_cons, length_append, ArcSlice.length_bytes, ih, bytesLen]

end ZenohPico.Collections
