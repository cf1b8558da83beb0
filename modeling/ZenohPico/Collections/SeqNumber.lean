import Mathlib.Data.Int.ModEq
import Mathlib.Order.Lattice
import Mathlib.Tactic.Linarith

/-!
The 32-bit sequence numbers of `include/zenoh-pico/collections/seqnumber.h`.

Two numbers are compared by the sign of their difference. Numbers that lie within half the range
are those of a window of length `2 ^ 31`, and there the comparison is that of their places in the
window (`seqnumberDiff_eq_rank`).
-/

namespace ZenohPico.Collections

/-- `_z_seqnumber_next` -/
def seqnumberNext (last : UInt32) : UInt32 := if last = 0xFFFFFFFF then 0 else last + 1

/-- `_z_seqnumber_prev` -/
def seqnumberPrev (current : UInt32) : UInt32 := if current = 0 then 0xFFFFFFFF else current - 1

/-- `_z_seqnumber_diff` -/
def seqnumberDiff (a b : UInt32) : ℤ := (a - b).toInt32.toInt

/-- `a` is before `b` in the serial order. -/
def SerialLt (a b : UInt32) : Prop := 0 < seqnumberDiff b a

instance (a b : UInt32) : Decidable (SerialLt a b) := inferInstanceAs (Decidable (0 < _))

/-- The place of a number in the window that starts at `base` -/
def rank (base a : UInt32) : ℕ := (a - base).toNat

/-- The number lies in the half of the range that starts at `base`. -/
def InWindow (base a : UInt32) : Prop := rank base a < 0x80000000

instance (base a : UInt32) : Decidable (InWindow base a) := inferInstanceAs (Decidable (_ < _))

theorem seqnumberNext_eq (last : UInt32) : seqnumberNext last = last + 1 := by
  unfold seqnumberNext
  split_ifs with h
  · rw [h]
    rfl
  · rfl

theorem seqnumberPrev_eq (current : UInt32) : seqnumberPrev current = current - 1 := by
  unfold seqnumberPrev
  split_ifs with h
  · rw [h]
    rfl
  · rfl

theorem seqnumberDiff_eq_bmod (a b : UInt32) :
    seqnumberDiff a b = Int.bmod ((a - b).toNat : ℤ) 0x100000000 := by
  unfold seqnumberDiff
  rw [← Int32.toInt_toBitVec, UInt32.toBitVec_toInt32, BitVec.toInt_eq_toNat_bmod,
    UInt32.toNat_toBitVec]

variable {base a b : UInt32}

theorem rank_injective (h : rank base a = rank base b) : a = b := by
  have hsub : a - base = b - base := UInt32.toNat_inj.mp h
  exact (UInt32.sub_left_inj base).mp hsub

/-- A difference that is not negative is that of the numbers themselves. -/
theorem toNat_sub_of_seqnumberDiff (h : 0 ≤ seqnumberDiff a b) :
    ((a - b).toNat : ℤ) = seqnumberDiff a b := by
  have hlt := (a - b).toNat_lt
  rw [seqnumberDiff_eq_bmod, Int.bmod_def] at h ⊢
  split_ifs at h ⊢ <;> omega

/-- Within half the range the difference is that of the places. -/
theorem seqnumberDiff_eq_rank (ha : InWindow base a) (hb : InWindow base b) :
    seqnumberDiff a b = (rank base a : ℤ) - rank base b := by
  have hsub : a - b = (a - base) - (b - base) := by grind
  have hmod := UInt32.toNat_sub (a - base) (b - base)
  rw [seqnumberDiff_eq_bmod, hsub, hmod, Int.bmod_def]
  unfold InWindow rank at *
  split_ifs <;> omega

theorem rank_seqnumberNext (ha : InWindow base a) :
    rank base (seqnumberNext a) = rank base a + 1 := by
  have hsub : seqnumberNext a - base = (a - base) + 1 := by
    rw [seqnumberNext_eq]
    grind
  unfold InWindow rank at *
  rw [hsub, UInt32.toNat_add]
  have : (1 : UInt32).toNat = 1 := rfl
  omega

/-- The difference that the gap before a number is measured with -/
theorem seqnumberDiff_next_eq_rank (ha : InWindow base a) (hb : InWindow base b) :
    seqnumberDiff a (seqnumberNext b) = (rank base a : ℤ) - rank base b - 1 := by
  have hsub : a - seqnumberNext b = (a - base) - ((b - base) + 1) := by
    rw [seqnumberNext_eq]
    grind
  have hone : (1 : UInt32).toNat = 1 := rfl
  have hnext := UInt32.toNat_add (b - base) 1
  have hmod := UInt32.toNat_sub (a - base) ((b - base) + 1)
  rw [seqnumberDiff_eq_bmod, hsub, hmod, hnext, hone, Int.bmod_def]
  unfold InWindow rank at *
  split_ifs <;> omega

theorem serialLt_iff_rank (ha : InWindow base a) (hb : InWindow base b) :
    SerialLt a b ↔ rank base a < rank base b := by
  unfold SerialLt
  rw [seqnumberDiff_eq_rank hb ha]
  omega

end ZenohPico.Collections
