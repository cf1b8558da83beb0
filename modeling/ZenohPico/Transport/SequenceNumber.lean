import ZenohPico.Foundations.SerialNumber
import Mathlib.Data.Nat.Bitwise
import Mathlib.Tactic.IntervalCases

/-!
Sequence numbers of a transport (`src/transport/utils.c`).

A sequence number is a machine word masked by the sequence-number resolution. The
resolutions the code hands out are the masks of `snMax`; the positions behind the
words are integers, and `snAt` is the word a sender shows for a position.
-/

namespace ZenohPico.Transport

/-! ### The source's functions -/

/-- `_z_sn_max`: the mask of a resolution announced with two bits. -/
def snMax : ℕ → UInt64
  | 0x00 => (0xFF : UInt64) >>> 1
  | 0x01 => (0xFFFF : UInt64) >>> 2
  | 0x02 => (0xFFFFFFFF : UInt64) >>> 4
  | 0x03 => (0xFFFFFFFFFFFFFFFF : UInt64) >>> 1
  | _ => 0

/-- `_z_sn_half` -/
def snHalf (sn : UInt64) : UInt64 := sn >>> 1

/-- `_z_sn_precedes` -/
def snPrecedes (snResolution snLeft snRight : UInt64) : Bool :=
  let distance := (snRight - snLeft) &&& snResolution
  decide (distance ≤ snHalf snResolution) && distance != 0

/-- `_z_sn_consecutive` -/
def snConsecutive (snResolution snLeft snRight : UInt64) : Bool :=
  let distance := (snRight - snLeft) &&& snResolution
  distance == 1

/-- `_z_sn_increment` -/
def snIncrement (snResolution sn : UInt64) : UInt64 := (sn + 1) &&& snResolution

/-- `_z_sn_decrement` -/
def snDecrement (snResolution sn : UInt64) : UInt64 := (sn - 1) &&& snResolution

/-! ### Resolutions as powers of two -/

/-- The number of values of a resolution, for the two-bit resolutions. -/
def snRange : ℕ → ℕ
  | 0x00 => 2 ^ 7
  | 0x01 => 2 ^ 14
  | 0x02 => 2 ^ 28
  | _ => 2 ^ 63

/-- A resolution announced with two bits. -/
def IsResolution (bits : ℕ) : Prop := bits ≤ 0x03

instance (bits : ℕ) : Decidable (IsResolution bits) := inferInstanceAs (Decidable (bits ≤ 0x03))

variable {bits : ℕ}

theorem snHalf_toNat (h : IsResolution bits) :
    2 * (snHalf (snMax bits)).toNat + 2 = snRange bits := by
  unfold IsResolution at h
  interval_cases bits <;> decide

theorem snRange_dvd (h : IsResolution bits) : snRange bits ∣ 2 ^ 64 := by
  unfold IsResolution at h
  interval_cases bits <;> decide

theorem snRange_ge (h : IsResolution bits) : 128 ≤ snRange bits := by
  unfold IsResolution at h
  interval_cases bits <;> decide

/-- Masking with a resolution is reduction modulo its range. -/
theorem toNat_and_snMax (h : IsResolution bits) (x : UInt64) :
    (x &&& snMax bits).toNat = x.toNat % snRange bits := by
  have hmask : ∃ k, (snMax bits).toNat = 2 ^ k - 1 ∧ snRange bits = 2 ^ k := by
    unfold IsResolution at h
    interval_cases bits
    · exact ⟨7, by decide, rfl⟩
    · exact ⟨14, by decide, rfl⟩
    · exact ⟨28, by decide, rfl⟩
    · exact ⟨63, by decide, rfl⟩
  obtain ⟨k, hk, hrange⟩ := hmask
  rw [UInt64.toNat_and, hk, hrange, Nat.and_two_pow_sub_one_eq_mod]

/-! ### The word of a position -/

/-- The sequence number a sender shows for position `i`. -/
def snAt (bits : ℕ) (i : ℤ) : UInt64 := UInt64.ofNat (i % snRange bits).toNat

theorem snRange_pos (bits : ℕ) : 0 < snRange bits := by
  unfold snRange
  split <;> positivity

theorem snAt_toNat (h : IsResolution bits) (i : ℤ) :
    ((snAt bits i).toNat : ℤ) = i % snRange bits := by
  have hpos : (0 : ℤ) < snRange bits := by exact_mod_cast snRange_pos bits
  have hlt := Int.emod_lt_of_pos i hpos
  have hnonneg := Int.emod_nonneg i hpos.ne'
  have hle : snRange bits ≤ 2 ^ 64 := Nat.le_of_dvd (by positivity) (snRange_dvd h)
  unfold snAt
  rw [UInt64.toNat_ofNat', Nat.mod_eq_of_lt (by omega)]
  omega

/-- The masked difference of two words is their circular distance. -/
theorem masked_sub (h : IsResolution bits) (x y : UInt64) : (((y - x) &&& snMax bits).toNat : ℤ) =
      SerialNumber.distance (snRange bits) x.toNat y.toNat := by
  have hbound := x.toNat_lt
  have hword : ((2 ^ 64 - x.toNat + y.toNat : ℕ) : ℤ) = y.toNat - x.toNat + 2 ^ 64 := by omega
  rw [toNat_and_snMax h, Int.natCast_emod, UInt64.toNat_sub, Int.natCast_emod,
    Int.emod_emod_of_dvd _ (by exact_mod_cast snRange_dvd h), hword]
  obtain ⟨q, hq⟩ : ((snRange bits : ℕ) : ℤ) ∣ 2 ^ 64 := by exact_mod_cast snRange_dvd h
  rw [hq, Int.add_mul_emod_self_left]
  rfl

/-- The masked difference of two sequence numbers is the distance of their positions. -/
theorem masked_sub_snAt (h : IsResolution bits) (i j : ℤ) :
    (((snAt bits j - snAt bits i) &&& snMax bits).toNat : ℤ) =
      SerialNumber.distance (snRange bits) i j := by
  rw [masked_sub h, snAt_toNat h, snAt_toNat h, SerialNumber.distance_emod]

theorem snPrecedes_iff (h : IsResolution bits) (x y : UInt64) : snPrecedes (snMax bits) x y = true ↔
      SerialNumber.Precedes (snRange bits) x.toNat y.toNat := by
  have hdist := masked_sub h x y
  have hhalf := snHalf_toNat h
  unfold snPrecedes SerialNumber.Precedes
  rw [← hdist]
  simp only [Bool.and_eq_true, decide_eq_true_eq, bne_iff_ne, UInt64.le_iff_toNat_le, ne_eq,
    ← UInt64.toNat_inj, UInt64.toNat_zero]
  omega

theorem snPrecedes_snAt (h : IsResolution bits) (i j : ℤ) :
    snPrecedes (snMax bits) (snAt bits i) (snAt bits j) = true ↔
      SerialNumber.Precedes (snRange bits) i j := by
  rw [snPrecedes_iff h, SerialNumber.Precedes, SerialNumber.Precedes, snAt_toNat h, snAt_toNat h,
    SerialNumber.distance_emod]

/-- Within half the range, one sequence number precedes another exactly when it was sent
earlier. -/
theorem snPrecedes_iff_lt (h : IsResolution bits) {i j : ℤ}
    (hclose : SerialNumber.Close (snRange bits) i j) :
    snPrecedes (snMax bits) (snAt bits i) (snAt bits j) = true ↔ i < j := by
  rw [snPrecedes_snAt h, SerialNumber.precedes_iff_lt hclose]

/-- Within half the range, consecutive sequence numbers belong to consecutive positions. -/
theorem snConsecutive_iff (h : IsResolution bits) {i j : ℤ}
    (hclose : SerialNumber.Close (snRange bits) i j) :
    snConsecutive (snMax bits) (snAt bits i) (snAt bits j) = true ↔ j = i + 1 := by
  have hrange := snRange_ge h
  rw [← SerialNumber.distance_eq_one_iff (by omega) hclose, ← masked_sub_snAt h]
  unfold snConsecutive
  simp only [beq_iff_eq, ← UInt64.toNat_inj, UInt64.toNat_one]
  omega

theorem eq_snAt_of_toNat (h : IsResolution bits) {x : UInt64} {i : ℤ}
    (hx : (x.toNat : ℤ) = i % snRange bits) : x = snAt bits i := by
  rw [← UInt64.toNat_inj]
  have := snAt_toNat h i
  omega

theorem toNat_snIncrement (h : IsResolution bits) (x : UInt64) :
    ((snIncrement (snMax bits) x).toNat : ℤ) = (x.toNat + 1) % snRange bits := by
  unfold snIncrement
  rw [toNat_and_snMax h, Int.natCast_emod, UInt64.toNat_add, Int.natCast_emod,
    Int.emod_emod_of_dvd _ (by exact_mod_cast snRange_dvd h), UInt64.toNat_one]
  push_cast
  rfl

theorem snIncrement_snAt (h : IsResolution bits) (i : ℤ) :
    snIncrement (snMax bits) (snAt bits i) = snAt bits (i + 1) := by
  apply eq_snAt_of_toNat h
  rw [toNat_snIncrement h, snAt_toNat h, Int.emod_add_emod]

theorem snDecrement_snAt (h : IsResolution bits) (i : ℤ) :
    snDecrement (snMax bits) (snAt bits (i + 1)) = snAt bits i := by
  apply eq_snAt_of_toNat h
  have hone : (1 : UInt64) = snAt bits 1 := by
    apply eq_snAt_of_toNat h
    have hrange := snRange_ge h
    rw [Int.emod_eq_of_lt (by omega) (by omega)]
    rfl
  unfold snDecrement
  rw [hone, masked_sub_snAt h]
  unfold SerialNumber.distance
  rw [add_sub_cancel_right]

/-- The masked distance from a word to its increment is one. -/
theorem masked_increment_sub (h : IsResolution bits) (x : UInt64) :
    (snIncrement (snMax bits) x - x) &&& snMax bits = 1 := by
  have hrange := snRange_ge h
  have hdist := masked_sub h x (snIncrement (snMax bits) x)
  rw [toNat_snIncrement h, ← SerialNumber.distance_emod, Int.emod_emod_of_dvd _ dvd_rfl,
    SerialNumber.distance_emod, SerialNumber.distance_of_le (by omega) (by omega)] at hdist
  rw [← UInt64.toNat_inj, UInt64.toNat_one]
  omega

/-- The incremented number is ahead of the number itself. -/
theorem snPrecedes_increment (h : IsResolution bits) (x : UInt64) :
    snPrecedes (snMax bits) x (snIncrement (snMax bits) x) = true := by
  have hhalf := snHalf_toNat h
  have hrange := snRange_ge h
  unfold snPrecedes
  rw [masked_increment_sub h]
  simp only [Bool.and_eq_true, decide_eq_true_eq, UInt64.le_iff_toNat_le, UInt64.toNat_one,
    bne_iff_ne, ne_eq]
  exact ⟨by omega, by decide⟩

/-- The incremented number is consecutive to the number itself. -/
theorem snConsecutive_increment (h : IsResolution bits) (x : UInt64) :
    snConsecutive (snMax bits) x (snIncrement (snMax bits) x) = true := by
  unfold snConsecutive
  rw [masked_increment_sub h]
  rfl

end ZenohPico.Transport
