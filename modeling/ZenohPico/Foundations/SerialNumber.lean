import Mathlib.Data.Int.ModEq
import Mathlib.Tactic.Linarith

/-!
Serial numbers: unbounded positions observed through their residues.

A sender counts positions in the integers and shows only the residue modulo `R`.
A receiver compares residues by their circular distance. As long as two positions
are less than half the modulus apart, the circular comparison agrees with the
comparison of the positions themselves.
-/

namespace SerialNumber

/-- The circular distance from `a` forward to `b`. -/
def distance (R : ℕ) (a b : ℤ) : ℤ := (b - a) % R

/-- `b` is ahead of `a`: the forward distance is positive and below half the modulus. -/
def Precedes (R : ℕ) (a b : ℤ) : Prop := 0 < distance R a b ∧ 2 * distance R a b < R

/-- Two positions less than half the modulus apart. -/
def Close (R : ℕ) (a b : ℤ) : Prop := 2 * (b - a) < R ∧ 2 * (a - b) < R

instance (R : ℕ) (a b : ℤ) : Decidable (Close R a b) := inferInstanceAs (Decidable (_ ∧ _))

variable {R : ℕ} {a b : ℤ}

theorem distance_emod (R : ℕ) (a b : ℤ) : distance R (a % R) (b % R) = distance R a b := by
  unfold distance
  rw [← Int.sub_emod]

theorem distance_of_le (hle : a ≤ b) (hlt : b - a < R) : distance R a b = b - a :=
  Int.emod_eq_of_lt (by omega) hlt

theorem distance_of_lt (hlt : b < a) (hclose : a - b < R) : distance R a b = R + (b - a) := by
  unfold distance
  rw [← Int.add_emod_right, Int.emod_eq_of_lt] <;> omega

/-- Within half the modulus, being ahead on the circle is being later. -/
theorem precedes_iff_lt (h : Close R a b) : Precedes R a b ↔ a < b := by
  obtain ⟨hab, hba⟩ := h
  unfold Precedes
  rcases le_or_gt a b with hle | hlt
  · rw [distance_of_le hle (by omega)]
    omega
  · rw [distance_of_lt hlt (by omega)]
    omega

/-- Within half the modulus, distance one means the next position. -/
theorem distance_eq_one_iff (hR : 2 < R) (h : Close R a b) : distance R a b = 1 ↔ b = a + 1 := by
  obtain ⟨hab, hba⟩ := h
  rcases le_or_gt a b with hle | hlt
  · rw [distance_of_le hle (by omega)]
    omega
  · rw [distance_of_lt hlt (by omega)]
    omega

end SerialNumber
