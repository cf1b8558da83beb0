import Mathlib.Data.Nat.Digits.Lemmas

/-!
Numbers as text of decimal digits.
-/

open List

namespace ZenohPico.Foundations

/-- The text of a number -/
def decimal (n : ℕ) : List UInt8 :=
  if n = 0 then [0x30] else ((Nat.digits 10 n).map fun d ↦ UInt8.ofNat (0x30 + d)).reverse

/-- A byte is one of '0' to '9'. -/
def IsDigit (c : UInt8) : Prop := 0x30 ≤ c ∧ c ≤ 0x39

instance (c : UInt8) : Decidable (IsDigit c) := inferInstanceAs (Decidable (_ ∧ _))

/-- The number that a text stands for, behind digits that stand for another one -/
def numberFrom (value : ℕ) (text : List UInt8) : ℕ :=
  text.foldl (fun value c ↦ value * 10 + (c.toNat - 0x30)) value

@[simp]
theorem numberFrom_nil (value : ℕ) : numberFrom value [] = value := rfl

@[simp]
theorem numberFrom_cons (value : ℕ) (c : UInt8) (text : List UInt8) :
    numberFrom value (c :: text) = numberFrom (value * 10 + (c.toNat - 0x30)) text := by
  rw [numberFrom, foldl_cons, ← numberFrom]

theorem le_numberFrom (value : ℕ) (text : List UInt8) : value ≤ numberFrom value text := by
  induction text generalizing value with
  | nil => exact Nat.le_refl value
  | cons c text ih =>
    have h := ih (value * 10 + (c.toNat - 0x30))
    rw [numberFrom_cons]
    omega

theorem decimal_ne_nil (n : ℕ) : decimal n ≠ [] := by
  unfold decimal
  split_ifs with h
  · exact cons_ne_nil _ _
  · rw [Ne, reverse_eq_nil_iff, map_eq_nil_iff]
    exact Nat.digits_ne_nil_iff_ne_zero.mpr h

theorem isDigit_of_mem_decimal {n : ℕ} {c : UInt8} (h : c ∈ decimal n) : IsDigit c := by
  have hdigit {d : ℕ} (hd : d < 10) : IsDigit (UInt8.ofNat (0x30 + d)) := by
    have hall : ∀ d : Fin 10, 0x30 ≤ UInt8.ofNat (0x30 + d.val) ∧
        UInt8.ofNat (0x30 + d.val) ≤ 0x39 := by decide
    exact hall ⟨d, hd⟩
  unfold decimal at h
  split_ifs at h
  · rw [mem_singleton.mp h]
    exact hdigit (d := 0) (by decide)
  · rw [mem_reverse, mem_map] at h
    obtain ⟨d, hd, rfl⟩ := h
    exact hdigit (Nat.digits_lt_base (by decide) hd)

/-- The text of a number stands for it. -/
theorem numberFrom_decimal (n : ℕ) : numberFrom 0 (decimal n) = n := by
  unfold decimal
  split_ifs with h
  · rw [h]
    rfl
  · have hdigits : ∀ ds : List ℕ, (∀ d ∈ ds, d < 10) →
        numberFrom 0 ((ds.map fun d ↦ UInt8.ofNat (0x30 + d)).reverse) = Nat.ofDigits 10 ds := by
      intro ds hds
      rw [numberFrom, foldl_reverse, foldr_map]
      induction ds with
      | nil => rfl
      | cons d ds ih =>
        have hd := hds d mem_cons_self
        have hbyte : (UInt8.ofNat (0x30 + d)).toNat = 0x30 + d := by
          rw [UInt8.toNat_ofNat']
          omega
        rw [foldr_cons, ih fun d hd ↦ hds d (mem_cons_of_mem _ hd), hbyte, Nat.ofDigits_cons]
        omega
    rw [hdigits _ fun d hd ↦ Nat.digits_lt_base (by decide) hd, Nat.ofDigits_digits]

/-- A number below a power of ten has as many digits at most. -/
theorem length_decimal_le_iff {n k : ℕ} (hk : 0 < k) : (decimal n).length ≤ k ↔ n < 10 ^ k := by
  unfold decimal
  split_ifs with h
  · rw [h]
    exact iff_of_true hk (Nat.pow_pos (by decide))
  · rw [length_reverse, length_map, Nat.digits_length_le_iff (by decide)]

end ZenohPico.Foundations
