import ZenohPico.Keyexpr.Match

/-!
The functions of key expressions that a session calls on the keys of queries, replies and tokens.

Keys are compared with `strncmp` (`_z_keyexpr_equals`), which takes two keys of one length for the
same where they differ only behind a NUL byte.
-/

namespace ZenohPico.Session

open Keyexpr

/-- `_z_keyexpr_intersects` and `_z_keyexpr_equals` -/
structure KeyexprOps (Key : Type) where
  intersects : Key → Key → Bool
  equals : Key → Key → Bool
  equals_refl : ∀ key, equals key key = true
  equals_symm : ∀ key other, equals key other = true → equals other key = true

/-- A text is the same as itself. -/
theorem sameKeyexpr_refl (key : List UInt8) : sameKeyexpr key key = true := by
  have hcmp : ∀ (n : ℕ) (l : List UInt8), strncmpEq l l n = true := by
    intro n
    induction n with
    | zero => exact fun _ ↦ rfl
    | succ n ih =>
      intro l
      simp [strncmpEq, ih]
  simp [sameKeyexpr, hcmp]

theorem strncmpEq_symm : ∀ (n : ℕ) (l r : List UInt8), strncmpEq l r n = strncmpEq r l n := by
  intro n
  induction n with
  | zero => exact fun _ _ ↦ rfl
  | succ n ih =>
    intro l r
    rw [strncmpEq, strncmpEq, ih l.tail r.tail]
    by_cases heq : l.headD 0 = r.headD 0
    · simp only [heq]
    · simp only [if_pos heq, if_pos (Ne.symm heq)]

theorem sameKeyexpr_symm {key other : List UInt8} (h : sameKeyexpr key other = true) :
    sameKeyexpr other key = true := by
  simp only [sameKeyexpr, Bool.and_eq_true, beq_iff_eq] at h ⊢
  obtain ⟨hlength, hsame⟩ := h
  exact ⟨hlength.symm, by rw [strncmpEq_symm, ← hlength, hsame]⟩

namespace KeyexprOps

/-- The functions on the bytes of key expressions, with the given intersection -/
def bytes (intersects : List UInt8 → List UInt8 → Bool) : KeyexprOps (List UInt8) where
  intersects := intersects
  equals := sameKeyexpr
  equals_refl := sameKeyexpr_refl
  equals_symm := fun _ _ ↦ sameKeyexpr_symm

/-- The functions on keys without wildcards and NUL bytes -/
def exact {Key : Type} [DecidableEq Key] : KeyexprOps Key where
  intersects := (· = ·)
  equals := (· = ·)
  equals_refl := by simp
  equals_symm := by simp [eq_comm]

/-- Different keys among these do not compare equal. -/
def Separates {Key : Type} (ops : KeyexprOps Key) (keys : List Key) : Prop :=
  ∀ key ∈ keys, ∀ other ∈ keys, ops.equals key other = true → key = other

instance {Key : Type} [DecidableEq Key] (ops : KeyexprOps Key) (keys : List Key) :
    Decidable (ops.Separates keys) :=
  inferInstanceAs (Decidable (∀ key ∈ keys, ∀ other ∈ keys, _ → key = other))

end KeyexprOps

end ZenohPico.Session
