import Mathlib.Data.List.TakeWhile
import Mathlib.Data.Nat.Find
import ZenohPico.Foundations.Decimal

/-!
Decimal numbers with a sign, a fraction and an exponent, as text.

`decimalLength` is the length of the longest number that a text begins with, and zero when it
begins with none.
-/

open List

namespace ZenohPico.Foundations

/-- The text behind its sign, when it begins with one -/
def unsigned : List UInt8 → List UInt8
  | [] => []
  | c :: text => if c = 0x2b ∨ c = 0x2d then text else c :: text

/-- One digit or more -/
def isDigits (text : List UInt8) : Bool := !text.isEmpty && text.all (IsDigit ·)

/-- The exponent of a number, or nothing -/
def isExponent : List UInt8 → Bool
  | [] => true
  | c :: text => (c = 0x65 ∨ c = 0x45) ∧ isDigits (unsigned text)

/-- The text is a number: an optional sign, digits with an optional point in them or beside them,
and an optional exponent. -/
def isDecimal (text : List UInt8) : Bool :=
  let whole := (unsigned text).takeWhile (IsDigit ·)
  let rest := (unsigned text).dropWhile (IsDigit ·)
  if rest.head? = some 0x2e then
    (whole ≠ [] ∨ rest.tail.takeWhile (IsDigit ·) ≠ []) ∧
      isExponent (rest.tail.dropWhile (IsDigit ·))
  else whole ≠ [] ∧ isExponent rest

/-- The bytes of a number other than the point -/
def IsPlain (c : UInt8) : Prop := IsDigit c ∨ c = 0x2b ∨ c = 0x2d ∨ c = 0x65 ∨ c = 0x45

/-- The bytes of a number -/
def IsNumeric (c : UInt8) : Prop := IsPlain c ∨ c = 0x2e

instance (c : UInt8) : Decidable (IsPlain c) := inferInstanceAs (Decidable (_ ∨ _))

instance (c : UInt8) : Decidable (IsNumeric c) := inferInstanceAs (Decidable (_ ∨ _))

/-- The length of the longest number a text begins with -/
def decimalLength (text : List UInt8) : ℕ :=
  Nat.findGreatest (fun n ↦ isDecimal (text.take n) = true) text.length

/-! ### The bytes of a number -/

theorem exists_unsigned (text : List UInt8) :
    ∃ sign, (∀ c ∈ sign, IsPlain c) ∧ text = sign ++ unsigned text := by
  cases text with
  | nil => exact ⟨[], by simp, rfl⟩
  | cons c text =>
    by_cases hc : c = 0x2b ∨ c = 0x2d
    · refine ⟨[c], ?_, by rw [unsigned, if_pos hc]; rfl⟩
      intro d hd
      obtain rfl := mem_singleton.mp hd
      exact .inr (hc.imp_right .inl)
    · exact ⟨[], by simp, by rw [unsigned, if_neg hc]; rfl⟩

variable {text : List UInt8}

theorem isPlain_of_isExponent (h : isExponent text = true) : ∀ c ∈ text, IsPlain c := by
  cases text with
  | nil => simp
  | cons e text =>
    rw [isExponent, decide_eq_true_iff] at h
    obtain ⟨he, hdigits⟩ := h
    rw [isDigits, Bool.and_eq_true, all_eq_true] at hdigits
    obtain ⟨sign, hsign, htext⟩ := exists_unsigned text
    intro c hc
    rw [mem_cons, htext, mem_append] at hc
    rcases hc with rfl | hc | hc
    · exact .inr (.inr (.inr he))
    · exact hsign c hc
    · exact .inl (of_decide_eq_true (hdigits.2 c hc))

theorem isDigit_of_mem_takeWhile {c : UInt8} (hc : c ∈ text.takeWhile (IsDigit ·)) : IsDigit c := by
  have hdigit := mem_takeWhile_imp hc
  exact of_decide_eq_true hdigit

/-- A number has one point at most. -/
theorem exists_of_isDecimal (h : isDecimal text = true) :
    ∃ front back, (∀ c ∈ front, IsPlain c) ∧ (∀ c ∈ back, IsPlain c) ∧
      (text = front ++ back ∨ text = front ++ 0x2e :: back) := by
  obtain ⟨sign, hsign, htext⟩ := exists_unsigned text
  set body := unsigned text with hbody
  have hsplit : body.takeWhile (IsDigit ·) ++ body.dropWhile (IsDigit ·) = body :=
    takeWhile_append_dropWhile
  have hwhole : ∀ c ∈ sign ++ body.takeWhile (IsDigit ·), IsPlain c := by
    intro c hc
    rcases mem_append.mp hc with hc | hc
    · exact hsign c hc
    · exact .inl (isDigit_of_mem_takeWhile hc)
  rw [isDecimal, ← hbody] at h
  set rest := body.dropWhile (IsDigit ·) with hrest
  by_cases hpoint : rest.head? = some 0x2e
  · rw [if_pos hpoint, decide_eq_true_iff] at h
    obtain ⟨tail, htail⟩ : ∃ tail, rest = 0x2e :: tail := by
      cases hr : rest with
      | nil => rw [hr] at hpoint; cases hpoint
      | cons c tail =>
        rw [hr] at hpoint
        exact ⟨tail, by rw [Option.some.inj hpoint]⟩
    rw [htail] at h
    have hfrac : tail.takeWhile (IsDigit ·) ++ tail.dropWhile (IsDigit ·) = tail :=
      takeWhile_append_dropWhile
    refine ⟨_, tail, hwhole, ?_, .inr ?_⟩
    · intro c hc
      rw [← hfrac, mem_append] at hc
      rcases hc with hc | hc
      · exact .inl (isDigit_of_mem_takeWhile hc)
      · exact isPlain_of_isExponent h.2 c hc
    · rw [append_assoc, ← htail, hsplit]
      exact htext
  · rw [if_neg hpoint, decide_eq_true_iff] at h
    refine ⟨_, rest, hwhole, isPlain_of_isExponent h.2, .inl ?_⟩
    rw [append_assoc, hsplit]
    exact htext

theorem isNumeric_of_isDecimal (h : isDecimal text = true) : ∀ c ∈ text, IsNumeric c := by
  obtain ⟨front, back, hfront, hback, rfl | rfl⟩ := exists_of_isDecimal h
  · intro c hc
    rcases mem_append.mp hc with hc | hc
    · exact .inl (hfront c hc)
    · exact .inl (hback c hc)
  · intro c hc
    rw [mem_append, mem_cons] at hc
    rcases hc with hc | rfl | hc
    · exact .inl (hfront c hc)
    · exact .inr rfl
    · exact .inl (hback c hc)

theorem not_isPlain_point : ¬ IsPlain 0x2e := by decide

theorem count_point_of_isPlain (h : ∀ c ∈ text, IsPlain c) : text.count 0x2e = 0 :=
  count_eq_zero.mpr fun hmem ↦ not_isPlain_point (h _ hmem)

theorem count_point_le_one (h : isDecimal text = true) : text.count 0x2e ≤ 1 := by
  obtain ⟨front, back, hfront, hback, rfl | rfl⟩ := exists_of_isDecimal h
  · rw [count_append, count_point_of_isPlain hfront, count_point_of_isPlain hback]
    exact Nat.zero_le _
  · rw [count_append, count_cons_self, count_point_of_isPlain hfront, count_point_of_isPlain hback]

/-! ### The longest number -/

theorem decimalLength_le (text : List UInt8) : decimalLength text ≤ text.length :=
  Nat.findGreatest_le _

theorem decimalLength_of_isDecimal (h : isDecimal text = true) : decimalLength text = text.length :=
  Nat.findGreatest_eq (by rwa [take_length])

/-- A number ends before a byte that no number has. -/
theorem decimalLength_append {c : UInt8} (hc : ¬ IsNumeric c) (rest : List UInt8) :
    decimalLength (text ++ c :: rest) = decimalLength text := by
  rw [decimalLength, Nat.findGreatest_eq_iff]
  have hle := decimalLength_le text
  refine ⟨?_, ?_, ?_⟩
  · rw [length_append]
    omega
  · intro hne
    rw [take_append_of_le_length hle]
    exact Nat.findGreatest_of_ne_zero rfl hne
  · intro n hlt hn hdecimal
    rcases le_or_gt n text.length with hshort | hlong
    · rw [take_append_of_le_length hshort] at hdecimal
      exact Nat.findGreatest_is_greatest hlt hshort hdecimal
    · refine hc (isNumeric_of_isDecimal hdecimal c ?_)
      rw [take_append, mem_append]
      obtain ⟨k, hk⟩ : ∃ k, n - text.length = k + 1 := ⟨n - text.length - 1, by omega⟩
      rw [hk, take_succ_cons]
      exact .inr mem_cons_self

end ZenohPico.Foundations
