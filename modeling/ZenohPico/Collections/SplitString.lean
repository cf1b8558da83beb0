import ZenohPico.Foundations.Decimal
import ZenohPico.Foundations.Separators

/-!
Splitting a string at a delimiter, from its start and from its end, and reading a number
(`src/utils/string.c`).

A string is there or not, as the source's null pointers. What is left of a string behind its last
token is not there, and an empty string has one empty token.
-/

namespace ZenohPico.Collections

open Foundations List

/-! ### Tokens -/

/-- `_z_strstr` -/
def strstr (haystack needle : List UInt8) : Option ℕ := firstPlace needle haystack

/-- `_z_rstrstr`: the end of the needle that is found first, from the end of the haystack and of the
needle backwards -/
def rstrstr (haystack needle : List UInt8) : Option ℕ :=
  (firstPlace needle.reverse haystack.reverse).map (haystack.length - ·)

/-- `_z_splitstr_next`: the token and what is left -/
def splitstrNext (delimiter : List UInt8) :
    Option (List UInt8) → Option (List UInt8) × Option (List UInt8)
  | none => (none, none)
  | some s =>
    let stop := (strstr s delimiter).getD s.length
    (some (s.take stop), if stop = s.length then none else some (s.drop (stop + delimiter.length)))

/-- `_z_splitstr_nextback`: the token and what is left -/
def splitstrNextback (delimiter : List UInt8) :
    Option (List UInt8) → Option (List UInt8) × Option (List UInt8)
  | none => (none, none)
  | some s =>
    let start := (rstrstr s delimiter).getD 0
    (some (s.drop start), if start = 0 then none else some (s.take (start - delimiter.length)))

section Tokens

variable {sep : UInt8} {parts : List (List UInt8)}

theorem splitstrNext_of_not_mem {s : List UInt8} (h : sep ∉ s) (word : List UInt8) :
    splitstrNext (sep :: word) (some s) = (some s, none) := by
  rw [splitstrNext, strstr, firstPlace_of_not_mem h]
  simp

theorem splitstrNext_append {front : List UInt8} (h : sep ∉ front) (word rest : List UInt8) :
    splitstrNext (sep :: word) (some (front ++ (sep :: word ++ rest))) =
      (some front, some rest) := by
  rw [splitstrNext, strstr, firstPlace_append h]
  simp [drop_append]

/-- From the start, the parts of a string are its tokens one by one. -/
theorem splitstrNext_joined (hfree : ∀ part ∈ parts, sep ∉ part) :
    splitstrNext [sep] (joined sep parts) = (parts.head?, joined sep parts.tail) := by
  cases parts with
  | nil => rfl
  | cons part parts =>
    have hpart := hfree part mem_cons_self
    cases parts with
    | nil =>
      have hjoin : joined sep [part] = some part := by simp [joined]
      rw [hjoin, splitstrNext_of_not_mem hpart]
      rfl
    | cons next parts =>
      rw [joined, intercalate_cons_cons, append_assoc, splitstrNext_append hpart]
      rfl

/-- From the end, the parts of a string are its tokens one by one. -/
theorem splitstrNextback_joined (hfree : ∀ part ∈ parts, sep ∉ part) :
    splitstrNextback [sep] (joined sep parts) = (parts.getLast?, joined sep parts.dropLast) := by
  rcases eq_nil_or_concat parts with rfl | ⟨front, last, rfl⟩
  · rfl
  · rw [concat_eq_append] at hfree ⊢
    have hlast : sep ∉ last.reverse := by
      rw [mem_reverse]
      exact hfree last (mem_append_right _ (mem_singleton_self last))
    rw [List.getLast?_concat, dropLast_concat]
    by_cases hfront : front = []
    · have hjoin : joined sep [last] = some last := by simp [joined]
      rw [hfront, nil_append, hjoin, splitstrNextback, rstrstr, reverse_singleton,
        firstPlace_of_not_mem hlast]
      simp [joined]
    · have hplace : rstrstr ([sep].intercalate front ++ sep :: last) [sep] =
          some (([sep].intercalate front).length + 1) := by
        rw [rstrstr, reverse_singleton, reverse_append, reverse_cons,
          append_assoc, firstPlace_append hlast, Option.map_some, length_append,
          length_cons, length_reverse]
        congr 1
        omega
      rw [joined_of_ne_nil (by simp), joined_of_ne_nil hfront, intercalate_concat hfront,
        splitstrNextback, hplace]
      simp [drop_append]

end Tokens

/-! ### Numbers -/

/-- The loop of `_z_str_se_atoui` -/
def strSeAtouiFrom (value : UInt32) : List UInt8 → Option UInt32
  | [] => some value
  | c :: str =>
    if c < 0x30 ∨ 0x39 < c then none
    else
      let digit := (c - 0x30).toUInt32
      if 429496729 < value ∨ (value = 429496729 ∧ 5 < digit) then none
      else strSeAtouiFrom (value * 10 + digit) str

/-- `_z_str_se_atoui` -/
def strSeAtoui (str : List UInt8) : Option UInt32 :=
  if str.length = 0 ∨ 10 < str.length then none else strSeAtouiFrom 0 str

/-- The test for a digit in both loops. -/
theorem not_digit_iff (c : UInt8) : (c < 0x30 ∨ 0x39 < c) ↔ ¬ IsDigit c := by
  rw [IsDigit, not_and_or, UInt8.not_le, UInt8.not_le]

theorem toNat_sub_of_isDigit {c : UInt8} (h : IsDigit c) :
    (c - 0x30).toUInt32.toNat = c.toNat - 0x30 ∧ c.toNat - 0x30 ≤ 9 := by
  have hhigh := UInt8.le_iff_toNat_le.mp h.2
  refine ⟨?_, ?_⟩
  · rw [UInt8.toNat_toUInt32, UInt8.toNat_sub_of_le _ _ h.1]
    rfl
  · simp only [UInt8.reduceToNat] at hhigh
    omega

/-- What is read with one more digit does not wrap where it fits. -/
theorem toNat_next_digit (value : UInt32) {c : UInt8} (hc : IsDigit c)
    (hfits : value.toNat * 10 + (c.toNat - 0x30) < 2 ^ 32) :
    (value * 10 + (c - 0x30).toUInt32).toNat = value.toNat * 10 + (c.toNat - 0x30) := by
  rw [UInt32.toNat_add, UInt32.toNat_mul, (toNat_sub_of_isDigit hc).1]
  simp only [UInt32.reduceToNat]
  omega

/-- Digits are read if and only if the number fits. -/
theorem strSeAtouiFrom_of_digits {str : List UInt8} (hdigits : ∀ c ∈ str, IsDigit c)
    (value : UInt32) : strSeAtouiFrom value str =
      if numberFrom value.toNat str < 2 ^ 32 then some (.ofNat (numberFrom value.toNat str))
      else none := by
  induction str generalizing value with
  | nil =>
    rw [strSeAtouiFrom, numberFrom_nil, if_pos value.toNat_lt, UInt32.ofNat_toNat]
  | cons c str ih =>
    have hc := hdigits c mem_cons_self
    obtain ⟨hdigit, hsmall⟩ := toNat_sub_of_isDigit hc
    have hfits : (429496729 < value ∨ (value = 429496729 ∧ 5 < (c - 0x30).toUInt32)) ↔
        2 ^ 32 ≤ value.toNat * 10 + (c.toNat - 0x30) := by
      rw [UInt32.lt_iff_toNat_lt, UInt32.lt_iff_toNat_lt, ← UInt32.toNat_inj, hdigit]
      simp only [UInt32.reduceToNat]
      omega
    rw [strSeAtouiFrom, if_neg (not_not_intro hc ∘ (not_digit_iff c).mp), numberFrom_cons]
    dsimp only
    by_cases hlarge : 2 ^ 32 ≤ value.toNat * 10 + (c.toNat - 0x30)
    · have hmore := le_numberFrom (value.toNat * 10 + (c.toNat - 0x30)) str
      rw [if_pos (hfits.mpr hlarge), if_neg (by omega)]
    · have hnext := toNat_next_digit value hc (by omega)
      rw [if_neg (mt hfits.mp hlarge), ih fun c hc ↦ hdigits c (mem_cons_of_mem _ hc), hnext]

/-- The text of a number is read back if and only if the number has 32 bits. -/
theorem strSeAtoui_decimal (n : ℕ) :
    strSeAtoui (decimal n) = if n < 2 ^ 32 then some (.ofNat n) else none := by
  have hread := strSeAtouiFrom_of_digits (fun c hc ↦ isDigit_of_mem_decimal (n := n) hc) 0
  have hvalue : numberFrom (0 : UInt32).toNat (decimal n) = n := numberFrom_decimal n
  have hpos := length_pos_iff.mpr (decimal_ne_nil n)
  have hlen := length_decimal_le_iff (n := n) (k := 10) (by decide)
  rw [hvalue] at hread
  rw [strSeAtoui, hread]
  split_ifs <;> first | rfl | omega

end ZenohPico.Collections
