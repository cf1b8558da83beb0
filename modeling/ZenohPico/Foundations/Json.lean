import Mathlib.Data.List.Forall2
import ZenohPico.Foundations.Separators
import ZenohPico.Foundations.Decimal

/-!
JSON values and their texts.

A text is a list of bytes, in UTF-8. `Denotes` is the grammar of the texts without insignificant
white space, and says which value a text stands for.
-/

open List

namespace ZenohPico.Foundations

/-- A value. The members of an object keep their order. -/
inductive Json
  | null
  | bool (b : Bool)
  | number (n : ℤ)
  | string (s : List Char)
  | array (items : List Json)
  | object (members : List (List Char × Json))

/-- The characters that have an escape of two bytes, with its second byte -/
def escapes : List (ℕ × UInt8) :=
  [(0x22, 0x22), (0x5c, 0x5c), (0x2f, 0x2f), (0x08, 0x62), (0x0c, 0x66), (0x0a, 0x6e),
    (0x0d, 0x72), (0x09, 0x74)]

/-- The value of a hexadecimal digit -/
def hexValue (b : UInt8) : Option ℕ :=
  if 0x30 ≤ b ∧ b ≤ 0x39 then some (b.toNat - 0x30)
  else if 0x61 ≤ b ∧ b ≤ 0x66 then some (b.toNat - 0x61 + 10)
  else if 0x41 ≤ b ∧ b ≤ 0x46 then some (b.toNat - 0x41 + 10)
  else none

/-- The value of hexadecimal digits -/
def hexNumber (digits : List UInt8) : Option ℕ :=
  digits.foldlM (fun n b ↦ (hexValue b).map (16 * n + ·)) 0

/-- The bytes that stand for a character in a string: itself, or one of its escapes -/
inductive Spells : Char → List UInt8 → Prop
  | plain {c : Char} (hlow : 0x20 ≤ c.toNat) (hquote : c.toNat ≠ 0x22)
      (hbackslash : c.toNat ≠ 0x5c) : Spells c (String.utf8EncodeChar c)
  | escape {c : Char} {b : UInt8} (h : (c.toNat, b) ∈ escapes) : Spells c [0x5c, b]
  | unicode {c : Char} {digits : List UInt8} (hlen : digits.length = 4)
      (hvalue : hexNumber digits = some c.toNat) : Spells c (0x5c :: 0x75 :: digits)

/-- The text of a string -/
def IsString (s : List Char) (text : List UInt8) : Prop :=
  ∃ ts, List.Forall₂ Spells s ts ∧ text = 0x22 :: (ts.flatten ++ [0x22])

/-- The text of an integer: digits without a leading zero, and a sign before them -/
def IsNumber (n : ℤ) (text : List UInt8) : Prop :=
  ∃ digits : List UInt8, (∀ c ∈ digits, IsDigit c) ∧ digits ≠ [] ∧
    (digits.head? = some 0x30 → digits.length = 1) ∧ numberFrom 0 digits = n.natAbs ∧
    text = if n < 0 then 0x2d :: digits else digits

/-- The text of a member of an object -/
def memberText (key value : List UInt8) : List UInt8 := key ++ 0x3a :: value

/-- A text stands for a value. -/
inductive Denotes : Json → List UInt8 → Prop
  | null : Denotes .null [0x6e, 0x75, 0x6c, 0x6c]
  | true : Denotes (.bool true) [0x74, 0x72, 0x75, 0x65]
  | false : Denotes (.bool false) [0x66, 0x61, 0x6c, 0x73, 0x65]
  | number {n : ℤ} {text : List UInt8} (h : IsNumber n text) : Denotes (.number n) text
  | string {s : List Char} {text : List UInt8} (h : IsString s text) : Denotes (.string s) text
  | array {items : List Json} {texts : List (List UInt8)} (h : List.Forall₂ Denotes items texts) :
      Denotes (.array items) (0x5b :: ([0x2c].intercalate texts ++ [0x5d]))
  | object {members : List (List Char × Json)} {keys values : List (List UInt8)}
      (hkeys : List.Forall₂ IsString (members.map Prod.fst) keys)
      (hvalues : List.Forall₂ Denotes (members.map Prod.snd) values) : Denotes (.object members)
        (0x7b :: ([0x2c].intercalate (List.zipWith memberText keys values) ++ [0x7d]))

/-! ### Texts with a comma behind each -/

/-- Texts with a comma behind each of them -/
def commas (texts : List (List UInt8)) : List UInt8 := texts.flatMap (· ++ [0x2c])

theorem commas_append (texts : List (List UInt8)) (text : List UInt8) :
    commas texts ++ text = [0x2c].intercalate (texts ++ [text]) := by
  induction texts with
  | nil => simp [commas]
  | cons first texts ih =>
    have hrest : texts ++ [text] ≠ [] := by simp
    rw [commas, flatMap_cons, ← commas, append_assoc, ih, cons_append,
      intercalate_cons_of_ne_nil hrest, append_assoc]

/-- Behind texts that are separated by commas, one more comma -/
theorem intercalate_append_comma {texts : List (List UInt8)} (h : texts ≠ []) :
    [0x2c].intercalate texts ++ [0x2c] = commas texts := by
  rcases eq_nil_or_concat texts with rfl | ⟨front, last, rfl⟩
  · exact absurd rfl h
  · rw [concat_eq_append, ← commas_append, commas, commas, flatMap_append]
    simp

/-! ### The text of a number -/

/-- A number is written without a leading zero. -/
theorem length_decimal_of_head? {n : ℕ} (h : (decimal n).head? = some 0x30) :
    (decimal n).length = 1 := by
  unfold decimal at h ⊢
  split_ifs at h ⊢ with hn
  · rfl
  · exfalso
    have hlast := Nat.getLast_digit_ne_zero 10 hn
    have hne : Nat.digits 10 n ≠ [] := Nat.digits_ne_nil_iff_ne_zero.mpr hn
    have hlt : (Nat.digits 10 n).getLast hne < 10 :=
      Nat.digits_lt_base (by decide) (getLast_mem hne)
    rw [List.head?_reverse, List.getLast?_map, List.getLast?_eq_some_getLast hne] at h
    have hbyte := congrArg UInt8.toNat (Option.some.inj h)
    rw [UInt8.toNat_ofNat'] at hbyte
    simp only [UInt8.reduceToNat] at hbyte
    omega

theorem isNumber_decimal (n : ℕ) : IsNumber n (decimal n) := by
  refine ⟨decimal n, fun c hc ↦ isDigit_of_mem_decimal hc, decimal_ne_nil n,
    length_decimal_of_head?, ?_, ?_⟩
  · rw [numberFrom_decimal, Int.natAbs_natCast]
  · rw [if_neg (by omega)]

theorem isNumber_neg {n : ℤ} (hn : n < 0) : IsNumber n (0x2d :: decimal n.natAbs) :=
  ⟨decimal n.natAbs, fun _ hc ↦ isDigit_of_mem_decimal hc, decimal_ne_nil _,
    length_decimal_of_head?, numberFrom_decimal _, by rw [if_pos hn]⟩

end ZenohPico.Foundations
