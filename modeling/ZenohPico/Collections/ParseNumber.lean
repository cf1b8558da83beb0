import ZenohPico.Collections.SplitString

/-!
Numbers read from text (`src/utils/string.c`).

Both parsers build the number digit by digit and look, before each multiplication, whether the
next digit still fits. The loop invariant is that the machine word is the number that the digits
read so far stand for, so no step wraps.
-/

namespace ZenohPico.Collections

open Foundations List Option

theorem numberFrom_concat (value : ℕ) (text : List UInt8) (c : UInt8) :
    numberFrom value (text ++ [c]) = numberFrom value text * 10 + (c.toNat - 0x30) := by
  rw [numberFrom, foldl_append, ← numberFrom]
  rfl

/-! ### Unsigned numbers -/

variable {out value maxValue : UInt32} {c : UInt8} {isNegative : Bool}

/-- What is not a digit ends the loop. -/
theorem isDigit_of_strSeAtouiFrom {str : List UInt8} :
    ∀ {value : UInt32}, strSeAtouiFrom value str = some out → ∀ c ∈ str, IsDigit c := by
  induction str with
  | nil => exact fun _ _ hc ↦ absurd hc not_mem_nil
  | cons c str ih =>
    intro value h
    rw [strSeAtouiFrom] at h
    split at h
    · cases h
    · next hdigit =>
      dsimp only at h
      split at h
      · cases h
      · intro d hd
        obtain rfl | hd := mem_cons.mp hd
        · exact not_not.mp (mt (not_digit_iff d).mpr hdigit)
        · exact ih h d hd

theorem strSeAtouiFrom_eq_some_iff {str : List UInt8} {value out : UInt32} :
    strSeAtouiFrom value str = some out ↔ (∀ c ∈ str, IsDigit c) ∧
      numberFrom value.toNat str < 2 ^ 32 ∧ out.toNat = numberFrom value.toNat str := by
  constructor
  · intro h
    have hdigits := isDigit_of_strSeAtouiFrom h
    rw [strSeAtouiFrom_of_digits hdigits] at h
    split at h
    · next hfits =>
      obtain rfl := some.inj h
      exact ⟨hdigits, hfits, UInt32.toNat_ofNat_of_lt' hfits⟩
    · cases h
  · rintro ⟨hdigits, hfits, hout⟩
    rw [strSeAtouiFrom_of_digits hdigits, if_pos hfits, ← hout, UInt32.ofNat_toNat]

theorem strSeAtoui_eq_some_iff {str : List UInt8} :
    strSeAtoui str = some out ↔ 1 ≤ str.length ∧ str.length ≤ 10 ∧ (∀ c ∈ str, IsDigit c) ∧
      numberFrom 0 str ≤ 2 ^ 32 - 1 ∧ out.toNat = numberFrom 0 str := by
  have hloop := @strSeAtouiFrom_eq_some_iff str 0 out
  rw [UInt32.toNat_zero] at hloop
  rw [strSeAtoui]
  split
  · next hlen =>
    exact iff_of_false (fun h ↦ by cases h) fun h ↦ by omega
  · next hlen =>
    rw [hloop]
    constructor
    · rintro ⟨hdigits, hfits, hout⟩
      exact ⟨by omega, by omega, hdigits, by omega, hout⟩
    · rintro ⟨-, -, hdigits, hfits, hout⟩
      exact ⟨hdigits, by omega, hout⟩

/-- Every round of the loop adds its digit to the number without a wrap. -/
theorem strSeAtouiFrom_round {front : List UInt8} {next : UInt32}
    (hvalue : strSeAtouiFrom 0 front = some value)
    (hnext : strSeAtouiFrom 0 (front ++ [c]) = some next) :
    next.toNat = value.toNat * 10 + (c.toNat - 0x30) := by
  obtain ⟨-, -, hvalue⟩ := strSeAtouiFrom_eq_some_iff.mp hvalue
  obtain ⟨-, -, hnext⟩ := strSeAtouiFrom_eq_some_iff.mp hnext
  rw [hnext, numberFrom_concat, hvalue]

/-! ### Signed numbers -/

/-- The loop of `_z_str_parse_i32` -/
def strParseI32From (maxValue value : UInt32) : List UInt8 → Option UInt32
  | [] => some value
  | c :: s =>
    if c < 0x30 ∨ 0x39 < c then none
    else
      let digit := (c - 0x30).toUInt32
      if (maxValue - digit) / 10 < value then none
      else strParseI32From maxValue (value * 10 + digit) s

/-- `limit`, one more than `INT32_MAX` -/
def i32Limit : UInt32 := 0x7FFFFFFF + 1

/-- The larger of the two values that the digits may stand for -/
def i32MaxValue (isNegative : Bool) : UInt32 := if isNegative then i32Limit else 0x7FFFFFFF

/-- `_z_str_parse_i32`; `none` is the null pointer. -/
def strParseI32 : Option (List UInt8) → Option Int32
  | none => none
  | some s =>
    if s = [] then none
    else
      let isNegative := s.head? == some 0x2D
      let s := if s.head? = some 0x2D ∨ s.head? = some 0x2B then s.tail else s
      if s = [] then none
      else
        (strParseI32From (i32MaxValue isNegative) 0 s).map fun value ↦
          if isNegative then if value = i32Limit then Int32.minValue else -value.toInt32
          else value.toInt32

variable {s : List UInt8}

theorem isDigit_of_strParseI32From :
    ∀ {value : UInt32}, strParseI32From maxValue value s = some out → ∀ c ∈ s, IsDigit c := by
  induction s with
  | nil => exact fun _ _ hc ↦ absurd hc not_mem_nil
  | cons c s ih =>
    intro value h
    rw [strParseI32From] at h
    split at h
    · cases h
    · next hdigit =>
      dsimp only at h
      split at h
      · cases h
      · intro d hd
        obtain rfl | hd := mem_cons.mp hd
        · exact not_not.mp (mt (not_digit_iff d).mpr hdigit)
        · exact ih h d hd

/-- The test before each multiplication is exact: it fails where the next value is too large. -/
theorem i32_overflow_iff (hmax : 9 ≤ maxValue.toNat) (hc : IsDigit c) :
    (maxValue - (c - 0x30).toUInt32) / 10 < value ↔
      maxValue.toNat < value.toNat * 10 + (c.toNat - 0x30) := by
  obtain ⟨hdigit, hsmall⟩ := toNat_sub_of_isDigit hc
  have hle : (c - 0x30).toUInt32 ≤ maxValue := by
    rw [UInt32.le_iff_toNat_le, hdigit]
    omega
  rw [UInt32.lt_iff_toNat_lt, UInt32.toNat_div, UInt32.toNat_sub_of_le _ _ hle, hdigit]
  simp only [UInt32.reduceToNat]
  omega

/-- Digits are read if and only if the number is no larger than the limit. -/
theorem strParseI32From_of_digits (hmax : 9 ≤ maxValue.toNat) (hdigits : ∀ c ∈ s, IsDigit c) :
    ∀ {value : UInt32}, value ≤ maxValue → strParseI32From maxValue value s =
      if numberFrom value.toNat s ≤ maxValue.toNat then some (.ofNat (numberFrom value.toNat s))
      else none := by
  induction s with
  | nil =>
    intro value hvalue
    rw [strParseI32From, numberFrom_nil, if_pos (UInt32.le_iff_toNat_le.mp hvalue),
      UInt32.ofNat_toNat]
  | cons c s ih =>
    intro value hvalue
    have hc := hdigits c mem_cons_self
    obtain ⟨hdigit, hsmall⟩ := toNat_sub_of_isDigit hc
    have hmaxlt := maxValue.toNat_lt
    rw [strParseI32From, if_neg (not_not_intro hc ∘ (not_digit_iff c).mp), numberFrom_cons]
    dsimp only
    by_cases hlarge : maxValue.toNat < value.toNat * 10 + (c.toNat - 0x30)
    · have hmore := le_numberFrom (value.toNat * 10 + (c.toNat - 0x30)) s
      rw [if_pos ((i32_overflow_iff hmax hc).mpr hlarge), if_neg (by omega)]
    · have hnext := toNat_next_digit value hc (by omega)
      have hle : value * 10 + (c - 0x30).toUInt32 ≤ maxValue := by
        rw [UInt32.le_iff_toNat_le, hnext]
        omega
      rw [if_neg (mt (i32_overflow_iff hmax hc).mp hlarge),
        ih (fun d hd ↦ hdigits d (mem_cons_of_mem _ hd)) hle, hnext]

theorem strParseI32From_eq_some_iff (hmax : 9 ≤ maxValue.toNat) :
    strParseI32From maxValue 0 s = some out ↔
      (∀ c ∈ s, IsDigit c) ∧ numberFrom 0 s ≤ maxValue.toNat ∧ out.toNat = numberFrom 0 s := by
  have hzero : (0 : UInt32) ≤ maxValue := UInt32.le_iff_toNat_le.mpr (Nat.zero_le _)
  have hmaxlt := maxValue.toNat_lt
  constructor
  · intro h
    have hdigits := isDigit_of_strParseI32From h
    rw [strParseI32From_of_digits hmax hdigits hzero, UInt32.toNat_zero] at h
    split at h
    · next hfits =>
      obtain rfl := some.inj h
      exact ⟨hdigits, hfits, UInt32.toNat_ofNat_of_lt' (by simpa using hfits.trans_lt hmaxlt)⟩
    · cases h
  · rintro ⟨hdigits, hfits, hout⟩
    rw [strParseI32From_of_digits hmax hdigits hzero, UInt32.toNat_zero, if_pos hfits, ← hout,
      UInt32.ofNat_toNat]

theorem toNat_i32MaxValue (isNegative : Bool) :
    (i32MaxValue isNegative).toNat = 2 ^ 31 - 1 + isNegative.toNat := by
  cases isNegative <;> decide

theorem nine_le_i32MaxValue (isNegative : Bool) : 9 ≤ (i32MaxValue isNegative).toNat := by
  rw [toNat_i32MaxValue]
  omega

/-- The subtraction in the test does not wrap either. -/
theorem toNat_i32MaxValue_sub (isNegative : Bool) (hc : IsDigit c) :
    (i32MaxValue isNegative - (c - 0x30).toUInt32).toNat =
      (i32MaxValue isNegative).toNat - (c.toNat - 0x30) := by
  obtain ⟨hdigit, hsmall⟩ := toNat_sub_of_isDigit hc
  have hmax := nine_le_i32MaxValue isNegative
  rw [UInt32.toNat_sub_of_le, hdigit]
  rw [UInt32.le_iff_toNat_le, hdigit]
  omega

/-- Every round of the loop adds its digit to the number without a wrap. -/
theorem strParseI32From_round {front : List UInt8} {next : UInt32}
    (hvalue : strParseI32From (i32MaxValue isNegative) 0 front = some value)
    (hnext : strParseI32From (i32MaxValue isNegative) 0 (front ++ [c]) = some next) :
    next.toNat = value.toNat * 10 + (c.toNat - 0x30) := by
  have hmax := nine_le_i32MaxValue isNegative
  obtain ⟨-, -, hvalue⟩ := (strParseI32From_eq_some_iff hmax).mp hvalue
  obtain ⟨-, -, hnext⟩ := (strParseI32From_eq_some_iff hmax).mp hnext
  rw [hnext, numberFrom_concat, hvalue]

/-- A text of digits, with or without a sign in front, and the number it stands for -/
def SignedText (s : List UInt8) (value : ℤ) : Prop :=
  ∃ digits, digits ≠ [] ∧ (∀ c ∈ digits, IsDigit c) ∧
    (((s = digits ∨ s = 0x2B :: digits) ∧ value = numberFrom 0 digits) ∨
      (s = 0x2D :: digits ∧ value = -numberFrom 0 digits))

/-- The number behind the digits as `_z_str_parse_i32` returns it -/
theorem toInt_i32 (hle : value.toNat ≤ (i32MaxValue isNegative).toNat) :
    (if isNegative then if value = i32Limit then Int32.minValue else -value.toInt32
      else value.toInt32).toInt = if isNegative then -(value.toNat : ℤ) else value.toNat := by
  rw [toNat_i32MaxValue] at hle
  have hcast (hsmall : value.toNat < 2 ^ 31) : value.toInt32.toInt = value.toNat := by
    have htoInt : value.toInt32.toInt = (value.toNat : ℤ).bmod (2 ^ 32) :=
      BitVec.toInt_eq_toNat_bmod _
    rw [htoInt, Int.bmod_eq_of_le (by omega) (by omega)]
  cases isNegative with
  | false =>
    rw [if_neg Bool.false_ne_true, if_neg Bool.false_ne_true]
    exact hcast (by simpa using hle.trans_lt (by decide : 2 ^ 31 - 1 + 0 < 2 ^ 31))
  | true =>
    rw [if_pos rfl, if_pos rfl]
    have hlimit : i32Limit.toNat = 2 ^ 31 := by decide
    by_cases heq : value = i32Limit
    · rw [if_pos heq, heq, hlimit]
      decide
    · have hne : value.toNat ≠ 2 ^ 31 := fun h ↦ heq (UInt32.toNat_inj.mp (h.trans hlimit.symm))
      have hsmall : value.toNat < 2 ^ 31 := by
        simp only [Bool.toNat_true] at hle
        omega
      rw [if_neg heq, Int32.toInt_neg, hcast hsmall, Int.bmod_eq_of_le (by omega) (by omega)]

/-- Behind the sign, the digits decide. -/
theorem strParseI32_digits (isNegative : Bool) (digits : List UInt8) (out : Int32) :
    ((strParseI32From (i32MaxValue isNegative) 0 digits).map fun value ↦
      if isNegative then if value = i32Limit then Int32.minValue else -value.toInt32
      else value.toInt32) = some out ↔ (∀ c ∈ digits, IsDigit c) ∧
        out.toInt = if isNegative then -(numberFrom 0 digits : ℤ) else numberFrom 0 digits := by
  have hmax := nine_le_i32MaxValue isNegative
  rw [map_eq_some_iff]
  constructor
  · rintro ⟨value, hvalue, rfl⟩
    obtain ⟨hdigits, hfits, hnumber⟩ := (strParseI32From_eq_some_iff hmax).mp hvalue
    refine ⟨hdigits, ?_⟩
    rw [toInt_i32 (hnumber ▸ hfits), hnumber]
  · rintro ⟨hdigits, hout⟩
    have hlow := out.le_toInt
    have hhigh := out.toInt_lt
    have hfits : numberFrom 0 digits ≤ (i32MaxValue isNegative).toNat := by
      rw [toNat_i32MaxValue]
      cases isNegative with
      | false =>
        rw [if_neg Bool.false_ne_true] at hout
        simp only [Bool.toNat_false]
        omega
      | true =>
        rw [if_pos rfl] at hout
        simp only [Bool.toNat_true]
        omega
    have hlt : numberFrom 0 digits < 2 ^ 32 :=
      hfits.trans_lt (i32MaxValue isNegative).toNat_lt
    have hvalue : (UInt32.ofNat (numberFrom 0 digits)).toNat = numberFrom 0 digits :=
      UInt32.toNat_ofNat_of_lt' hlt
    refine ⟨.ofNat (numberFrom 0 digits),
      (strParseI32From_eq_some_iff hmax).mpr ⟨hdigits, hfits, hvalue⟩, Int32.toInt_inj.mp ?_⟩
    rw [toInt_i32 (hvalue.symm ▸ hfits), hvalue, hout]

theorem signedText_of_sign {digits : List UInt8} {value : ℤ}
    (hvalue : value = if isNegative then -(numberFrom 0 digits : ℤ) else numberFrom 0 digits)
    (hs : s = (if isNegative then 0x2D else 0x2B) :: digits) :
    ((s = digits ∨ s = 0x2B :: digits) ∧ value = numberFrom 0 digits) ∨
      (s = 0x2D :: digits ∧ value = -numberFrom 0 digits) := by
  cases isNegative with
  | false => exact .inl ⟨.inr hs, hvalue⟩
  | true => exact .inr ⟨hs, hvalue⟩

/-- Text without a sign is read digit by digit from its start. -/
theorem strParseI32_unsigned {out : Int32} (hminus : c ≠ 0x2D) (hplus : c ≠ 0x2B) :
    strParseI32 (some (c :: s)) = some out ↔
      (∀ d ∈ c :: s, IsDigit d) ∧ out.toInt = numberFrom 0 (c :: s) := by
  have hsign : ¬ ((c :: s).head? = some 0x2D ∨ (c :: s).head? = some 0x2B) := by
    simp [hminus, hplus]
  have hnegative : ((c :: s).head? == some 0x2D) = false := by simpa using hminus
  rw [strParseI32, if_neg (cons_ne_nil c s)]
  dsimp only
  rw [if_neg hsign, if_neg (cons_ne_nil c s), hnegative]
  exact strParseI32_digits false (c :: s) out

/-- Behind a sign the digits are read. -/
theorem strParseI32_signed (isNegative : Bool) {out : Int32} :
    strParseI32 (some ((if isNegative then 0x2D else 0x2B) :: s)) = some out ↔
      s ≠ [] ∧ (∀ d ∈ s, IsDigit d) ∧
        out.toInt = if isNegative then -(numberFrom 0 s : ℤ) else numberFrom 0 s := by
  have hsign : ((if isNegative then 0x2D else 0x2B : UInt8) :: s).head? = some 0x2D ∨
      ((if isNegative then 0x2D else 0x2B : UInt8) :: s).head? = some 0x2B := by
    cases isNegative <;> simp
  have hnegative : (((if isNegative then 0x2D else 0x2B : UInt8) :: s).head? == some 0x2D) =
      isNegative := by
    cases isNegative <;> simp
  rw [strParseI32, if_neg (cons_ne_nil _ s)]
  dsimp only
  rw [if_pos hsign, tail_cons, hnegative]
  by_cases hs : s = []
  · rw [if_pos hs]
    exact iff_of_false (fun h ↦ by cases h) fun h ↦ h.1 hs
  · rw [if_neg hs, strParseI32_digits isNegative s out]
    exact ⟨fun h ↦ ⟨hs, h⟩, fun h ↦ h.2⟩

theorem strParseI32_eq_some_iff {out : Int32} :
    strParseI32 (some s) = some out ↔ SignedText s out.toInt := by
  constructor
  · intro h
    cases s with
    | nil => cases h
    | cons c s =>
      by_cases hsign : c = 0x2D ∨ c = 0x2B
      · obtain ⟨isNegative, rfl⟩ : ∃ b : Bool, c = if b then 0x2D else 0x2B :=
          hsign.elim (fun hc ↦ ⟨true, hc⟩) fun hc ↦ ⟨false, hc⟩
        obtain ⟨hne, hdigits, hout⟩ := (strParseI32_signed isNegative).mp h
        exact ⟨s, hne, hdigits, signedText_of_sign hout rfl⟩
      · obtain ⟨hdigits, hout⟩ := (strParseI32_unsigned (fun hc ↦ hsign (.inl hc))
          fun hc ↦ hsign (.inr hc)).mp h
        exact ⟨c :: s, cons_ne_nil c s, hdigits, .inl ⟨.inl rfl, hout⟩⟩
  · rintro ⟨digits, hne, hdigits, (⟨rfl | rfl, hout⟩ | ⟨rfl, hout⟩)⟩
    · obtain ⟨c, s, rfl⟩ := exists_cons_of_ne_nil hne
      have hc := hdigits c mem_cons_self
      refine (strParseI32_unsigned ?_ ?_).mpr ⟨hdigits, hout⟩
      · rintro rfl
        exact absurd hc (by decide)
      · rintro rfl
        exact absurd hc (by decide)
    · exact (strParseI32_signed false).mpr ⟨hne, hdigits, hout⟩
    · exact (strParseI32_signed true).mpr ⟨hne, hdigits, hout⟩

/-- The two parsers accept exactly the numbers that fit, and no step of them wraps. -/
theorem number_parsing (str : List UInt8) :
    (∀ out, strSeAtoui str = some out ↔ 1 ≤ str.length ∧ str.length ≤ 10 ∧
        (∀ c ∈ str, IsDigit c) ∧ numberFrom 0 str ≤ 2 ^ 32 - 1 ∧ out.toNat = numberFrom 0 str) ∧
      (∀ out, strParseI32 (some str) = some out ↔
        ∃ value, SignedText str value ∧ -2 ^ 31 ≤ value ∧ value ≤ 2 ^ 31 - 1 ∧ out.toInt = value) ∧
      strParseI32 none = none ∧ (∀ front c value next, strSeAtouiFrom 0 front = some value →
        strSeAtouiFrom 0 (front ++ [c]) = some next →
        next.toNat = value.toNat * 10 + (c.toNat - 0x30)) ∧ ∀ isNegative c, IsDigit c →
        (i32MaxValue isNegative - (c - 0x30).toUInt32).toNat =
          (i32MaxValue isNegative).toNat - (c.toNat - 0x30) ∧
        ∀ front value next, strParseI32From (i32MaxValue isNegative) 0 front = some value →
          strParseI32From (i32MaxValue isNegative) 0 (front ++ [c]) = some next →
          next.toNat = value.toNat * 10 + (c.toNat - 0x30) := by
  refine ⟨fun out ↦ strSeAtoui_eq_some_iff, fun out ↦ ?_, rfl,
    fun front c value next ↦ strSeAtouiFrom_round, fun isNegative c hc ↦
      ⟨toNat_i32MaxValue_sub isNegative hc, fun front value next ↦ strParseI32From_round⟩⟩
  have hlow := out.le_toInt
  have hhigh := out.toInt_lt
  rw [strParseI32_eq_some_iff]
  exact ⟨fun h ↦ ⟨out.toInt, h, hlow, by omega, rfl⟩, fun ⟨_, h, _, _, hout⟩ ↦ hout ▸ h⟩

end ZenohPico.Collections
