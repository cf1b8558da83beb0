import ZenohPico.Collections.SplitString
import ZenohPico.Foundations.DecimalText

/-!
Parsing a time range (`src/utils/time_range.c`).

A string is given by the bytes in memory from its first one up to the terminator, with a length:
the source passes pointers into one text and reads beyond the end of a part. The floating-point
numbers are a parameter.
-/

namespace ZenohPico.Collections

open Foundations

/-- The units of a duration -/
inductive TimeUnit
  | none
  | u
  | ms
  | s
  | m
  | h
  | d
  | w
deriving DecidableEq, Repr

/-- The text of a unit -/
def TimeUnit.text : TimeUnit → List UInt8
  | .none => []
  | .u => [0x75]
  | .ms => [0x6d, 0x73]
  | .s => [0x73]
  | .m => [0x6d]
  | .h => [0x68]
  | .d => [0x64]
  | .w => [0x77]

/-- The floating-point numbers: what a decimal number is read as, and the operations on them that
the parser uses. A zero is no infinity, whatever unit it is in. -/
structure Doubles where
  Double : Type
  zero : Double
  ofDecimal : List UInt8 → Double
  isZero : Double → Bool
  isInf : Double → Bool
  mul : Double → Double → Double
  add : Double → Double → Double
  toSecs : TimeUnit → Double
  isZero_zero : isZero zero = true
  isInf_mul : ∀ x y, isZero x = true → isInf (mul x y) = false

/-- `_z_time_bound_t` -/
inductive TimeBound (δ : Type)
  | inclusive (nowOffset : δ)
  | exclusive (nowOffset : δ)
  | unbounded
deriving DecidableEq

/-- `_z_time_range_t` -/
structure TimeRange (δ : Type) where
  start : TimeBound δ
  stop : TimeBound δ
deriving DecidableEq

variable (D : Doubles)

/-- `strtod`: the value of the longest number the text begins with, and where the text goes on. A
text that begins with no number gives zero at its start. -/
def strtod (text : List UInt8) : D.Double × ℕ :=
  if decimalLength text = 0 then (D.zero, 0)
  else (D.ofDecimal (text.take (decimalLength text)), decimalLength text)

/-- The unit that a duration ends with, by its last byte -/
def unitOf (text : List UInt8) : TimeUnit :=
  if text.getLast? = some 0x75 then .u
  else if text.getLast? = some 0x73 then
    if 1 < text.length ∧ text[text.length - 2]? = some 0x6d then .ms else .s
  else if text.getLast? = some 0x6d then .m
  else if text.getLast? = some 0x68 then .h
  else if text.getLast? = some 0x64 then .d
  else if text.getLast? = some 0x77 then .w
  else .none

/-- `_z_time_range_parse_duration`. The copy of the part before the unit is not read: the number is
parsed from the text in memory. -/
def parseDuration (mem : List UInt8) (len : ℕ) : Option D.Double :=
  if len = 0 then none
  else
    let unit := unitOf (mem.take len)
    if len - unit.text.length = 0 then none
    else
      let (value, err) := strtod D mem
      if D.isZero value = true ∧ mem.getD err 0 ≠ 0 then none
      else if D.isInf (D.mul value (D.toSecs unit)) = true then none
      else some (D.mul value (D.toSecs unit))

/-- `_z_time_range_parse_time_bound` -/
def parseTimeBound (mem : List UInt8) (len : ℕ) (inclusive : Bool) : Option (TimeBound D.Double) :=
  let bound := if inclusive then TimeBound.inclusive else TimeBound.exclusive
  if len = 0 then some .unbounded
  else if 5 ≤ len then
    if mem.take 4 = [0x6e, 0x6f, 0x77, 0x28] ∧ mem[len - 1]? = some 0x29 then
      if len = 5 then some (bound D.zero)
      else (parseDuration D (mem.drop 4) (len - 5)).map bound
    else none
  else none

/-- The offset of a bound that has one -/
def TimeBound.nowOffset {δ : Type} : TimeBound δ → Option δ
  | .inclusive offset => some offset
  | .exclusive offset => some offset
  | .unbounded => none

/-- The part of `_z_time_range_from_str` after the brackets: the search for a separator and what is
on both sides of it -/
def timeRangeBetween (mem : List UInt8) (len : ℕ) (inclusiveStart inclusiveEnd : Bool) :
    Option (TimeRange D.Double) :=
  let inner := (mem.take (len - 1)).drop 1
  match strstr inner [0x2e, 0x2e] with
  | some sep => do
    let start ← parseTimeBound D (mem.drop 1) sep inclusiveStart
    let stop ← parseTimeBound D (mem.drop (1 + sep + 2)) (len - 1 - (1 + sep + 2)) inclusiveEnd
    return ⟨start, stop⟩
  | none => do
    let sep ← strstr inner [0x3b]
    let start ← parseTimeBound D (mem.drop 1) sep inclusiveStart
    let offset ← start.nowOffset
    let duration ← parseDuration D (mem.drop (1 + sep + 1)) (len - 1 - (1 + sep + 1))
    let bound := if inclusiveEnd then TimeBound.inclusive else TimeBound.exclusive
    return ⟨start, bound (D.add offset duration)⟩

/-- `_z_time_range_from_str` -/
def timeRangeFromStr (mem : List UInt8) (len : ℕ) : Option (TimeRange D.Double) := do
  if len < 4 then none
  else
    let inclusiveStart ←
      if mem[0]? = some 0x5b then some true else if mem[0]? = some 0x5d then some false else none
    let inclusiveEnd ←
      if mem[len - 1]? = some 0x5b then some false
      else if mem[len - 1]? = some 0x5d then some true else none
    timeRangeBetween D mem len inclusiveStart inclusiveEnd

/-! ### The documented grammar -/

/-- A duration: a number and a unit, which are together finite -/
def IsDuration (text : List UInt8) : Prop :=
  ∃ number unit, text = number ++ TimeUnit.text unit ∧ isDecimal number = true ∧
    D.isInf (D.mul (D.ofDecimal number) (D.toSecs unit)) = false

/-- A bound: nothing, or now with an optional duration -/
def IsBound (text : List UInt8) : Prop :=
  text = [] ∨ ∃ duration, text = [0x6e, 0x6f, 0x77, 0x28] ++ duration ++ [0x29] ∧
    (duration = [] ∨ IsDuration D duration)

/-- A range: two bounds, or a bound and a duration, between brackets -/
def IsTimeRange (text : List UInt8) : Prop :=
  ∃ first inner last, text = first :: inner ++ [last] ∧ (first = 0x5b ∨ first = 0x5d) ∧
    (last = 0x5b ∨ last = 0x5d) ∧
    ((∃ start stop, inner = start ++ [0x2e, 0x2e] ++ stop ∧ IsBound D start ∧ IsBound D stop) ∨
      ∃ start duration, inner = start ++ [0x3b] ++ duration ∧ start ≠ [] ∧ IsBound D start ∧
        IsDuration D duration)

end ZenohPico.Collections
