import Mathlib.Data.List.TakeWhile
import Mathlib.Tactic.NormNum
import ZenohPico.Foundations.Json

/-!
The JSON encoder (`src/utils/json_encoder.c`).

The encoder writes the text of one value, call after call. A frame for each open object or array
says whether a separator has to be written and whether a key waits for its value.
-/

open List

namespace ZenohPico.Collections

open Foundations

/-- `_z_json_ctx_kind_t` -/
inductive JsonCtxKind
  | obj
  | arr
  deriving DecidableEq

/-- `_z_json_frame_t` -/
structure JsonFrame where
  kind : JsonCtxKind
  expectValue : Bool
  first : Bool
  deriving DecidableEq

/-- `_z_json_encoder_t`. The frames that are in use are a list with the innermost one first, so
that the depth is its length; `bw` is what was written. -/
structure JsonEncoder where
  bw : List UInt8
  stk : List JsonFrame
  done : Bool
  deriving DecidableEq

/-- The results of the encoder's functions -/
inductive JsonRes
  | ok
  | invalid
  | overflow
  | underflow
  deriving DecidableEq

/-- `Z_JSON_MAX_DEPTH` -/
def jsonMaxDepth : ℕ := 16

namespace JsonEncoder

/-- `_Z_RETURN_IF_ERR`: what is left of a function runs when the step before it succeeded. -/
def returnIfErr (r : JsonRes × JsonEncoder) (next : JsonEncoder → JsonRes × JsonEncoder) :
    JsonRes × JsonEncoder :=
  if r.1 = .ok then next r.2 else r

/-- `_z_json_encoder_empty` -/
def empty : JsonEncoder := ⟨[], [], false⟩

/-- `_z_json_encoder_value_allowed` -/
def valueAllowed (je : JsonEncoder) : Bool :=
  match je.stk with
  | [] => !je.done
  | frame :: _ => if frame.kind = .obj ∧ frame.expectValue = false then false else true

/-- `_z_json_encoder_putsn`, where the writer has memory for the bytes -/
def putsn (je : JsonEncoder) (s : List UInt8) : JsonEncoder := { je with bw := je.bw ++ s }

/-- `_z_json_encoder_putc` -/
def putc (je : JsonEncoder) (c : UInt8) : JsonEncoder := je.putsn [c]

/-- `_z_json_encoder_push` -/
def push (je : JsonEncoder) (kind : JsonCtxKind) : JsonRes × JsonEncoder :=
  if jsonMaxDepth ≤ je.stk.length then (.overflow, je)
  else (.ok, { je with stk := ⟨kind, false, true⟩ :: je.stk })

/-- `_z_json_encoder_pop` -/
def pop (je : JsonEncoder) : JsonRes × JsonEncoder :=
  match je.stk with
  | [] => (.underflow, je)
  | _ :: stk => (.ok, { je with stk := stk })

/-- `_z_json_encoder_finish_value` -/
def finishValue (je : JsonEncoder) : JsonRes × JsonEncoder :=
  match je.stk with
  | [] => (.ok, { je with done := true })
  | parent :: stk =>
    if parent.kind = .obj then
      (.ok, { je with stk := { parent with expectValue := false } :: stk })
    else (.ok, je)

/-- The comma before an element, unless it is the first of its frame -/
def separate (je : JsonEncoder) (frame : JsonFrame) (stk : List JsonFrame) :
    JsonRes × JsonEncoder :=
  if frame.first = false then (.ok, je.putc 0x2c)
  else (.ok, { je with stk := { frame with first := false } :: stk })

/-- `_z_json_encoder_before_key` -/
def beforeKey (je : JsonEncoder) : JsonRes × JsonEncoder :=
  match je.stk with
  | [] => (.invalid, je)
  | frame :: stk =>
    if frame.kind ≠ .obj ∨ frame.expectValue = true then (.invalid, je)
    else je.separate frame stk

/-- `_z_json_encoder_before_value` -/
def beforeValue (je : JsonEncoder) : JsonRes × JsonEncoder :=
  match je.stk with
  | [] => (.ok, je)
  | frame :: stk =>
    match frame.kind with
    | .arr => je.separate frame stk
    | .obj => if frame.expectValue = false then (.invalid, je) else (.ok, je)

/-! ### Objects and arrays -/

/-- `_z_json_encoder_start_object` and `_z_json_encoder_start_array`. The separator is written
before the depth is looked at. -/
def start (je : JsonEncoder) (kind : JsonCtxKind) (bracket : UInt8) : JsonRes × JsonEncoder :=
  if je.valueAllowed = false then (.invalid, je)
  else returnIfErr je.beforeValue fun je ↦ returnIfErr (je.push kind) fun je ↦
    (.ok, je.putc bracket)

/-- `_z_json_encoder_start_object` -/
def startObject (je : JsonEncoder) : JsonRes × JsonEncoder := je.start .obj 0x7b

/-- `_z_json_encoder_start_array` -/
def startArray (je : JsonEncoder) : JsonRes × JsonEncoder := je.start .arr 0x5b

/-- `_z_json_encoder_end_object` -/
def endObject (je : JsonEncoder) : JsonRes × JsonEncoder :=
  match je.stk with
  | [] => (.invalid, je)
  | frame :: _ =>
    if frame.kind ≠ .obj ∨ frame.expectValue = true then (.invalid, je)
    else returnIfErr (je.putc 0x7d).pop finishValue

/-- `_z_json_encoder_end_array` -/
def endArray (je : JsonEncoder) : JsonRes × JsonEncoder :=
  match je.stk with
  | [] => (.invalid, je)
  | frame :: _ =>
    if frame.kind ≠ .arr then (.invalid, je)
    else returnIfErr (je.putc 0x5d).pop finishValue

/-! ### Keys and values -/

/-- The digit of the table `hex`, and of `%x` -/
def hexDigit (n : UInt8) : UInt8 := if n < 10 then 0x30 + n else 0x57 + n

/-- The text of a byte in a string -/
def escapeByte (c : UInt8) : List UInt8 :=
  if c = 0x22 then [0x5c, 0x22]
  else if c = 0x5c then [0x5c, 0x5c]
  else if c = 0x08 then [0x5c, 0x62]
  else if c = 0x0c then [0x5c, 0x66]
  else if c = 0x0a then [0x5c, 0x6e]
  else if c = 0x0d then [0x5c, 0x72]
  else if c = 0x09 then [0x5c, 0x74]
  else if c < 0x20 then [0x5c, 0x75, 0x30, 0x30, hexDigit (c >>> 4), hexDigit (c &&& 0x0f)]
  else [c]

/-- `_z_json_encoder_write_escaped_string` -/
def writeEscapedString (je : JsonEncoder) (str : List UInt8) : JsonEncoder :=
  (str.foldl (fun je c ↦ je.putsn (escapeByte c)) (je.putc 0x22)).putc 0x22

/-- What a null terminated string holds, as `strlen` bounds it -/
def cString (str : List UInt8) : List UInt8 := str.takeWhile (· ≠ 0)

/-- `_z_json_encoder_write_key` -/
def writeKey (je : JsonEncoder) (key : List UInt8) : JsonRes × JsonEncoder :=
  if je.stk = [] then (.invalid, je)
  else returnIfErr je.beforeKey fun je ↦
    let je := (je.writeEscapedString (cString key)).putc 0x3a
    match je.stk with
    | [] => (.ok, je)
    | frame :: stk => (.ok, { je with stk := { frame with expectValue := true } :: stk })

/-- What the functions that write a value have in common: the checks, the separator, the text and
the end of the value. -/
def writeValue (je : JsonEncoder) (text : JsonEncoder → JsonRes × JsonEncoder) :
    JsonRes × JsonEncoder :=
  if je.valueAllowed = false then (.invalid, je)
  else returnIfErr je.beforeValue fun je ↦ returnIfErr (text je) finishValue

/-- `_z_json_encoder_write_string` -/
def writeString (je : JsonEncoder) (value : List UInt8) : JsonRes × JsonEncoder :=
  je.writeValue fun je ↦ (.ok, je.writeEscapedString (cString value))

/-- `_z_json_encoder_write_z_string` -/
def writeZString (je : JsonEncoder) (value : List UInt8) : JsonRes × JsonEncoder :=
  je.writeValue fun je ↦ (.ok, je.writeEscapedString value)

/-- The two digits of a byte -/
def hexByte (b : UInt8) : List UInt8 := [hexDigit (b >>> 4), hexDigit (b &&& 0x0f)]

/-- `_z_json_encoder_write_z_slice` -/
def writeZSlice (je : JsonEncoder) (value : List UInt8) : JsonRes × JsonEncoder :=
  je.writeValue fun je ↦
    (.ok, (value.foldl (fun je b ↦ je.putsn (hexByte b)) (je.putc 0x22)).putc 0x22)

/-- The text of an integer, when it fits the buffer of 32 bytes with its end -/
def putNumber (text : List UInt8) (je : JsonEncoder) : JsonRes × JsonEncoder :=
  if text.length = 0 ∨ 32 ≤ text.length then (.invalid, je) else (.ok, je.putsn text)

/-- What `PRId64` writes -/
def signedText (value : Int64) : List UInt8 :=
  if value.toInt < 0 then 0x2d :: decimal value.toInt.natAbs else decimal value.toInt.natAbs

/-- `_z_json_encoder_write_i64` -/
def writeI64 (je : JsonEncoder) (value : Int64) : JsonRes × JsonEncoder :=
  je.writeValue (putNumber (signedText value))

/-- `_z_json_encoder_write_u64` -/
def writeU64 (je : JsonEncoder) (value : UInt64) : JsonRes × JsonEncoder :=
  je.writeValue (putNumber (decimal value.toNat))

/-- `_z_json_encoder_write_boolean` -/
def writeBoolean (je : JsonEncoder) (value : Bool) : JsonRes × JsonEncoder :=
  je.writeValue fun je ↦
    (.ok, je.putsn (if value then [0x74, 0x72, 0x75, 0x65] else [0x66, 0x61, 0x6c, 0x73, 0x65]))

/-- `_z_json_encoder_write_null` -/
def writeNull (je : JsonEncoder) : JsonRes × JsonEncoder :=
  je.writeValue fun je ↦ (.ok, je.putsn [0x6e, 0x75, 0x6c, 0x6c])

/-- `_z_json_encoder_finish`, with the bytes it gives -/
def finish (je : JsonEncoder) : JsonRes × Option (List UInt8) × JsonEncoder :=
  if je.stk ≠ [] ∨ je.done = false then (.invalid, none, je)
  else (.ok, some je.bw, { je with bw := [], done := false })

end JsonEncoder

/-! ### Calls -/

/-- A string without the null character -/
abbrev JsonText := { s : List Char // ∀ c ∈ s, c.toNat ≠ 0 }

/-- The bytes of a string -/
def JsonText.utf8 (s : JsonText) : List UInt8 := s.val.flatMap String.utf8EncodeChar

/-- A call of the encoder -/
inductive JsonCall
  | startObject
  | endObject
  | startArray
  | endArray
  | writeKey (key : JsonText)
  | writeString (value : JsonText)
  | writeZString (value : JsonText)
  | writeZSlice (value : List UInt8)
  | writeI64 (value : Int64)
  | writeU64 (value : UInt64)
  | writeBoolean (value : Bool)
  | writeNull
  | finish

namespace JsonEncoder

/-- A call that gives no bytes -/
def quiet (r : JsonRes × JsonEncoder) : JsonRes × Option (List UInt8) × JsonEncoder :=
  (r.1, none, r.2)

/-- The result of a call, the bytes it gives and the encoder after it -/
def call (je : JsonEncoder) : JsonCall → JsonRes × Option (List UInt8) × JsonEncoder
  | .startObject => quiet je.startObject
  | .endObject => quiet je.endObject
  | .startArray => quiet je.startArray
  | .endArray => quiet je.endArray
  | .writeKey key => quiet (je.writeKey key.utf8)
  | .writeString value => quiet (je.writeString value.utf8)
  | .writeZString value => quiet (je.writeZString value.utf8)
  | .writeZSlice value => quiet (je.writeZSlice value)
  | .writeI64 value => quiet (je.writeI64 value)
  | .writeU64 value => quiet (je.writeU64 value)
  | .writeBoolean value => quiet (je.writeBoolean value)
  | .writeNull => quiet je.writeNull
  | .finish => je.finish

/-! ### Texts -/

@[simp] theorem putsn_putsn (je : JsonEncoder) (s t : List UInt8) :
    (je.putsn s).putsn t = je.putsn (s ++ t) := by
  rw [putsn, putsn, putsn, append_assoc]

theorem foldl_putsn (f : UInt8 → List UInt8) (bs : List UInt8) : ∀ je : JsonEncoder,
    bs.foldl (fun je b ↦ je.putsn (f b)) je = je.putsn (bs.flatMap f) := by
  induction bs with
  | nil => exact fun je ↦ by simp [putsn]
  | cons b bs ih =>
    intro je
    rw [foldl_cons, ih, putsn_putsn, flatMap_cons]

/-- A string in quotes -/
def quoted (text : List UInt8) : List UInt8 := 0x22 :: (text ++ [0x22])

theorem writeEscapedString_eq (je : JsonEncoder) (str : List UInt8) :
    je.writeEscapedString str = je.putsn (quoted (str.flatMap escapeByte)) := by
  rw [writeEscapedString, foldl_putsn, putc, putc, putsn_putsn, putsn_putsn, quoted,
    singleton_append]

variable {b : UInt8}

/-- The four digits of a control character -/
theorem hexNumber_control (h : b < 0x20) :
    hexNumber [0x30, 0x30, hexDigit (b >>> 4), hexDigit (b &&& 0x0f)] = some b.toNat := by
  have hall : ∀ k : Fin 32, hexNumber [0x30, 0x30, hexDigit (UInt8.ofNat k >>> 4),
      hexDigit (UInt8.ofNat k &&& 0x0f)] = some k := by decide
  have hb : b.toNat < 32 := UInt8.lt_iff_toNat_lt.mp h
  simpa using hall ⟨b.toNat, hb⟩

theorem utf8EncodeChar_of_lt {c : Char} (h : c.toNat < 0x80) :
    String.utf8EncodeChar c = [UInt8.ofNat c.toNat] := by
  have hle : c.val.toNat ≤ 0x7f := Nat.le_of_lt_succ h
  rw [String.utf8EncodeChar, if_pos hle]
  rfl

/-- A character of one byte is written as itself or as its escape. -/
theorem spells_escapeByte {c : Char} (h : c.toNat < 0x80) :
    Spells c (escapeByte (UInt8.ofNat c.toNat)) := by
  have hb : (UInt8.ofNat c.toNat).toNat = c.toNat := by
    rw [UInt8.toNat_ofNat']
    omega
  have hutf8 := utf8EncodeChar_of_lt h
  set b := UInt8.ofNat c.toNat with hbdef
  have hnamed : ∀ k : UInt8, b = k → c.toNat = k.toNat := fun k hk ↦ by rw [← hb, hk]
  unfold escapeByte
  split_ifs with h1 h2 h3 h4 h5 h6 h7 h8
  · exact .escape (by rw [hnamed _ h1]; decide)
  · exact .escape (by rw [hnamed _ h2]; decide)
  · exact .escape (by rw [hnamed _ h3]; decide)
  · exact .escape (by rw [hnamed _ h4]; decide)
  · exact .escape (by rw [hnamed _ h5]; decide)
  · exact .escape (by rw [hnamed _ h6]; decide)
  · exact .escape (by rw [hnamed _ h7]; decide)
  · exact .unicode rfl (by rw [hexNumber_control h8, hb])
  · rw [← hutf8]
    have hlow : 0x20 ≤ b.toNat := by simpa [UInt8.lt_iff_toNat_lt] using h8
    refine .plain (hb ▸ hlow) (fun hq ↦ h1 ?_) fun hq ↦ h2 ?_
    · rw [hbdef, hq]
      rfl
    · rw [hbdef, hq]
      rfl

/-- The bytes of other characters are not below 0x80. -/
theorem le_of_mem_utf8EncodeChar {c : Char} (h : 0x80 ≤ c.toNat) {b : UInt8}
    (hb : b ∈ String.utf8EncodeChar c) : 0x80 ≤ b.toNat := by
  have hval : c.val.toNat = c.toNat := rfl
  have hlt : c.toNat < 0x110000 := by
    have := c.valid
    rcases this with hv | hv
    · change c.toNat < 0xd800 at hv
      omega
    · exact hv.2
  rw [String.utf8EncodeChar, hval] at hb
  have hlead : ∀ n k, 0x80 ≤ k → n + k < 0x100 → 0x80 ≤ (UInt8.ofNat (n + k)).toNat := by
    intro n k hk hn
    rw [UInt8.toNat_ofNat']
    omega
  split_ifs at hb
  · omega
  · simp only [mem_cons, not_mem_nil, or_false] at hb
    rcases hb with rfl | rfl <;> exact hlead _ _ (by omega) (by omega)
  · simp only [mem_cons, not_mem_nil, or_false] at hb
    rcases hb with rfl | rfl | rfl <;> exact hlead _ _ (by omega) (by omega)
  · simp only [mem_cons, not_mem_nil, or_false] at hb
    rcases hb with rfl | rfl | rfl | rfl <;> exact hlead _ _ (by omega) (by omega)

/-- Bytes from 0x80 on are written as they are. -/
theorem escapeByte_of_le (h : 0x80 ≤ b.toNat) : escapeByte b = [b] := by
  have hne : ∀ k : UInt8, k.toNat < 0x80 → b ≠ k := by
    rintro k hk rfl
    omega
  have hlow : ¬ b < 0x20 := by
    rw [UInt8.lt_iff_toNat_lt]
    exact Nat.not_lt_of_le (le_trans (by decide) h)
  rw [escapeByte, if_neg (hne _ (by decide)), if_neg (hne _ (by decide)),
    if_neg (hne _ (by decide)), if_neg (hne _ (by decide)), if_neg (hne _ (by decide)),
    if_neg (hne _ (by decide)), if_neg (hne _ (by decide)), if_neg hlow]

/-- The bytes that are written for a character spell it. -/
theorem spells_escaped (c : Char) : Spells c ((String.utf8EncodeChar c).flatMap escapeByte) := by
  by_cases h : c.toNat < 0x80
  · rw [utf8EncodeChar_of_lt h, flatMap_singleton]
    exact spells_escapeByte h
  · have hsame : (String.utf8EncodeChar c).flatMap escapeByte = String.utf8EncodeChar c := by
      rw [flatMap_congr fun b hb ↦ escapeByte_of_le
        (le_of_mem_utf8EncodeChar (Nat.le_of_not_lt h) hb), flatMap_singleton']
    rw [hsame]
    exact .plain (by omega) (by omega) (by omega)

theorem isString_quoted (s : JsonText) : IsString s.val (quoted (s.utf8.flatMap escapeByte)) := by
  refine ⟨s.val.map fun c ↦ (String.utf8EncodeChar c).flatMap escapeByte, ?_, ?_⟩
  · rw [forall₂_map_right_iff, forall₂_same]
    exact fun c _ ↦ spells_escaped c
  · rw [quoted, JsonText.utf8, flatMap_assoc, flatMap_def]

/-- The bytes of a string without the null character are not zero. -/
theorem cString_utf8 (s : JsonText) : cString s.utf8 = s.utf8 := by
  refine takeWhile_eq_self_iff.mpr fun b hb ↦ decide_eq_true ?_
  obtain ⟨c, hc, hb⟩ := mem_flatMap.mp hb
  have hne := s.property c hc
  rintro rfl
  by_cases h : 0x80 ≤ c.toNat
  · have hle := le_of_mem_utf8EncodeChar h hb
    simp at hle
  · rw [utf8EncodeChar_of_lt (Nat.lt_of_not_le h), mem_singleton] at hb
    have hzero := congrArg UInt8.toNat hb
    rw [UInt8.toNat_ofNat', UInt8.toNat_zero] at hzero
    omega

/-- The characters of the digits of bytes -/
def hexText (bs : List UInt8) : List Char :=
  bs.flatMap fun b : UInt8 ↦ [Nat.digitChar (b >>> 4).toNat, Nat.digitChar (b &&& 0x0f).toNat]

theorem spells_digitChar {n : UInt8} (h : n < 16) :
    Spells (Nat.digitChar n.toNat) [hexDigit n] := by
  have hall : ∀ k : Fin 16, String.utf8EncodeChar (Nat.digitChar k) = [hexDigit (UInt8.ofNat k)] ∧
      0x20 ≤ (Nat.digitChar k).toNat ∧ (Nat.digitChar k).toNat ≠ 0x22 ∧
      (Nat.digitChar k).toNat ≠ 0x5c := by decide
  obtain ⟨hutf8, hlow, hquote, hbackslash⟩ := hall ⟨n.toNat, UInt8.lt_iff_toNat_lt.mp h⟩
  have hspells := Spells.plain hlow hquote hbackslash
  rw [hutf8] at hspells
  simpa using hspells

theorem isString_hexText (bs : List UInt8) :
    IsString (hexText bs) (quoted (bs.flatMap hexByte)) := by
  refine ⟨bs.flatMap fun b : UInt8 ↦ [[hexDigit (b >>> 4)], [hexDigit (b &&& 0x0f)]], ?_, ?_⟩
  · induction bs with
    | nil => exact .nil
    | cons b bs ih =>
      have hhigh : b >>> 4 < 16 := by
        have hshift : (b >>> 4).toNat = b.toNat / 16 := by
          rw [UInt8.toNat_shiftRight, Nat.shiftRight_eq_div_pow]
          rfl
        have hbyte := b.toNat_lt
        refine UInt8.lt_iff_toNat_lt.mpr (hshift ▸ Nat.div_lt_of_lt_mul ?_)
        exact hbyte
      have hlow : b &&& 0x0f < 16 := by
        rw [UInt8.lt_iff_toNat_lt, UInt8.toNat_and]
        exact Nat.and_lt_two_pow _ (show _ < 2 ^ 4 by decide)
      exact .cons (spells_digitChar hhigh) (.cons (spells_digitChar hlow) ih)
  · rw [quoted]
    congr 2
    induction bs with
    | nil => rfl
    | cons b bs ih =>
      rw [flatMap_cons, flatMap_cons, ih]
      rfl

theorem isNumber_signedText (value : Int64) : IsNumber value.toInt (signedText value) := by
  unfold signedText
  split_ifs with hneg
  · exact isNumber_neg hneg
  · have hnat : (value.toInt.natAbs : ℤ) = value.toInt := Int.natAbs_of_nonneg (by omega)
    have hnumber := isNumber_decimal value.toInt.natAbs
    rwa [hnat] at hnumber

/-- The text of an integer fits the buffer. -/
theorem length_signedText (value : Int64) :
    0 < (signedText value).length ∧ (signedText value).length < 32 := by
  have hle : (decimal value.toInt.natAbs).length ≤ 30 := by
    have hlow := value.le_toInt
    have hhigh := value.toInt_lt
    exact (length_decimal_le_iff (by decide)).mpr (by omega)
  have hpos := length_pos_of_ne_nil (decimal_ne_nil value.toInt.natAbs)
  unfold signedText
  split_ifs
  · rw [length_cons]
    omega
  · omega

theorem length_decimal_toNat (value : UInt64) :
    0 < (decimal value.toNat).length ∧ (decimal value.toNat).length < 32 := by
  have hle : (decimal value.toNat).length ≤ 31 := by
    have hhigh := value.toNat_lt
    exact (length_decimal_le_iff (by decide)).mpr (by omega)
  have hpos := length_pos_of_ne_nil (decimal_ne_nil value.toNat)
  omega

end JsonEncoder

end ZenohPico.Collections
