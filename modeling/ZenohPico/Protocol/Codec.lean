import Mathlib.Data.List.Basic
import Mathlib.Data.Nat.Bitwise
import Mathlib.Tactic.Ring

/-!
Reading and writing the primitive fields of a message (`src/protocol/codec.c`,
`include/zenoh-pico/protocol/codec/core.h`) and its extensions
(`src/protocol/codec/ext.c`).

A write buffer is the list of the bytes written so far, a read buffer the list of the bytes
between the read and the write position. A decoder returns what is left of the buffer with
the value; the encoders of this file cannot fail but for a buffer that is full, which is
decided where the buffer is made.
-/

open List

namespace ZenohPico.Protocol

/-- The results other than `_Z_RES_OK` that the codecs and the handshakes return. -/
inductive ZError
  | messageDeserializationFailed
  | messageSerializationFailed
  | messageExtensionMandatoryAndUnknown
  | messageTransportUnknown
  | messageZenohUnknown
  | messageUnexpected
  | transportOpenSnResolution
  | transportNoSpace
  | transportTxFailed
  | transportRxFailed
  | transportRxDurationExpired
  | systemOutOfMemory
  | generic
deriving DecidableEq, Repr

/-- Decoding a value from the front of a read buffer. -/
abbrev Decoder (α : Type) := StateT (List UInt8) (Except ZError) α

variable {α β : Type} {b : UInt8} {lv : UInt64}

theorem Decoder.bind_apply (x : Decoder α) (f : α → Decoder β) (zbf : List UInt8) :
    (x >>= f) zbf = (x zbf >>= fun p ↦ f p.1 p.2) := rfl

variable {x : Decoder α} {zbf rest : List UInt8}

theorem Decoder.bind_of_ok {a : α} (h : x zbf = .ok (a, rest)) (f : α → Decoder β) :
    (x >>= f) zbf = f a rest := by
  rw [bind_apply, h]
  rfl

variable {e : ZError}

theorem Decoder.bind_of_error (h : x zbf = .error e) (f : α → Decoder β) :
    (x >>= f) zbf = .error e := by
  rw [bind_apply, h]
  rfl

theorem Decoder.exists_of_bind {α β : Type} {x : Decoder α} {f : α → Decoder β}
    {zbf : List UInt8} {r : β × List UInt8} (h : (x >>= f) zbf = .ok r) :
    ∃ a rest, x zbf = .ok (a, rest) ∧ f a rest = .ok r := by
  rw [bind_apply] at h
  cases hx : x zbf with
  | error e =>
    rw [hx] at h
    cases h
  | ok p =>
    rw [hx] at h
    exact ⟨p.1, p.2, rfl, h⟩

theorem Decoder.map_of_ok {a : α} (h : x zbf = .ok (a, rest)) (f : α → β) :
    (f <$> x) zbf = .ok (f a, rest) := by
  change (x zbf >>= fun p ↦ pure (f p.1, p.2)) = _
  rw [h]
  rfl

theorem Decoder.map_of_error (h : x zbf = .error e) (f : α → β) : (f <$> x) zbf = .error e := by
  change (x zbf >>= fun p ↦ pure (f p.1, p.2)) = _
  rw [h]
  rfl

theorem Decoder.exists_of_map {f : α → β} {b : β} (h : (f <$> x) zbf = .ok (b, rest)) :
    ∃ a, x zbf = .ok (a, rest) ∧ b = f a := by
  change (x zbf >>= fun p ↦ pure (f p.1, p.2)) = _ at h
  cases hx : x zbf with
  | error e =>
    rw [hx] at h
    cases h
  | ok p =>
    rw [hx] at h
    cases h
    exact ⟨p.1, rfl, rfl⟩

@[simp]
theorem Decoder.pure_apply (a : α) (zbf : List UInt8) :
    (pure a : Decoder α) zbf = .ok (a, zbf) := rfl

/-! ### Fixed-width fields -/

/-- `_Z_HAS_FLAG` -/
def hasFlag (header flag : UInt8) : Bool := (header &&& flag) != 0

/-- `_z_uint8_decode` -/
def uint8Decode : Decoder UInt8
  | [] => .error .messageDeserializationFailed
  | b :: zbf => .ok (b, zbf)

/-- `_z_uint16_encode` -/
def uint16Encode (val : UInt16) : List UInt8 := [val.toUInt8, (val >>> 8).toUInt8]

/-- `_z_uint16_decode` -/
def uint16Decode : Decoder UInt16
  | lsb :: msb :: zbf => .ok (lsb.toUInt16 + (msb.toUInt16 <<< 8), zbf)
  | _ => .error .messageDeserializationFailed

/-- `_z_zbuf_read_bytes` behind the check of the number of bytes left. -/
def readBytes (len : ℕ) : Decoder (List UInt8) := fun zbf ↦
  if zbf.length < len then .error .messageDeserializationFailed
  else .ok (zbf.take len, zbf.drop len)

@[simp]
theorem uint8Decode_cons (b : UInt8) (zbf : List UInt8) : uint8Decode (b :: zbf) = .ok (b, zbf) :=
  rfl

@[simp]
theorem uint16Decode_encode (val : UInt16) (zbf : List UInt8) :
    uint16Decode (uint16Encode val ++ zbf) = .ok (val, zbf) := by
  have hval : val.toUInt8.toUInt16 + ((val >>> 8).toUInt8.toUInt16 <<< 8) = val := by
    apply UInt16.toNat_inj.mp
    have hlt := val.toNat_lt
    have hpow : (2 : ℕ) ^ (8 % 16) = 256 := by decide
    simp only [UInt16.toNat_add, UInt8.toNat_toUInt16, UInt16.toNat_toUInt8,
      UInt16.toNat_shiftLeft, UInt16.toNat_shiftRight, UInt16.reduceToNat, Nat.shiftLeft_eq,
      Nat.shiftRight_eq_div_pow, hpow]
    omega
  rw [uint16Encode, cons_append, cons_append, nil_append, uint16Decode, hval]

theorem readBytes_append (bytes zbf : List UInt8) :
    readBytes bytes.length (bytes ++ zbf) = .ok (bytes, zbf) := by
  simp [readBytes]

theorem readBytes_of_lt {len : ℕ} (h : zbf.length < len) :
    readBytes len zbf = .error .messageDeserializationFailed := by
  simp [readBytes, h]

/-! ### Variable-length integers -/

/-- `VLE_LEN1_MASK` -/
def vleLen1Mask : UInt64 := (0xFFFFFFFFFFFFFFFF : UInt64) <<< 7

theorem and_vleLen1Mask_ne_zero_iff (lv : UInt64) : lv &&& vleLen1Mask ≠ 0 ↔ 128 ≤ lv.toNat := by
  have hmask : vleLen1Mask.toNat = 2 ^ 64 - (127 + 1) := by decide
  have hand : (lv &&& vleLen1Mask).toNat = (lv.toNat >>> 7) <<< 7 := by
    rw [UInt64.toNat_and, hmask]
    apply Nat.eq_of_testBit_eq
    intro i
    rw [Nat.testBit_and, Nat.testBit_two_pow_sub_succ (by decide), Nat.testBit_shiftLeft,
      Nat.testBit_shiftRight]
    have h127 : Nat.testBit 127 i = decide (i < 7) := Nat.testBit_two_pow_sub_one 7 i
    rw [h127]
    by_cases hi : 7 ≤ i
    · have hsub : 7 + (i - 7) = i := by omega
      rw [hsub]
      by_cases hbig : i < 64
      · simp [hi, hbig]
      · have hzero : lv.toNat.testBit i = false :=
          Nat.testBit_lt_two_pow (lt_of_lt_of_le lv.toNat_lt (Nat.pow_le_pow_right (by decide)
            (by omega)))
        simp [hzero]
    · have hlow : i < 7 := Nat.lt_of_not_le hi
      simp [hi, hlow]
  rw [Ne, ← UInt64.toNat_inj, hand, Nat.shiftLeft_eq, Nat.shiftRight_eq_div_pow]
  simp only [UInt64.reduceToNat]
  omega

/-- The loop of `_z_zint64_encode_buf`, with the number `len` of bytes written so far. -/
def zint64EncodeFrom (lv : UInt64) (len : ℕ) : List UInt8 :=
  if lv &&& vleLen1Mask ≠ 0 then
    ((lv &&& 0x7F) ||| 0x80).toUInt8 :: zint64EncodeFrom (lv >>> 7) (len + 1)
  else if len ≠ 9 then [(lv &&& 0xFF).toUInt8]
  else []
termination_by lv.toNat
decreasing_by
  rename_i hne
  have hle := (and_vleLen1Mask_ne_zero_iff lv).mp hne
  have hpow : (2 : ℕ) ^ (7 % 64) = 128 := by decide
  simp only [UInt64.toNat_shiftRight, UInt64.reduceToNat, Nat.shiftRight_eq_div_pow, hpow]
  omega

/-- `_z_zint64_encode`, `_z_zsize_encode` -/
def zint64Encode (v : UInt64) : List UInt8 := zint64EncodeFrom v 0

/-- The loop of `_z_zint64_decode`, with the bits read so far and the next shift. -/
def zint64DecodeFrom (zint : UInt64) (i : ℕ) : Decoder UInt64
  | [] => .error .messageDeserializationFailed
  | b :: zbf =>
    if b &&& 0x80 ≠ 0 ∧ i ≠ 7 * (9 - 1) then
      zint64DecodeFrom (zint ||| ((b &&& 0x7F).toUInt64 <<< UInt64.ofNat i)) (i + 7) zbf
    else .ok (zint ||| (b.toUInt64 <<< UInt64.ofNat i), zbf)

/-- `_z_zint64_decode`, and `_z_zsize_decode` where a size has 64 bits -/
def zint64Decode : Decoder UInt64 := zint64DecodeFrom 0 0

theorem toNat_or_shiftLeft {zint : UInt64} {digit i : ℕ} (hb : b.toNat = digit) (hi : i < 64)
    (hzint : zint.toNat < 2 ^ i) (hdigit : digit * 2 ^ i < 2 ^ 64) :
    (zint ||| (b.toUInt64 <<< UInt64.ofNat i)).toNat = zint.toNat + digit * 2 ^ i := by
  have hshift : (UInt64.ofNat i).toNat % 64 = i := by
    rw [UInt64.toNat_ofNat']
    omega
  rw [UInt64.toNat_or, UInt64.toNat_shiftLeft, UInt8.toNat_toUInt64, hshift, hb, Nat.shiftLeft_eq,
    Nat.mod_eq_of_lt hdigit, Nat.or_comm, Nat.mul_comm, ← Nat.two_pow_add_eq_or_of_lt hzint,
    Nat.add_comm]

theorem toNat_continuation (lv : UInt64) :
    (((lv &&& 0x7F) ||| 0x80).toUInt8).toNat = lv.toNat % 128 + 128 := by
  have hlow : lv.toNat &&& (0x7F : UInt64).toNat = lv.toNat % 2 ^ 7 :=
    Nat.and_two_pow_sub_one_eq_mod lv.toNat 7
  have hhigh : (0x80 : UInt64).toNat = 2 ^ 7 * 1 := rfl
  rw [UInt64.toNat_toUInt8, UInt64.toNat_or, UInt64.toNat_and, hlow, hhigh, Nat.or_comm,
    ← Nat.two_pow_add_eq_or_of_lt (Nat.mod_lt _ (by decide))]
  omega

theorem toNat_last (h : lv.toNat < 256) : ((lv &&& 0xFF).toUInt8).toNat = lv.toNat := by
  have hlow : lv.toNat &&& (0xFF : UInt64).toNat = lv.toNat % 2 ^ 8 :=
    Nat.and_two_pow_sub_one_eq_mod lv.toNat 8
  rw [UInt64.toNat_toUInt8, UInt64.toNat_and, hlow]
  omega

theorem and_continuation_ne_zero_iff (b : UInt8) : b &&& 0x80 ≠ 0 ↔ 128 ≤ b.toNat := by
  have hall : ∀ k : Fin 256, UInt8.ofNat k.val &&& 0x80 ≠ 0 ↔ 128 ≤ k.val := by decide +kernel
  have hb := hall ⟨b.toNat, b.toNat_lt⟩
  rwa [UInt8.ofNat_toNat] at hb

theorem toNat_payload (b : UInt8) : (b &&& 0x7F).toNat = b.toNat % 128 := by
  rw [UInt8.toNat_and]
  exact Nat.and_two_pow_sub_one_eq_mod b.toNat 7

/-- One step of the encoder, in numbers. -/
theorem zint64EncodeFrom_of_le (h : 128 ≤ lv.toNat) (len : ℕ) : zint64EncodeFrom lv len =
      ((lv &&& 0x7F) ||| 0x80).toUInt8 :: zint64EncodeFrom (lv >>> 7) (len + 1) := by
  rw [zint64EncodeFrom, if_pos ((and_vleLen1Mask_ne_zero_iff lv).mpr h)]

theorem zint64EncodeFrom_of_lt (h : lv.toNat < 128) (len : ℕ) :
    zint64EncodeFrom lv len = if len ≠ 9 then [(lv &&& 0xFF).toUInt8] else [] := by
  rw [zint64EncodeFrom, if_neg fun hne ↦ absurd ((and_vleLen1Mask_ne_zero_iff lv).mp hne) (by omega)]

theorem toNat_shiftRight_seven (lv : UInt64) : (lv >>> 7).toNat = lv.toNat / 128 := by
  have hpow : (2 : ℕ) ^ (7 % 64) = 128 := by decide
  simp only [UInt64.toNat_shiftRight, UInt64.reduceToNat, Nat.shiftRight_eq_div_pow, hpow]

/-- The decoder stops at a byte without the continuation bit, or at the ninth byte. -/
theorem zint64DecodeFrom_last {zint : UInt64} {digit k : ℕ} (zbf : List UInt8)
    (hb : b.toNat = digit) (hstop : digit < 128 ∨ k = 8) (hk : k ≤ 8)
    (hzint : zint.toNat < 2 ^ (7 * k)) (hdigit : digit * 2 ^ (7 * k) < 2 ^ 64) :
    zint64DecodeFrom zint (7 * k) (b :: zbf) =
      .ok (UInt64.ofNat (zint.toNat + digit * 2 ^ (7 * k)), zbf) := by
  have hcond : ¬ (b &&& 0x80 ≠ 0 ∧ 7 * k ≠ 7 * (9 - 1)) := by
    rintro ⟨hcont, hne⟩
    have := (and_continuation_ne_zero_iff b).mp hcont
    omega
  have hval := toNat_or_shiftLeft hb (by omega) hzint hdigit
  rw [zint64DecodeFrom, if_neg hcond, ← hval, UInt64.ofNat_toNat]

/-- The decoder undoes the encoder from the `k`-th byte on. -/
theorem zint64DecodeFrom_encodeFrom (zbf : List UInt8) {k : ℕ} (hk : k ≤ 8) :
    ∀ {lv zint : UInt64}, lv.toNat < 2 ^ (64 - 7 * k) → zint.toNat < 2 ^ (7 * k) →
      zint64DecodeFrom zint (7 * k) (zint64EncodeFrom lv k ++ zbf) =
        .ok (UInt64.ofNat (zint.toNat + lv.toNat * 2 ^ (7 * k)), zbf) := by
  induction hk using Nat.decreasingInduction with
  | self =>
    intro lv zint hlv hzint
    have hbyte : lv.toNat < 2 ^ 8 := by simpa using hlv
    have hdigit : lv.toNat * 2 ^ (7 * 8) < 2 ^ 64 := by omega
    rcases Nat.lt_or_ge lv.toNat 128 with hlt | hle
    · rw [zint64EncodeFrom_of_lt hlt, if_pos (by decide), singleton_append,
        zint64DecodeFrom_last zbf (toNat_last (by omega)) (.inr rfl) le_rfl hzint hdigit]
    · -- the ninth byte carries eight bits, and nothing follows it
      have hone : (lv >>> 7).toNat < 128 := by
        rw [toNat_shiftRight_seven]
        omega
      have hlast : (((lv &&& 0x7F) ||| 0x80).toUInt8).toNat = lv.toNat := by
        rw [toNat_continuation]
        omega
      rw [zint64EncodeFrom_of_le hle, zint64EncodeFrom_of_lt hone, if_neg (by decide),
        singleton_append, zint64DecodeFrom_last zbf hlast (.inr rfl) le_rfl hzint hdigit]
  | of_succ k hk ih =>
    intro lv zint hlv hzint
    have hpow : 2 ^ (7 * (k + 1)) = 2 ^ (7 * k) * 128 := by rw [Nat.mul_succ, Nat.pow_add]
    have hroom : 2 ^ (64 - 7 * k) = 2 ^ (64 - 7 * (k + 1)) * 128 := by
      rw [← Nat.pow_add 2 _ 7]
      congr 1
      omega
    have hall : 2 ^ (64 - 7 * k) * 2 ^ (7 * k) = 2 ^ 64 := by
      rw [← Nat.pow_add]
      congr 1
      omega
    have htotal : lv.toNat * 2 ^ (7 * k) < 2 ^ 64 := by
      rw [← hall]
      exact Nat.mul_lt_mul_of_pos_right hlv (Nat.two_pow_pos _)
    rcases Nat.lt_or_ge lv.toNat 128 with hlt | hle
    · rw [zint64EncodeFrom_of_lt hlt, if_pos (by omega), singleton_append,
        zint64DecodeFrom_last zbf (toNat_last (by omega)) (.inl hlt) (by omega) hzint htotal]
    · have hcont : ((lv &&& 0x7F) ||| 0x80).toUInt8 &&& 0x80 ≠ 0 := by
        rw [and_continuation_ne_zero_iff, toNat_continuation]
        omega
      have hpayload : (((lv &&& 0x7F) ||| 0x80).toUInt8 &&& 0x7F).toNat = lv.toNat % 128 := by
        rw [toNat_payload, toNat_continuation]
        omega
      have hsplit : lv.toNat % 128 * 2 ^ (7 * k) + lv.toNat / 128 * 2 ^ (7 * (k + 1)) =
          lv.toNat * 2 ^ (7 * k) := by
        rw [hpow]
        calc lv.toNat % 128 * 2 ^ (7 * k) + lv.toNat / 128 * (2 ^ (7 * k) * 128)
            = (lv.toNat % 128 + 128 * (lv.toNat / 128)) * 2 ^ (7 * k) := by ring
          _ = lv.toNat * 2 ^ (7 * k) := by rw [Nat.mod_add_div]
      have hacc := toNat_or_shiftLeft hpayload (by omega) hzint (by omega)
      have hnext : zint.toNat + lv.toNat % 128 * 2 ^ (7 * k) < 2 ^ (7 * (k + 1)) := by
        have hdigit : lv.toNat % 128 * 2 ^ (7 * k) ≤ 127 * 2 ^ (7 * k) :=
          Nat.mul_le_mul_right _ (by omega)
        omega
      have hrest : (lv >>> 7).toNat < 2 ^ (64 - 7 * (k + 1)) := by
        rw [toNat_shiftRight_seven]
        omega
      rw [zint64EncodeFrom_of_le hle, cons_append, zint64DecodeFrom,
        if_pos ⟨hcont, by omega⟩, ← Nat.mul_succ, ih hrest (by rwa [hacc]), hacc,
        toNat_shiftRight_seven, Nat.add_assoc, hsplit]

/-- A variable-length integer is read back, and exactly its bytes are consumed. -/
@[simp]
theorem zint64Decode_encode (v : UInt64) (zbf : List UInt8) :
    zint64Decode (zint64Encode v ++ zbf) = .ok (v, zbf) := by
  have hv : v.toNat < 2 ^ (64 - 7 * 0) := by simpa using v.toNat_lt
  have hzero : (0 : UInt64).toNat < 2 ^ (7 * 0) := by decide
  have h := zint64DecodeFrom_encodeFrom zbf (Nat.zero_le 8) hv hzero
  simpa [zint64Decode, zint64Encode] using h

/-! ### Slices -/

/-- `_z_slice_encode` of a slice without wrapping -/
def sliceEncode (bs : List UInt8) : List UInt8 := zint64Encode (UInt64.ofNat bs.length) ++ bs

/-- `_z_slice_decode` -/
def sliceDecode : Decoder (List UInt8) := do
  let len ← zint64Decode
  readBytes len.toNat

@[simp]
theorem sliceDecode_encode {bs : List UInt8} (h : bs.length < 2 ^ 64) (zbf : List UInt8) :
    sliceDecode (sliceEncode bs ++ zbf) = .ok (bs, zbf) := by
  have hlen : (UInt64.ofNat bs.length).toNat = bs.length := by
    rw [UInt64.toNat_ofNat']
    exact Nat.mod_eq_of_lt h
  rw [sliceDecode, sliceEncode, append_assoc,
    Decoder.bind_of_ok (zint64Decode_encode _ _), hlen, readBytes_append]

/-! ### Extensions -/

/-- `_z_msg_ext_body_t`, by the encoding bits of the header it came with -/
inductive MsgExtBody
  | unit
  | zint (val : UInt64)
  | zbuf (val : List UInt8)
deriving DecidableEq, Repr

/-- `_z_msg_ext_t` -/
structure MsgExt where
  header : UInt8
  body : MsgExtBody
deriving DecidableEq, Repr

/-- `_Z_EXT_FULL_ID` -/
def extFullId (header : UInt8) : UInt8 := 0x7F &&& header

/-- `_Z_MSG_EXT_IS_MANDATORY` -/
def msgExtIsMandatory (header : UInt8) : Bool := (header &&& 0x10) != 0

/-- `_z_msg_ext_unknown_body_decode`: an unknown encoding leaves the body as it was made. -/
def msgExtUnknownBodyDecode (enc : UInt8) : Decoder MsgExtBody :=
  if enc = 0x00 then pure .unit
  else if enc = 0x20 then do
    let val ← zint64Decode
    pure (.zint val)
  else if enc = 0x40 then do
    let val ← sliceDecode
    pure (.zbuf val)
  else pure .unit

/-- `_z_msg_ext_decode`: the extension and whether another one follows. -/
def msgExtDecode : Decoder (MsgExt × Bool) := do
  let header ← uint8Decode
  let body ← msgExtUnknownBodyDecode (header &&& 0x60)
  pure ({ header := extFullId header, body := body }, (header &&& 0x80) != 0)

theorem msgExtDecode_zbuf {header : UInt8} {body : List UInt8} (henc : header &&& 0x60 = 0x40)
    (hlen : body.length < 2 ^ 64) (zbf : List UInt8) :
    msgExtDecode (header :: (sliceEncode body ++ zbf)) =
      .ok ((⟨extFullId header, .zbuf body⟩, (header &&& 0x80) != 0), zbf) := by
  have hbody : msgExtUnknownBodyDecode 0x40 (sliceEncode body ++ zbf) = .ok (.zbuf body, zbf) := by
    have hunit : ¬ ((0x40 : UInt8) = 0x00) := by decide
    have hzint : ¬ ((0x40 : UInt8) = 0x20) := by decide
    rw [msgExtUnknownBodyDecode, if_neg hunit, if_neg hzint, if_pos rfl,
      Decoder.bind_of_ok (sliceDecode_encode hlen _)]
    rfl
  rw [msgExtDecode, Decoder.bind_of_ok (uint8Decode_cons _ _), henc, Decoder.bind_of_ok hbody]
  rfl

theorem msgExtDecode_zint {header : UInt8} (henc : header &&& 0x60 = 0x20) (val : UInt64)
    (zbf : List UInt8) : msgExtDecode (header :: (zint64Encode val ++ zbf)) =
      .ok ((⟨extFullId header, .zint val⟩, (header &&& 0x80) != 0), zbf) := by
  have hbody : msgExtUnknownBodyDecode 0x20 (zint64Encode val ++ zbf) = .ok (.zint val, zbf) := by
    have hunit : ¬ ((0x20 : UInt8) = 0x00) := by decide
    rw [msgExtUnknownBodyDecode, if_neg hunit, if_pos rfl,
      Decoder.bind_of_ok (zint64Decode_encode _ _)]
    rfl
  rw [msgExtDecode, Decoder.bind_of_ok (uint8Decode_cons _ _), henc, Decoder.bind_of_ok hbody]
  rfl

theorem uint8Decode_length (h : uint8Decode zbf = .ok (b, rest)) : rest.length < zbf.length := by
  cases zbf with
  | nil => cases h
  | cons b' zbf =>
    cases h
    simp

theorem readBytes_length {len : ℕ} {zbf rest bytes : List UInt8}
    (h : readBytes len zbf = .ok (bytes, rest)) : rest.length ≤ zbf.length := by
  simp only [readBytes] at h
  split at h
  · cases h
  · cases h
    simp

theorem zint64DecodeFrom_length {val : UInt64} :
    ∀ {zint : UInt64} {i : ℕ}, zint64DecodeFrom zint i zbf = .ok (val, rest) →
      rest.length < zbf.length := by
  induction zbf with
  | nil =>
    intro zint i h
    cases h
  | cons b zbf ih =>
    intro zint i h
    simp only [zint64DecodeFrom] at h
    split at h
    · exact (ih h).trans (by simp)
    · cases h
      simp

theorem sliceDecode_length {bytes : List UInt8} (h : sliceDecode zbf = .ok (bytes, rest)) :
    rest.length < zbf.length := by
  obtain ⟨len, zbf', hlen, hbytes⟩ := Decoder.exists_of_bind h
  exact (readBytes_length hbytes).trans_lt (zint64DecodeFrom_length hlen)

theorem msgExtUnknownBodyDecode_length {enc : UInt8} {body : MsgExtBody}
    (h : msgExtUnknownBodyDecode enc zbf = .ok (body, rest)) : rest.length ≤ zbf.length := by
  simp only [msgExtUnknownBodyDecode] at h
  split_ifs at h
  · cases h
    exact le_rfl
  · obtain ⟨val, zbf', hval, hpure⟩ := Decoder.exists_of_bind h
    cases hpure
    exact (zint64DecodeFrom_length hval).le
  · obtain ⟨val, zbf', hval, hpure⟩ := Decoder.exists_of_bind h
    cases hpure
    exact (sliceDecode_length hval).le
  · cases h
    exact le_rfl

/-- Every extension takes a byte at least. -/
theorem msgExtDecode_length {r : MsgExt × Bool} (h : msgExtDecode zbf = .ok (r, rest)) :
    rest.length < zbf.length := by
  obtain ⟨header, zbf₁, hheader, h⟩ := Decoder.exists_of_bind h
  obtain ⟨body, zbf₂, hbody, h⟩ := Decoder.exists_of_bind h
  cases h
  exact (msgExtUnknownBodyDecode_length hbody).trans_lt (uint8Decode_length hheader)

section Iteration

variable {σ : Type}

/-- `_z_msg_ext_decode_iter` -/
def msgExtDecodeIter (callback : MsgExt → σ → Except ZError σ) (context : σ) : Decoder σ := fun zbf ↦
  match _h : msgExtDecode zbf with
  | .error e => .error e
  | .ok ((extension, hasNext), rest) =>
    match callback extension context with
    | .error e => .error e
    | .ok context => if hasNext then msgExtDecodeIter callback context rest else .ok (context, rest)
termination_by zbf => zbf.length
decreasing_by exact msgExtDecode_length _h

variable {callback : MsgExt → σ → Except ZError σ}

/-- A chain with a first extension that the callback takes. -/
theorem msgExtDecodeIter_of_ok {context context' : σ} {extension : MsgExt} {hasNext : Bool}
    (hdecode : msgExtDecode zbf = .ok ((extension, hasNext), rest))
    (hcallback : callback extension context = .ok context') :
    msgExtDecodeIter callback context zbf =
      if hasNext then msgExtDecodeIter callback context' rest else .ok (context', rest) := by
  rw [msgExtDecodeIter]
  split
  · next e he =>
    rw [hdecode] at he
    cases he
  · next extension₂ hasNext₂ rest₂ he =>
    rw [hdecode] at he
    cases he
    rw [hcallback]

/-- A chain that cannot be read from its first byte on. -/
theorem msgExtDecodeIter_of_error {context : σ} (hdecode : msgExtDecode zbf = .error e) :
    msgExtDecodeIter callback context zbf = .error e := by
  rw [msgExtDecodeIter]
  split
  · next e₂ he =>
    rw [hdecode] at he
    cases he
    rfl
  · next extension₂ hasNext₂ rest₂ he =>
    rw [hdecode] at he
    cases he

end Iteration

/-- `_z_msg_ext_skip_non_mandatory` -/
def msgExtSkipNonMandatory (extension : MsgExt) (_ : Unit) : Except ZError Unit :=
  if msgExtIsMandatory extension.header then .error .messageExtensionMandatoryAndUnknown else .ok ()

/-- `_z_msg_ext_skip_non_mandatories` -/
def msgExtSkipNonMandatories : Decoder Unit := msgExtDecodeIter msgExtSkipNonMandatory ()

end ZenohPico.Protocol
