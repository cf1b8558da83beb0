import ZenohPico.Session.ResponseCodec

/-!
Variable-length integers on any input (`src/protocol/codec.c`).

What the encoder writes is read back by the lemmas beside the encoder. Here it is the decoder's
turn: whatever the bytes are, it stops at the first byte without the continuation bit or at the
ninth byte, and fails only where the bytes end before that.
-/

namespace ZenohPico.Session

open Protocol Transport List

/-! ### Reading byte by byte -/

section Reader

variable {σ : Type}

/-- The loop of `_z_zint64_decode_with_reader`, with the bits read so far and the byte read last;
the shift is `7 * k`. -/
def zint64DecodeWithReaderFrom (reader : StateT σ (Except ZError) UInt8) (zint : UInt64)
    (b : UInt8) (k : Fin 9) : StateT σ (Except ZError) UInt64 := fun context ↦
  if hnext : b &&& 0x80 ≠ 0 ∧ 7 * k.val ≠ 7 * (9 - 1) then
    match reader context with
    | .error e => .error e
    | .ok (next, context) =>
      zint64DecodeWithReaderFrom reader
        (zint ||| ((b &&& 0x7F).toUInt64 <<< UInt64.ofNat (7 * k.val))) next
        ⟨k.val + 1, by omega⟩ context
  else .ok (zint ||| (b.toUInt64 <<< UInt64.ofNat (7 * k.val)), context)
termination_by 9 - k.val

/-- `_z_zint64_decode_with_reader` -/
def zint64DecodeWithReader (reader : StateT σ (Except ZError) UInt8) :
    StateT σ (Except ZError) UInt64 := fun context ↦
  match reader context with
  | .error e => .error e
  | .ok (b, context) => zint64DecodeWithReaderFrom reader 0 b 0 context

end Reader

theorem zint64DecodeWithReaderFrom_uint8Decode (zbf : List UInt8) :
    ∀ (zint : UInt64) (b : UInt8) (k : Fin 9), zint64DecodeWithReaderFrom uint8Decode zint b k zbf =
        zint64DecodeFrom zint (7 * k.val) (b :: zbf) := by
  induction zbf with
  | nil =>
    intro zint b k
    rw [zint64DecodeWithReaderFrom, zint64DecodeFrom]
    rfl
  | cons next zbf ih =>
    intro zint b k
    rw [zint64DecodeWithReaderFrom, zint64DecodeFrom]
    split
    · rw [uint8Decode_cons]
      exact ih _ next _
    · rfl

/-- Read from a buffer, both decoders are one. -/
theorem zint64DecodeWithReader_uint8Decode (zbf : List UInt8) :
    zint64DecodeWithReader uint8Decode zbf = zint64Decode zbf := by
  cases zbf with
  | nil => rfl
  | cons b zbf => exact zint64DecodeWithReaderFrom_uint8Decode zbf 0 b 0

/-! ### Where the decoder stops -/

/-- The bytes of one integer behind `k` bytes of it: all but the last one carry the continuation
bit, and the last one is the ninth where it carries it too. -/
def IntegerFrom (k : ℕ) : List UInt8 → Prop
  | [] => False
  | [b] => b &&& 0x80 = 0 ∧ k ≤ 8 ∨ k = 8
  | b :: bytes => b &&& 0x80 ≠ 0 ∧ IntegerFrom (k + 1) bytes

theorem IntegerFrom.length_le {bytes : List UInt8} :
    ∀ {k : ℕ}, IntegerFrom k bytes → bytes.length + k ≤ 9 := by
  induction bytes with
  | nil => exact fun h ↦ h.elim
  | cons b bytes ih =>
    intro k h
    cases bytes with
    | nil =>
      obtain ⟨-, hk⟩ | hk := h
      · simpa using (by omega : 1 + k ≤ 9)
      · simpa using (by omega : 1 + k ≤ 9)
    | cons next bytes =>
      have := ih h.2
      simp only [length_cons] at this ⊢
      omega

/-- Behind the bytes of an integer the decoder stops, whatever follows them. -/
theorem zint64DecodeFrom_integer {bytes : List UInt8} :
    ∀ {k : ℕ}, IntegerFrom k bytes → ∀ zint : UInt64,
      ∃ val, ∀ rest, zint64DecodeFrom zint (7 * k) (bytes ++ rest) = .ok (val, rest) := by
  induction bytes with
  | nil => exact fun h ↦ h.elim
  | cons b bytes ih =>
    intro k h zint
    cases bytes with
    | nil =>
      have hstop : ¬ (b &&& 0x80 ≠ 0 ∧ 7 * k ≠ 7 * (9 - 1)) := by
        rintro ⟨hmore, hshift⟩
        obtain ⟨hlast, -⟩ | hk := h
        · exact hmore hlast
        · exact hshift (by rw [hk])
      refine ⟨zint ||| (b.toUInt64 <<< UInt64.ofNat (7 * k)), fun rest ↦ ?_⟩
      rw [singleton_append, zint64DecodeFrom, if_neg hstop]
    | cons next bytes =>
      have hlen := h.2.length_le
      have hmore : b &&& 0x80 ≠ 0 ∧ 7 * k ≠ 7 * (9 - 1) := ⟨h.1, by
        simp only [length_cons] at hlen
        omega⟩
      obtain ⟨val, hval⟩ := ih h.2 (zint ||| ((b &&& 0x7F).toUInt64 <<< UInt64.ofNat (7 * k)))
      refine ⟨val, fun rest ↦ ?_⟩
      rw [cons_append, zint64DecodeFrom, if_pos hmore, ← hval rest, Nat.mul_succ]

/-- Every string of bytes begins with the bytes of one integer, or it is too short for that: it
ends before the ninth byte, and all its bytes carry the continuation bit. -/
theorem exists_integerFrom (zbf : List UInt8) :
    ∀ {k : ℕ}, k ≤ 8 → (∃ bytes rest, zbf = bytes ++ rest ∧ IntegerFrom k bytes) ∨
      (zbf.length + k < 9 ∧ ∀ b ∈ zbf, b &&& 0x80 ≠ 0) := by
  induction zbf with
  | nil => exact fun hk ↦ .inr ⟨by simpa using Nat.lt_succ_of_le hk, fun _ hb ↦ by cases hb⟩
  | cons b zbf ih =>
    intro k hk
    by_cases hlast : b &&& 0x80 = 0
    · exact .inl ⟨[b], zbf, rfl, .inl ⟨hlast, hk⟩⟩
    · rcases Nat.lt_or_ge k 8 with hlt | hge
      · obtain ⟨bytes, rest, rfl, hbytes⟩ | ⟨hlen, hall⟩ := ih (k := k + 1) hlt
        · refine .inl ⟨b :: bytes, rest, rfl, ?_⟩
          cases bytes with
          | nil => exact hbytes.elim
          | cons next bytes => exact ⟨hlast, hbytes⟩
        · refine .inr ⟨by simpa using (by omega : zbf.length + 1 + k < 9), fun c hc ↦ ?_⟩
          obtain rfl | hc := mem_cons.mp hc
          · exact hlast
          · exact hall c hc
      · exact .inl ⟨[b], zbf, rfl, .inr (by omega)⟩

/-- Where the bytes end before the integer does, the decoder fails. -/
theorem zint64DecodeFrom_short {zbf : List UInt8} (hall : ∀ b ∈ zbf, b &&& 0x80 ≠ 0) :
    ∀ {k : ℕ}, zbf.length + k < 9 → ∀ zint : UInt64,
      zint64DecodeFrom zint (7 * k) zbf = .error .messageDeserializationFailed := by
  induction zbf with
  | nil => exact fun _ _ ↦ rfl
  | cons b zbf ih =>
    intro k hk zint
    rw [length_cons] at hk
    have hmore : b &&& 0x80 ≠ 0 ∧ 7 * k ≠ 7 * (9 - 1) := ⟨hall b mem_cons_self, by omega⟩
    rw [zint64DecodeFrom, if_pos hmore, ← Nat.mul_succ]
    exact ih (fun c hc ↦ hall c (mem_cons_of_mem _ hc)) (by omega) _

/-- The decoder takes the bytes of one integer off the front, at most nine of them, or the bytes
end before. -/
theorem zint64Decode_total (zbf : List UInt8) :
    (∃ bytes rest val, zbf = bytes ++ rest ∧ bytes.length ≤ 9 ∧
        ∀ more, zint64Decode (bytes ++ more) = .ok (val, more)) ∨
      (zbf.length < 9 ∧ zint64Decode zbf = .error .messageDeserializationFailed) := by
  obtain ⟨bytes, rest, hzbf, hbytes⟩ | ⟨hlen, hall⟩ := exists_integerFrom zbf (Nat.zero_le 8)
  · obtain ⟨val, hval⟩ := zint64DecodeFrom_integer hbytes 0
    exact .inl ⟨bytes, rest, val, hzbf, hbytes.length_le, hval⟩
  · exact .inr ⟨hlen, zint64DecodeFrom_short hall hlen 0⟩

/-! ### Narrower integers -/

/-- A narrower decoder reads the value and fails when it does not fit. -/
theorem zint16Decode_eq (zbf : List UInt8) : zint16Decode zbf = (zint64Decode zbf).bind fun read ↦
      if read.1.toNat < 2 ^ 16 then .ok (read.1.toUInt16, read.2)
      else .error .messageDeserializationFailed := by
  cases hread : zint64Decode zbf with
  | error e =>
    rw [zint16Decode, Decoder.bind_of_error hread]
    rfl
  | ok p =>
    obtain ⟨val, rest⟩ := p
    have hfits : (0xFFFF : UInt64) < val ↔ ¬ val.toNat < 2 ^ 16 := by
      rw [UInt64.lt_iff_toNat_lt, Nat.not_lt]
      exact Iff.rfl
    rw [zint16Decode, Decoder.bind_of_ok hread, Except.bind]
    by_cases hval : val.toNat < 2 ^ 16
    · rw [if_neg fun h ↦ hfits.mp h hval, if_pos hval, Decoder.pure_apply]
    · rw [if_pos (hfits.mpr hval), if_neg hval]
      rfl

theorem zint32Decode_eq (zbf : List UInt8) : zint32Decode zbf = (zint64Decode zbf).bind fun read ↦
      if read.1.toNat < 2 ^ 32 then .ok (read.1.toUInt32, read.2)
      else .error .messageDeserializationFailed := by
  cases hread : zint64Decode zbf with
  | error e =>
    rw [zint32Decode, Decoder.bind_of_error hread]
    rfl
  | ok p =>
    obtain ⟨val, rest⟩ := p
    have hfits : (0xFFFFFFFF : UInt64) < val ↔ ¬ val.toNat < 2 ^ 32 := by
      rw [UInt64.lt_iff_toNat_lt, Nat.not_lt]
      exact Iff.rfl
    rw [zint32Decode, Decoder.bind_of_ok hread, Except.bind]
    by_cases hval : val.toNat < 2 ^ 32
    · rw [if_neg fun h ↦ hfits.mp h hval, if_pos hval, Decoder.pure_apply]
    · rw [if_pos (hfits.mpr hval), if_neg hval]
      rfl

/-- Integers are read back from as many bytes as `_z_zint_len` says, at most nine; on any bytes
the decoders stop behind nine of them at the latest, and the narrower ones refuse what does not
fit. -/
theorem zint_codec (v : UInt64) (zbf : List UInt8) :
    zint64Decode (zint64Encode v ++ zbf) = .ok (v, zbf) ∧
      (zint64Encode v).length = zintLen v ∧ zintLen v ≤ 9 ∧
      zint64DecodeWithReader uint8Decode zbf = zint64Decode zbf ∧
      ((∃ bytes rest val, zbf = bytes ++ rest ∧ bytes.length ≤ 9 ∧
          ∀ more, zint64Decode (bytes ++ more) = .ok (val, more)) ∨
        (zbf.length < 9 ∧ zint64Decode zbf = .error .messageDeserializationFailed)) ∧
      (zint16Decode zbf = (zint64Decode zbf).bind fun read ↦
        if read.1.toNat < 2 ^ 16 then .ok (read.1.toUInt16, read.2)
        else .error .messageDeserializationFailed) ∧
      zint32Decode zbf = (zint64Decode zbf).bind fun read ↦
        if read.1.toNat < 2 ^ 32 then .ok (read.1.toUInt32, read.2)
        else .error .messageDeserializationFailed :=
  ⟨zint64Decode_encode v zbf, length_zint64Encode v,
    (length_zint64Encode v).symm.trans_le (length_zint64Encode_le v),
    zint64DecodeWithReader_uint8Decode zbf, zint64Decode_total zbf, zint16Decode_eq zbf,
    zint32Decode_eq zbf⟩

end ZenohPico.Session
