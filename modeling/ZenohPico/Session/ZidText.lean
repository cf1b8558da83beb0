import ZenohPico.Session.ResponseMessage

/-!
The text of a Zenoh id (`_z_id_to_string` and `_z_id_from_string` of `src/utils/uuid.c`,
`_z_string_convert_bytes_le` of `src/collections/string.c`).

The text has two digits for each of the sixteen bytes of an id, the last byte in front, and is read
back as the id (`idFromString_toString`).
-/

namespace ZenohPico.Session

open Protocol List Option

/-- A digit of `_z_string_convert_bytes_le` -/
def hexDigit (n : UInt8) : UInt8 := if n < 10 then 0x30 + n else 0x57 + n

/-- The digits of a byte -/
def hexPair (b : UInt8) : List UInt8 := [hexDigit ((b &&& 0xF0) >>> 4), hexDigit (b &&& 0x0F)]

/-- `_z_string_convert_bytes_le` -/
def convertBytesLe (bs : List UInt8) : List UInt8 := bs.reverse.flatMap hexPair

/-- `_z_id_to_string` -/
def idToString (id : ZenohId) : List UInt8 := convertBytesLe id.id

/-- `isxdigit` and not `isupper` -/
def isLowerHex (c : UInt8) : Bool := 0x30 ≤ c ∧ c ≤ 0x39 ∨ 0x61 ≤ c ∧ c ≤ 0x66

/-- The value of a digit for `strtoul` -/
def hexValue (c : UInt8) : UInt8 := if c ≤ 0x39 then c - 0x30 else c - 0x57

/-- A byte of `_z_id_from_string` -/
def hexByte (high low : UInt8) : Option UInt8 :=
  if isLowerHex high && isLowerHex low then some (hexValue high * 16 + hexValue low) else none

/-- The bytes of a text, two digits each -/
def hexBytes : List UInt8 → Option (List UInt8)
  | high :: low :: str => do
    let byte ← hexByte high low
    let bytes ← hexBytes str
    some (byte :: bytes)
  | _ => some []

/-- `_z_id_from_string`. The last two digits are the first byte. -/
def idFromString (str : List UInt8) : ZenohId :=
  if str.length ≠ 16 * 2 then .ofBytes []
  else (hexBytes str).elim (.ofBytes []) fun bytes ↦ .ofBytes bytes.reverse

theorem hexByte_hexDigit (b : UInt8) :
    hexByte (hexDigit ((b &&& 0xF0) >>> 4)) (hexDigit (b &&& 0x0F)) = some b := by
  have hall : ∀ k : Fin 256, hexByte (hexDigit ((UInt8.ofNat k.val &&& 0xF0) >>> 4))
      (hexDigit (UInt8.ofNat k.val &&& 0x0F)) = some (UInt8.ofNat k.val) := by
    decide +kernel
  have hb := hall ⟨b.toNat, b.toNat_lt⟩
  rwa [UInt8.ofNat_toNat] at hb

theorem hexBytes_flatMap (bs : List UInt8) : hexBytes (bs.flatMap hexPair) = some bs := by
  induction bs with
  | nil => rfl
  | cons b bs ih =>
    rw [flatMap_cons, hexPair, cons_append, singleton_append, hexBytes, hexByte_hexDigit, ih]
    rfl

theorem ofBytes_id (id : ZenohId) : ZenohId.ofBytes id.id = id := by
  obtain ⟨bytes, hlen⟩ := id
  rw [ZenohId.ofBytes]
  congr 1
  exact take_left' hlen

theorem length_idToString (id : ZenohId) : (idToString id).length = 16 * 2 := by
  rw [idToString, convertBytesLe, length_flatMap]
  simp [hexPair, id.length_id]

/-- The text of an id is read back as the id. -/
theorem idFromString_toString (id : ZenohId) : idFromString (idToString id) = id := by
  rw [idFromString, if_neg (not_not.mpr (length_idToString id)), idToString, convertBytesLe,
    hexBytes_flatMap, elim_some, reverse_reverse, ofBytes_id]

/-- The text of an id has digits and the letters from 'a' to 'f'. -/
theorem isLowerHex_of_mem_idToString {id : ZenohId} {c : UInt8} (h : c ∈ idToString id) :
    isLowerHex c = true := by
  have hall : ∀ k : Fin 256, isLowerHex (hexDigit ((UInt8.ofNat k.val &&& 0xF0) >>> 4)) = true ∧
      isLowerHex (hexDigit (UInt8.ofNat k.val &&& 0x0F)) = true := by
    decide +kernel
  rw [idToString, convertBytesLe, mem_flatMap] at h
  obtain ⟨b, -, hc⟩ := h
  have hb := hall ⟨b.toNat, b.toNat_lt⟩
  rw [UInt8.ofNat_toNat] at hb
  rcases mem_cons.mp hc with rfl | hc
  · exact hb.1
  · rw [mem_singleton.mp hc]
    exact hb.2

theorem isLowerHex_hexDigit {c : UInt8} (h : isLowerHex c = true) :
    hexDigit (hexValue c) = c ∧ hexValue c < 16 := by
  have hall : ∀ k : Fin 256, isLowerHex (UInt8.ofNat k.val) = true →
      hexDigit (hexValue (UInt8.ofNat k.val)) = UInt8.ofNat k.val ∧
        hexValue (UInt8.ofNat k.val) < 16 := by
    decide +kernel
  have hc := hall ⟨c.toNat, c.toNat_lt⟩
  rw [UInt8.ofNat_toNat] at hc
  exact hc h

theorem hexPair_of_hexByte {high low b : UInt8} (h : hexByte high low = some b) :
    hexPair b = [high, low] := by
  have hall : ∀ i j : Fin 16,
      ((UInt8.ofNat i.val * 16 + UInt8.ofNat j.val) &&& 0xF0) >>> 4 = UInt8.ofNat i.val ∧
        (UInt8.ofNat i.val * 16 + UInt8.ofNat j.val) &&& 0x0F = UInt8.ofNat j.val := by
    decide +kernel
  obtain ⟨hdigits, hb⟩ := ite_none_right_eq_some.mp h
  rw [Bool.and_eq_true] at hdigits
  obtain ⟨hhigh, hhighlt⟩ := isLowerHex_hexDigit hdigits.1
  obtain ⟨hlow, hlowlt⟩ := isLowerHex_hexDigit hdigits.2
  have hparts := hall ⟨(hexValue high).toNat, hhighlt⟩ ⟨(hexValue low).toNat, hlowlt⟩
  simp only [UInt8.ofNat_toNat, some.inj hb] at hparts
  rw [hexPair, hparts.1, hparts.2, hhigh, hlow]

variable {str bs : List UInt8}

theorem flatMap_hexPair_of_hexBytes (h : hexBytes str = some bs)
    (heven : str.length = 2 * bs.length) : bs.flatMap hexPair = str := by
  fun_induction hexBytes str generalizing bs with
  | case1 high low str ih =>
    simp only [bind_eq_bind, bind_eq_some_iff, some.injEq] at h
    obtain ⟨b, hb, bytes, hbytes, rfl⟩ := h
    rw [length_cons, length_cons, length_cons] at heven
    rw [flatMap_cons, hexPair_of_hexByte hb, ih hbytes (by omega)]
    rfl
  | case2 str hshort =>
    cases h
    exact (length_eq_zero_iff.mp heven).symm

theorem length_of_hexBytes (h : hexBytes str = some bs) : bs.length = str.length / 2 := by
  fun_induction hexBytes str generalizing bs with
  | case1 high low str ih =>
    simp only [bind_eq_bind, bind_eq_some_iff, some.injEq] at h
    obtain ⟨b, -, bytes, hbytes, rfl⟩ := h
    rw [length_cons, ih hbytes, length_cons, length_cons]
    omega
  | case2 str hshort =>
    cases h
    rcases str with _ | ⟨c, _ | ⟨d, str⟩⟩
    · rfl
    · simp
    · exact absurd rfl (hshort c d str)

theorem id_ofBytes (h : bs.length = 16) : (ZenohId.ofBytes bs).id = bs :=
  take_left' h

/-- Nothing but the text of an id is read as the id. -/
theorem idFromString_iff {id : ZenohId} (hid : idCheck id = true) :
    idFromString str = id ↔ str = idToString id := by
  constructor
  · rintro rfl
    have hnonempty : idFromString str ≠ .ofBytes [] := of_decide_eq_true hid
    unfold idFromString at hnonempty ⊢
    split_ifs at hnonempty ⊢ with hlen
    · exact absurd rfl hnonempty
    · rw [not_not] at hlen
      cases hbytes : hexBytes str with
      | none =>
        rw [hbytes] at hnonempty
        exact absurd rfl hnonempty
      | some bytes =>
        have hcount : bytes.length = 16 := by
          rw [length_of_hexBytes hbytes, hlen]
        rw [elim_some, idToString, convertBytesLe, id_ofBytes (by simpa using hcount),
          reverse_reverse, flatMap_hexPair_of_hexBytes hbytes (by omega)]
  · rintro rfl
    exact idFromString_toString id

end ZenohPico.Session
