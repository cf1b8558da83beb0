import ZenohPico.Session.ZidText

/-!
The text of a UUID (`_z_uuid_to_bytes` of `src/utils/uuid.c`).

The canonical text has groups of eight, four, four, four and twelve digits. The reader counts the
dashes that it has passed by the digits that it has read. The last dash is counted two digits
before it comes, so that the tenth byte is read from its second digit and the dash
(`uuidToBytes_text`).
-/

namespace ZenohPico.Session

open Protocol List

/-- The value of a hexadecimal digit of either case -/
def xdigitValue (c : UInt8) : Option ℕ :=
  if 0x30 ≤ c ∧ c ≤ 0x39 then some (c - 0x30).toNat
  else if 0x61 ≤ c ∧ c ≤ 0x66 then some (c - 0x57).toNat
  else if 0x41 ≤ c ∧ c ≤ 0x46 then some (c - 0x37).toNat
  else none

/-- `strtoul` behind the prefix "0x": the digits up to the first character that is none -/
def strtoulHex (value : ℕ) : List UInt8 → ℕ
  | [] => value
  | c :: str => (xdigitValue c).elim value fun digit ↦ strtoulHex (16 * value + digit) str

/-- The dashes in front of the digit `i`, as `_z_uuid_to_bytes` counts them -/
def countDash (i nDash : ℕ) : ℕ :=
  if i = 8 ∨ i = 12 ∨ i = 16 ∨ i = 18 then nDash + 1 else nDash

/-- The loop of `_z_uuid_to_bytes`, which takes two digits for a byte -/
def uuidToBytesFrom (uuidStr : List UInt8) : ℕ → ℕ → ℕ → List UInt8
  | 0, _, _ => []
  | left + 1, i, nDash =>
    let val := [uuidStr.getD (i + countDash i nDash) 0, uuidStr.getD (i + 1 + countDash i nDash) 0]
    .ofNat (strtoulHex 0 val) :: uuidToBytesFrom uuidStr left (i + 2) (countDash i nDash)

/-- `_z_uuid_to_bytes` -/
def uuidToBytes (uuidStr : List UInt8) : List UInt8 := uuidToBytesFrom uuidStr 16 0 0

/-- A group of digits -/
def uuidGroup (bs : List UInt8) : List UInt8 := bs.flatMap hexPair

/-- The canonical text of a UUID -/
def uuidText (bs : List UInt8) : List UInt8 :=
  uuidGroup (bs.take 4) ++ 0x2D :: uuidGroup ((bs.drop 4).take 2) ++
    0x2D :: uuidGroup ((bs.drop 6).take 2) ++ 0x2D :: uuidGroup ((bs.drop 8).take 2) ++
      0x2D :: uuidGroup (bs.drop 10)

/-- Two digits are read as their byte, and a digit in front of a dash as itself. -/
theorem strtoulHex_digits (b : UInt8) :
    UInt8.ofNat (strtoulHex 0 [hexDigit ((b &&& 0xF0) >>> 4), hexDigit (b &&& 0x0F)]) = b ∧
      UInt8.ofNat (strtoulHex 0 [hexDigit (b &&& 0x0F), 0x2D]) = b &&& 0x0F := by
  have hall : ∀ k : Fin 256,
      UInt8.ofNat (strtoulHex 0 [hexDigit ((UInt8.ofNat k.val &&& 0xF0) >>> 4),
        hexDigit (UInt8.ofNat k.val &&& 0x0F)]) = UInt8.ofNat k.val ∧
      UInt8.ofNat (strtoulHex 0 [hexDigit (UInt8.ofNat k.val &&& 0x0F), 0x2D]) =
        UInt8.ofNat k.val &&& 0x0F := by
    decide +kernel
  have hb := hall ⟨b.toNat, b.toNat_lt⟩
  rwa [UInt8.ofNat_toNat] at hb

/-- Of the tenth byte, only the second digit is read. -/
theorem uuidToBytes_text (id : ZenohId) :
    uuidToBytes (uuidText id.id) = id.id.set 9 (id.id.getD 9 0 &&& 0x0F) := by
  have hcons {bs : List UInt8} {n : ℕ} (h : bs.length = n + 1) :
      ∃ b tail, bs = b :: tail ∧ tail.length = n := by
    obtain ⟨b, tail, rfl⟩ := exists_cons_of_length_eq_add_one h
    exact ⟨b, tail, rfl, Nat.succ.inj h⟩
  obtain ⟨bs, hlen⟩ := id
  obtain ⟨b₀, bs, rfl, h₀⟩ := hcons hlen
  obtain ⟨b₁, bs, rfl, h₁⟩ := hcons h₀
  obtain ⟨b₂, bs, rfl, h₂⟩ := hcons h₁
  obtain ⟨b₃, bs, rfl, h₃⟩ := hcons h₂
  obtain ⟨b₄, bs, rfl, h₄⟩ := hcons h₃
  obtain ⟨b₅, bs, rfl, h₅⟩ := hcons h₄
  obtain ⟨b₆, bs, rfl, h₆⟩ := hcons h₅
  obtain ⟨b₇, bs, rfl, h₇⟩ := hcons h₆
  obtain ⟨b₈, bs, rfl, h₈⟩ := hcons h₇
  obtain ⟨b₉, bs, rfl, h₉⟩ := hcons h₈
  obtain ⟨b₁₀, bs, rfl, h₁₀⟩ := hcons h₉
  obtain ⟨b₁₁, bs, rfl, h₁₁⟩ := hcons h₁₀
  obtain ⟨b₁₂, bs, rfl, h₁₂⟩ := hcons h₁₁
  obtain ⟨b₁₃, bs, rfl, h₁₃⟩ := hcons h₁₂
  obtain ⟨b₁₄, bs, rfl, h₁₄⟩ := hcons h₁₃
  obtain ⟨b₁₅, bs, rfl, h₁₅⟩ := hcons h₁₄
  obtain rfl := length_eq_zero_iff.mp h₁₅
  simp [uuidToBytes, uuidToBytesFrom, countDash, uuidText, uuidGroup, hexPair, strtoulHex_digits]

theorem and_low_eq_iff (b : UInt8) : b &&& 0x0F = b ↔ b < 16 := by
  have hall : ∀ k : Fin 256,
      UInt8.ofNat k.val &&& 0x0F = UInt8.ofNat k.val ↔ UInt8.ofNat k.val < 16 := by
    decide +kernel
  have hb := hall ⟨b.toNat, b.toNat_lt⟩
  rwa [UInt8.ofNat_toNat] at hb

/-- The text of a UUID is read back if the tenth byte has no first digit but zero; the text of an
id always is. -/
theorem uuid_roundTrips_iff (uuid zid : ZenohId) : (uuidToBytes (uuidText uuid.id) = uuid.id ∧
      (idCheck zid = true → idFromString (idToString zid) = zid)) ↔ uuid.id.getD 9 0 < 16 := by
  have hlen : 9 < uuid.id.length := by
    rw [uuid.length_id]
    decide
  have hget : uuid.id.getD 9 0 = uuid.id[9] := getD_eq_getElem _ _ hlen
  rw [and_iff_left fun _ ↦ idFromString_toString zid, uuidToBytes_text, hget, ← and_low_eq_iff]
  constructor
  · intro h
    have hnine := congrArg (fun bs ↦ bs.getD 9 0) h
    simpa [hlen] using hnine
  · intro h
    rw [h, set_getElem_self]

/-- A UUID whose tenth byte is 0x10 -/
theorem uuidToBytes_tenth_byte :
    uuidToBytes (uuidText (ZenohId.ofBytes [0, 0, 0, 0, 0, 0, 0, 0, 0, 0x10]).id) ≠
      (ZenohId.ofBytes [0, 0, 0, 0, 0, 0, 0, 0, 0, 0x10]).id := by
  decide +kernel

end ZenohPico.Session
