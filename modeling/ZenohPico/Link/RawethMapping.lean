import ZenohPico.Foundations.Separators
import Mathlib.Data.List.GetD
import Mathlib.Data.List.TakeWhile
import Mathlib.Tactic.Common
import Mathlib.Tactic.IntervalCases

/-!
The mapping table of a raw-ethernet link (`src/transport/raweth/link.c`).

The configuration lists entries between commas: a key expression, a hardware address and a VLAN id
with a separator between them. One pass over the text checks the entries and counts them, a second
one reads them into an array of that length. Positions are offsets into an entry, and a string ends
with a NUL byte behind its last one; what reads behind that byte has passed the end.
-/

open List Option

namespace ZenohPico.Link

/-! ### The C library -/

/-- `RAWETH_CFG_TUPLE_SEPARATOR` -/
def tupleSeparator : UInt8 := 0x23

/-- The one byte of `RAWETH_CFG_LIST_SEPARATOR` -/
def listSeparator : UInt8 := 0x2C

/-- `strchr` from an offset on -/
def strchr (text : List UInt8) (start : ℕ) (c : UInt8) : Option ℕ :=
  ((text.drop start).findIdx? (· == c)).map (start + ·)

/-- The calls of `strtok` until there is no token: runs of bytes other than the separator -/
def strtokTokens (text : List UInt8) : List (List UInt8) :=
  let start := text.dropWhile (· == listSeparator)
  if _hnone : start = [] then []
  else start.takeWhile (· != listSeparator) ::
    strtokTokens ((start.dropWhile (· != listSeparator)).drop 1)
termination_by text.length
decreasing_by
  have hskip : (text.dropWhile (· == listSeparator)).length ≤ text.length :=
    (dropWhile_suffix _).length_le
  have hrest : ((text.dropWhile (· == listSeparator)).dropWhile (· != listSeparator)).length ≤
      (text.dropWhile (· == listSeparator)).length := (dropWhile_suffix _).length_le
  rw [length_drop]
  have hpos : 0 < (text.dropWhile (· == listSeparator)).length := length_pos_iff.mpr _hnone
  omega

/-- A hexadecimal digit, as the address check and `strtol` know it -/
def isHexDigit (c : UInt8) : Bool :=
  (0x30 ≤ c && c ≤ 0x39) || (0x41 ≤ c && c ≤ 0x46) || (0x61 ≤ c && c ≤ 0x66)

/-- The value of a hexadecimal digit -/
def hexValue (c : UInt8) : ℕ :=
  if c ≤ 0x39 then c.toNat - 0x30 else if c ≤ 0x46 then c.toNat - 0x41 + 10 else c.toNat - 0x61 + 10

/-- The number that hexadecimal digits stand for, behind others -/
def hexFrom (value : ℕ) (digits : List UInt8) : ℕ :=
  digits.foldl (fun value c ↦ value * 16 + hexValue c) value

/-- What `strtol` skips before a number -/
def isBlank (c : UInt8) : Bool := c == 0x20 || (0x09 ≤ c && c ≤ 0x0D)

/-- The digits behind the `0x` that may stand before them -/
def hexDigits (text : List UInt8) : List UInt8 :=
  if text.head? = some 0x30 ∧ (text[1]? = some 0x78 ∨ text[1]? = some 0x58) ∧
      (text.drop 2).head?.any isHexDigit then (text.drop 2).takeWhile isHexDigit
  else text.takeWhile isHexDigit

/-- `strtol` with base sixteen and 64 bits -/
def strtolHex (text : List UInt8) : ℤ :=
  let text := text.dropWhile isBlank
  let negative := text.head? == some 0x2D
  let unsigned := if text.head? = some 0x2D ∨ text.head? = some 0x2B then text.tail else text
  let value := hexFrom 0 (hexDigits unsigned)
  if negative then max (-value) (-0x8000000000000000) else min value 0x7FFFFFFFFFFFFFFF

/-! ### Addresses -/

/-- `_z_valid_address_raweth_inner` -/
def validAddressRaweth (address : List UInt8) : Bool :=
  address.length == 17 &&
    (List.range 17).all fun i ↦
      if i % 3 = 2 then address[i]? == some 0x3A else address[i]?.any isHexDigit

/-- `_z_parse_address_raweth` on the bytes from the address to the end of the memory it is in,
or nothing where it reads behind that end -/
def parseAddressRaweth (memory : List UInt8) : Option (List UInt8) :=
  (List.range 6).mapM fun i ↦ do
    let high ← memory[i * 3]?
    let low ← memory[i * 3 + 1]?
    pure (UInt8.ofNat (strtolHex [high, low] % 256).toNat)

/-! ### Entries -/

/-- `_zp_raweth_mapping_entry_t`, with the VLAN tag where `_has_vlan` is set -/
structure MappingEntry where
  keyexpr : List UInt8
  dmac : List UInt8
  vlan : Option UInt16
deriving DecidableEq, Repr

/-- How reading a mapping fails. -/
inductive MappingFault
  | generic
  | outOfMemory
  | passedEnd
deriving DecidableEq, Repr

/-- `_z_valid_mapping_entry` -/
def validMappingEntry (entry : List UInt8) : Bool :=
  let entryEnd := entry.length - 1
  match strchr entry 0 tupleSeparator with
  | none => false
  | some keEnd =>
    if entryEnd < keEnd + 1 then false
    else
      match strchr entry (keEnd + 1) tupleSeparator with
      | none => false
      | some addrEnd => validAddressRaweth ((entry.take addrEnd).drop (keEnd + 1))

/-- `_z_get_mapping_entry` where the copy of the key expression finds memory. The address is read
from the entry with a NUL byte in the place of the second separator. -/
def getMappingEntry (entry : List UInt8) : Except MappingFault MappingEntry :=
  let entryEnd := entry.length - 1
  match strchr entry 0 tupleSeparator with
  | none => .error .passedEnd
  | some keEnd =>
    -- an empty copy is a null string
    if keEnd = 0 then .error .outOfMemory
    else
      match strchr entry (keEnd + 1) tupleSeparator with
      | none => .error .passedEnd
      | some addrEnd =>
        match parseAddressRaweth (((entry.set addrEnd 0).drop (keEnd + 1)) ++ [0]) with
        | none => .error .passedEnd
        | some dmac =>
          .ok
            { keyexpr := entry.take keEnd
              dmac := dmac
              vlan :=
                if entryEnd ≤ addrEnd + 1 then none
                else some (.ofNat (strtolHex (entry.drop (addrEnd + 1)) % 0x10000).toNat) }

/-! ### The table -/

/-- The loop of `_z_valid_mapping_raweth` -/
def validMappingFrom : List (List UInt8) → ℕ → ℕ
  | [], size => size
  | entry :: entries, size =>
    if validMappingEntry entry then validMappingFrom entries (size + 1) else 0

/-- `_z_valid_mapping_raweth`; `none` is a configuration without a mapping. -/
def validMappingRaweth : Option (List UInt8) → ℕ
  | none => 0
  | some mapping => validMappingFrom (strtokTokens mapping) 0

/-- The loop of `_z_get_mapping_raweth`, with the number of places left in the array -/
def getMappingFrom : ℕ → List (List UInt8) → Except MappingFault (List MappingEntry)
  | 0, _ => .ok []
  | _ + 1, [] => .ok []
  | size + 1, entry :: entries => do
    let first ← getMappingEntry entry
    let rest ← getMappingFrom size entries
    pure (first :: rest)

/-- `_z_get_mapping_raweth` into an array that finds memory -/
def getMappingRaweth (mapping : Option (List UInt8)) (size : ℕ) :
    Except MappingFault (List MappingEntry) :=
  match mapping with
  | none => .error .generic
  | some mapping =>
    if size = 0 then .error .outOfMemory else getMappingFrom size (strtokTokens mapping)

/-! ### Searching for separators -/

section Search

variable {c : UInt8} {before word behind : List UInt8}

theorem findIdx?_of_not_mem (h : c ∉ word) : word.findIdx? (· == c) = none := by
  refine List.findIdx?_eq_none_iff.mpr fun d hd ↦ ?_
  simpa using fun heq : d = c ↦ h (heq ▸ hd)

theorem strchr_of_not_mem (h : c ∉ word) : strchr (before ++ word) before.length c = none := by
  rw [strchr, drop_left, findIdx?_of_not_mem h]
  rfl

theorem strchr_append (h : c ∉ word) : strchr (before ++ (word ++ c :: behind)) before.length c =
      some (before.length + word.length) := by
  rw [strchr, drop_left, List.findIdx?_append, findIdx?_of_not_mem h, none_or,
    List.findIdx?_cons, if_pos (beq_self_eq_true c)]
  simp

theorem strchr_lt {text : List UInt8} {start i : ℕ} (h : strchr text start c = some i) :
    start ≤ i ∧ i < text.length := by
  obtain ⟨j, hj, rfl⟩ := map_eq_some_iff.mp h
  obtain ⟨hlt, -⟩ := List.findIdx?_eq_some_iff_getElem.mp hj
  rw [length_drop] at hlt
  omega

end Search

/-! ### Addresses that pass the check -/

section Address

variable {mac : List UInt8}

theorem validAddressRaweth_iff : validAddressRaweth mac = true ↔ mac.length = 17 ∧
    ∀ i < 17, if i % 3 = 2 then mac[i]? = some 0x3A else mac[i]?.any isHexDigit = true := by
  rw [validAddressRaweth, Bool.and_eq_true, beq_iff_eq, List.all_eq_true]
  refine and_congr_right fun _ ↦ forall_congr' fun i ↦ ?_
  rw [mem_range]
  refine imp_congr_right fun _ ↦ ?_
  split <;> simp

/-- An address is of hexadecimal digits and colons. -/
theorem mem_validAddress (h : validAddressRaweth mac = true) {c : UInt8} (hc : c ∈ mac) :
    isHexDigit c = true ∨ c = 0x3A := by
  obtain ⟨hlen, hall⟩ := validAddressRaweth_iff.mp h
  obtain ⟨i, hi⟩ := mem_iff_getElem?.mp hc
  have hlt : i < 17 := hlen ▸ (List.getElem?_eq_some_iff.mp hi).1
  have hplace := hall i hlt
  split at hplace
  · exact .inr (some.inj (hi.symm.trans hplace))
  · exact .inl (by simpa [hi] using hplace)

theorem not_mem_validAddress (h : validAddressRaweth mac = true) {c : UInt8}
    (hhex : isHexDigit c = false) (hcolon : c ≠ 0x3A) : c ∉ mac := by
  intro hc
  obtain hdigit | heq := mem_validAddress h hc
  · exact Bool.false_ne_true (hhex.symm.trans hdigit)
  · exact hcolon heq

/-- The bytes that an address stands for -/
def addressBytes (mac : List UInt8) : List UInt8 :=
  (List.range 6).map fun i ↦
    UInt8.ofNat (hexValue (mac.getD (i * 3) 0) * 16 + hexValue (mac.getD (i * 3 + 1) 0))

theorem hexValue_lt {c : UInt8} (h : isHexDigit c = true) : hexValue c < 16 := by
  have hall : ∀ n : Fin 256, isHexDigit (UInt8.ofNat n.val) = true →
      hexValue (UInt8.ofNat n.val) < 16 := by decide +kernel
  have hc := hall ⟨c.toNat, c.toNat_lt⟩
  rw [UInt8.ofNat_toNat] at hc
  exact hc h

/-- What `strtol` looks at before the digits are no digits themselves. -/
theorem isHexDigit_plain {c : UInt8} (h : isHexDigit c = true) :
    isBlank c = false ∧ c ≠ 0x2D ∧ c ≠ 0x2B ∧ c ≠ 0x78 ∧ c ≠ 0x58 := by
  have hall : ∀ n : Fin 256, isHexDigit (UInt8.ofNat n.val) = true →
      isBlank (UInt8.ofNat n.val) = false ∧ UInt8.ofNat n.val ≠ 0x2D ∧
        UInt8.ofNat n.val ≠ 0x2B ∧ UInt8.ofNat n.val ≠ 0x78 ∧ UInt8.ofNat n.val ≠ 0x58 := by
    decide +kernel
  have hc := hall ⟨c.toNat, c.toNat_lt⟩
  rw [UInt8.ofNat_toNat] at hc
  exact hc h

/-- `strtol` reads a text of digits as their number. -/
theorem strtolHex_of_digits {digits : List UInt8} (hdigits : ∀ c ∈ digits, isHexDigit c = true)
    (hsmall : hexFrom 0 digits < 2 ^ 63) : strtolHex digits = hexFrom 0 digits := by
  have hblank : digits.dropWhile isBlank = digits := by
    cases digits with
    | nil => rfl
    | cons c digits =>
      rw [dropWhile_cons_of_neg]
      simp [(isHexDigit_plain (hdigits c mem_cons_self)).1]
  have hhead : digits.head? ≠ some 0x2D ∧ digits.head? ≠ some 0x2B := by
    cases digits with
    | nil => exact ⟨(by simp), (by simp)⟩
    | cons c digits =>
      obtain ⟨-, hminus, hplus, -, -⟩ := isHexDigit_plain (hdigits c mem_cons_self)
      exact ⟨fun h ↦ hminus (some.inj h), fun h ↦ hplus (some.inj h)⟩
  have hprefixed : ¬ (digits.head? = some 0x30 ∧ (digits[1]? = some 0x78 ∨ digits[1]? = some 0x58) ∧
      (digits.drop 2).head?.any isHexDigit) := by
    rintro ⟨-, hx | hx, -⟩
    · exact (isHexDigit_plain (hdigits _ (mem_of_getElem? hx))).2.2.2.1 rfl
    · exact (isHexDigit_plain (hdigits _ (mem_of_getElem? hx))).2.2.2.2 rfl
  have hread : hexDigits digits = digits := by
    rw [hexDigits, if_neg hprefixed]
    exact takeWhile_eq_self_iff.mpr hdigits
  have hnegative : (digits.head? == some 0x2D) = false := by simpa using hhead.1
  have hsign : ¬ (digits.head? = some 0x2D ∨ digits.head? = some 0x2B) :=
    not_or.mpr hhead
  rw [strtolHex, hblank, hnegative, if_neg Bool.false_ne_true, if_neg hsign, hread]
  omega

theorem strtolHex_pair {high low : UInt8} (hhigh : isHexDigit high = true)
    (hlow : isHexDigit low = true) :
    strtolHex [high, low] = (hexValue high * 16 + hexValue low : ℕ) := by
  have hvalue : hexFrom 0 [high, low] = hexValue high * 16 + hexValue low := by
    simp [hexFrom]
  have hlt := hexValue_lt hhigh
  have hlt' := hexValue_lt hlow
  rw [strtolHex_of_digits, hvalue]
  · intro c hc
    obtain rfl | hc := mem_cons.mp hc
    · exact hhigh
    · rw [mem_singleton.mp hc]
      exact hlow
  · rw [hvalue]
    omega

theorem mapM_eq_some_map {α β : Type} {f : α → Option β} {g : α → β} {l : List α}
    (h : ∀ a ∈ l, f a = some (g a)) : l.mapM f = some (l.map g) := by
  induction l with
  | nil => rfl
  | cons a l ih =>
    rw [mapM_cons, h a mem_cons_self, ih fun b hb ↦ h b (mem_cons_of_mem _ hb)]
    rfl

/-- An address that passes the check is read as its bytes, whatever is behind it. -/
theorem parseAddressRaweth_append (h : validAddressRaweth mac = true) (behind : List UInt8) :
    parseAddressRaweth (mac ++ behind) = some (addressBytes mac) := by
  obtain ⟨hlen, hall⟩ := validAddressRaweth_iff.mp h
  have hdigit {i : ℕ} (hi : i < 17) (hplace : i % 3 ≠ 2) :
      (mac ++ behind)[i]? = some (mac.getD i 0) ∧ isHexDigit (mac.getD i 0) = true := by
    have hlt : i < mac.length := hlen ▸ hi
    have hcheck := hall i hi
    rw [if_neg hplace, List.getElem?_eq_getElem hlt] at hcheck
    rw [List.getElem?_append_left hlt, List.getElem?_eq_getElem hlt, getD_eq_getElem _ _ hlt]
    exact ⟨rfl, hcheck⟩
  rw [parseAddressRaweth, addressBytes]
  have hbyte : ∀ i < 6, (do
      let high ← (mac ++ behind)[i * 3]?
      let low ← (mac ++ behind)[i * 3 + 1]?
      pure (UInt8.ofNat (strtolHex [high, low] % 256).toNat) : Option UInt8) =
      some (UInt8.ofNat (hexValue (mac.getD (i * 3) 0) * 16 +
        hexValue (mac.getD (i * 3 + 1) 0))) := by
    intro i hi
    obtain ⟨hhigh, hhexHigh⟩ := hdigit (i := i * 3) (by omega) (by omega)
    obtain ⟨hlow, hhexLow⟩ := hdigit (i := i * 3 + 1) (by omega) (by omega)
    have hlt := hexValue_lt hhexHigh
    have hlt' := hexValue_lt hhexLow
    have hvalue : ((hexValue (mac.getD (i * 3) 0) * 16 + hexValue (mac.getD (i * 3 + 1) 0) : ℕ) %
        256 : ℤ).toNat =
        hexValue (mac.getD (i * 3) 0) * 16 + hexValue (mac.getD (i * 3 + 1) 0) := by
      omega
    rw [hhigh, hlow]
    change some _ = _
    rw [strtolHex_pair hhexHigh hhexLow, hvalue]
  exact mapM_eq_some_map fun i hi ↦ hbyte i (mem_range.mp hi)

end Address

/-! ### Well-formed entries -/

/-- An entry as it is written: a key expression, an address, and behind another separator, if
there is one, the digits of a VLAN id or nothing -/
structure ListedMapping where
  keyexpr : List UInt8
  mac : List UInt8
  vlan : Option (List UInt8)
  keyexpr_ne_nil : keyexpr ≠ []
  keyexpr_free : tupleSeparator ∉ keyexpr ∧ listSeparator ∉ keyexpr
  mac_valid : validAddressRaweth mac = true
  vlan_digits : ∀ digits ∈ vlan, ∀ c ∈ digits, isHexDigit c = true
  vlan_small : ∀ digits ∈ vlan, hexFrom 0 digits < 2 ^ 16

namespace ListedMapping

variable (e : ListedMapping)

/-- What stands behind the address -/
def tail : List UInt8 :=
  match e.vlan with
  | none => []
  | some digits => tupleSeparator :: digits

/-- The text of the entry -/
def text : List UInt8 := e.keyexpr ++ tupleSeparator :: (e.mac ++ e.tail)

/-- The digits of the VLAN id -/
def digits : List UInt8 := e.vlan.getD []

/-- The entry that is meant, with the VLAN id if one is written -/
def entry : MappingEntry where
  keyexpr := e.keyexpr
  dmac := addressBytes e.mac
  vlan := if e.digits = [] then none else some (.ofNat (hexFrom 0 e.digits))

/-- The entry has its second separator, and its VLAN id does not have one digit only. -/
def Readable : Prop := e.vlan.isSome = true ∧ e.digits.length ≠ 1

instance : Decidable e.Readable := inferInstanceAs (Decidable (_ ∧ _))

theorem isHexDigit_of_mem_digits {c : UInt8} (hc : c ∈ e.digits) : isHexDigit c = true := by
  rw [digits] at hc
  cases hvlan : e.vlan with
  | none => simp [hvlan] at hc
  | some ds =>
    rw [hvlan, getD_some] at hc
    exact e.vlan_digits ds hvlan c hc

theorem hexFrom_digits_lt : hexFrom 0 e.digits < 2 ^ 16 := by
  rw [digits]
  cases hvlan : e.vlan with
  | none => decide
  | some ds => exact e.vlan_small ds hvlan

theorem tail_of_isSome (h : e.vlan.isSome = true) : e.tail = tupleSeparator :: e.digits := by
  obtain ⟨ds, hvlan⟩ := isSome_iff_exists.mp h
  rw [tail, digits, hvlan]
  rfl

theorem tail_of_isNone (h : ¬ e.vlan.isSome = true) : e.tail = [] := by
  rw [tail, not_isSome_iff_eq_none.mp h]

theorem length_mac : e.mac.length = 17 := (validAddressRaweth_iff.mp e.mac_valid).1

theorem not_mem_mac : tupleSeparator ∉ e.mac :=
  not_mem_validAddress e.mac_valid (by decide) (by decide)

/-- The first separator ends the key expression. -/
theorem strchr_keyexpr : strchr e.text 0 tupleSeparator = some e.keyexpr.length := by
  have h := @strchr_append tupleSeparator [] e.keyexpr (e.mac ++ e.tail) e.keyexpr_free.1
  rwa [nil_append, length_nil, Nat.zero_add] at h

/-- What stands before the address -/
def lead : List UInt8 := e.keyexpr ++ [tupleSeparator]

theorem text_eq : e.text = e.lead ++ (e.mac ++ e.tail) := by
  rw [text, lead, append_assoc]
  rfl

theorem length_lead : e.lead.length = e.keyexpr.length + 1 := by
  rw [lead, length_append, length_singleton]

/-- The second one ends the address, if it is there. -/
theorem strchr_mac (h : e.vlan.isSome = true) :
    strchr e.text (e.keyexpr.length + 1) tupleSeparator = some (e.keyexpr.length + 1 + 17) := by
  have hfind := @strchr_append tupleSeparator e.lead e.mac e.digits e.not_mem_mac
  rwa [e.length_lead, e.length_mac, ← e.tail_of_isSome h, ← e.text_eq] at hfind

theorem strchr_mac_of_isNone (h : ¬ e.vlan.isSome = true) :
    strchr e.text (e.keyexpr.length + 1) tupleSeparator = none := by
  have hfind := @strchr_of_not_mem tupleSeparator e.lead e.mac e.not_mem_mac
  rw [e.length_lead] at hfind
  rw [e.text_eq, e.tail_of_isNone h, append_nil, hfind]

theorem length_text : e.text.length = e.keyexpr.length + 1 + 17 + e.tail.length := by
  rw [e.text_eq, length_append, length_append, e.length_lead, e.length_mac, ← Nat.add_assoc]

/-- The check takes an entry exactly when it has its second separator. -/
theorem validMappingEntry_text : validMappingEntry e.text = e.vlan.isSome := by
  have hlen := e.length_text
  rw [validMappingEntry, e.strchr_keyexpr]
  dsimp only
  rw [if_neg (by omega)]
  by_cases h : e.vlan.isSome = true
  · have hcut : (e.text.take (e.keyexpr.length + 1 + 17)).drop (e.keyexpr.length + 1) = e.mac := by
      rw [e.text_eq, ← e.length_lead, ← e.length_mac, take_append, drop_append]
      simp
    rw [e.strchr_mac h]
    dsimp only
    rw [hcut, e.mac_valid, h]
  · rw [e.strchr_mac_of_isNone h]
    exact (Bool.not_eq_true _ |>.mp h).symm

/-- An entry with its second separator is read, but for a VLAN id of one digit. -/
theorem getMappingEntry_text (h : e.vlan.isSome = true) :
    getMappingEntry e.text = .ok { e.entry with
      vlan := if e.digits.length ≤ 1 then none else some (.ofNat (hexFrom 0 e.digits)) } := by
  have hlen := e.length_text
  have htail := e.tail_of_isSome h
  have hpos := length_pos_iff.mpr e.keyexpr_ne_nil
  rw [htail, length_cons] at hlen
  have hmemory : ((e.text.set (e.keyexpr.length + 1 + 17) 0).drop (e.keyexpr.length + 1)) ++ [0] =
      e.mac ++ (0 :: (e.digits ++ [0])) := by
    rw [e.text_eq, htail, ← e.length_lead, ← e.length_mac, set_append_right _ _ (by omega),
      Nat.add_sub_cancel_left, set_append_right _ _ (Nat.le_refl _), Nat.sub_self,
      drop_left, set_cons_zero]
    simp
  have hbehind : e.text.drop (e.keyexpr.length + 1 + 17 + 1) = e.digits := by
    have hassoc : e.text = e.lead ++ e.mac ++ [tupleSeparator] ++ e.digits := by
      rw [e.text_eq, htail]
      simp
    have hfront : (e.lead ++ e.mac ++ [tupleSeparator]).length = e.keyexpr.length + 1 + 17 + 1 := by
      simp [e.length_lead, e.length_mac]
    rw [hassoc, ← hfront, drop_left]
  have hkeyexpr : e.text.take e.keyexpr.length = e.keyexpr := take_left
  have hvalue := e.hexFrom_digits_lt
  have hnumber : (strtolHex e.digits % 0x10000).toNat = hexFrom 0 e.digits := by
    rw [strtolHex_of_digits (fun c ↦ e.isHexDigit_of_mem_digits) (by omega)]
    omega
  rw [getMappingEntry, e.strchr_keyexpr]
  dsimp only
  rw [if_neg (by omega), e.strchr_mac h]
  dsimp only
  rw [hmemory, parseAddressRaweth_append e.mac_valid]
  dsimp only
  rw [hbehind, hkeyexpr, hnumber, hlen]
  by_cases hdigits : e.digits.length ≤ 1
  · rw [if_pos hdigits, if_pos (by omega)]
    rfl
  · rw [if_neg hdigits, if_neg (by omega)]
    rfl

end ListedMapping

/-! ### Lists of entries -/

variable {entries : List (List UInt8)}

section Tokens

variable {token : List UInt8} {tokens : List (List UInt8)}

/-- A token is cut off the front, with the separator behind it if there is one. -/
theorem strtokTokens_of_token (hne : token ≠ []) (hfree : listSeparator ∉ token)
    {behind : List UInt8} (hbehind : behind = [] ∨ behind.head? = some listSeparator) :
    strtokTokens (token ++ behind) = token :: strtokTokens (behind.drop 1) := by
  have hall : ∀ c ∈ token, (c != listSeparator) = true := fun c hc ↦ by
    simpa using fun heq : c = listSeparator ↦ hfree (heq ▸ hc)
  have hstart : (token ++ behind).dropWhile (· == listSeparator) = token ++ behind := by
    obtain ⟨c, rest, rfl⟩ := exists_cons_of_ne_nil hne
    have hc := hall c mem_cons_self
    rw [cons_append, dropWhile_cons_of_neg]
    simpa using hc
  have htake : behind.takeWhile (· != listSeparator) = [] ∧
      behind.dropWhile (· != listSeparator) = behind := by
    cases behind with
    | nil => exact ⟨rfl, rfl⟩
    | cons c behind =>
      obtain hnil | hhead := hbehind
      · cases hnil
      · obtain rfl : c = listSeparator := some.inj hhead
        exact ⟨by simp, by simp⟩
  have hstop : (token ++ behind).takeWhile (· != listSeparator) = token ∧
      (token ++ behind).dropWhile (· != listSeparator) = behind := by
    rw [takeWhile_append_of_pos hall, dropWhile_append_of_pos hall, htake.1, htake.2, append_nil]
    exact ⟨rfl, rfl⟩
  rw [strtokTokens, hstart, dif_neg (by simp [hne]), hstop.1, hstop.2]

/-- The tokens of a list are what stands between its separators. -/
theorem strtokTokens_intercalate (h : ∀ token ∈ tokens, token ≠ [] ∧ listSeparator ∉ token) :
    strtokTokens ([listSeparator].intercalate tokens) = tokens := by
  induction tokens with
  | nil =>
    rw [strtokTokens]
    rfl
  | cons token tokens ih =>
    obtain ⟨hne, hfree⟩ := h token mem_cons_self
    have hrest := ih fun t ht ↦ h t (mem_cons_of_mem _ ht)
    cases tokens with
    | nil =>
      have hsingle : [listSeparator].intercalate [token] = token ++ [] := by simp
      rw [hsingle, strtokTokens_of_token hne hfree (.inl rfl), drop_nil]
      exact congrArg _ hrest
    | cons next tokens =>
      rw [intercalate_cons_cons, append_assoc, strtokTokens_of_token hne hfree (.inr rfl)]
      exact congrArg _ hrest

/-- The check counts the entries if it takes all of them. -/
theorem validMappingFrom_of_forall (size : ℕ)
    (h : ∀ entry ∈ entries, validMappingEntry entry = true) :
    validMappingFrom entries size = size + entries.length := by
  induction entries generalizing size with
  | nil => rfl
  | cons entry entries ih =>
    rw [validMappingFrom, if_pos (h entry mem_cons_self),
      ih _ fun t ht ↦ h t (mem_cons_of_mem _ ht), length_cons, Nat.add_assoc, Nat.add_comm 1]

theorem valid_of_validMappingFrom {size : ℕ} (h : validMappingFrom entries size ≠ 0) :
    ∀ entry ∈ entries, validMappingEntry entry = true := by
  induction entries generalizing size with
  | nil => exact fun _ hmem ↦ absurd hmem not_mem_nil
  | cons entry entries ih =>
    rw [validMappingFrom] at h
    split at h
    · next hvalid =>
      intro t ht
      obtain rfl | ht := mem_cons.mp ht
      · exact hvalid
      · exact ih h t ht
    · exact absurd rfl h

end Tokens

/-! ### What the check takes -/

/-- An entry that the check takes is read without passing its end. -/
theorem getMappingEntry_ne_passedEnd {entry : List UInt8}
    (h : validMappingEntry entry = true) : getMappingEntry entry ≠ .error .passedEnd := by
  rw [validMappingEntry] at h
  rw [getMappingEntry]
  cases hke : strchr entry 0 tupleSeparator with
  | none =>
    rw [hke] at h
    exact absurd h Bool.false_ne_true
  | some keEnd =>
    rw [hke] at h
    dsimp only at h ⊢
    split at h
    · exact absurd h Bool.false_ne_true
    · cases haddr : strchr entry (keEnd + 1) tupleSeparator with
      | none =>
        rw [haddr] at h
        exact absurd h Bool.false_ne_true
      | some addrEnd =>
        rw [haddr] at h
        dsimp only at h ⊢
        obtain ⟨hstart, hend⟩ := strchr_lt haddr
        -- the address lies before the byte that is overwritten
        have hmemory : (entry.set addrEnd 0).drop (keEnd + 1) ++ [0] =
            (entry.take addrEnd).drop (keEnd + 1) ++ (0 :: (entry.drop (addrEnd + 1) ++ [0])) := by
          rw [set_eq_take_append_cons_drop, if_pos hend, drop_append_of_le_length]
          · simp
          · rw [length_take]
            omega
        rw [hmemory, parseAddressRaweth_append h]
        split
        · exact fun heq ↦ by cases heq
        · exact fun heq ↦ by cases heq

theorem getMappingFrom_ne_passedEnd (h : ∀ entry ∈ entries, validMappingEntry entry = true)
    (size : ℕ) : getMappingFrom size entries ≠ .error .passedEnd := by
  induction entries generalizing size with
  | nil => cases size <;> exact fun heq ↦ by cases heq
  | cons entry entries ih =>
    cases size with
    | zero => exact fun heq ↦ by cases heq
    | succ size =>
      have hfirst := getMappingEntry_ne_passedEnd (h entry mem_cons_self)
      have hrest := ih (fun t ht ↦ h t (mem_cons_of_mem _ ht)) size
      rw [getMappingFrom]
      intro heq
      cases hread : getMappingEntry entry with
      | error e =>
        rw [hread] at heq
        exact hfirst (hread.trans (congrArg _ (Except.error.inj heq)))
      | ok first =>
        cases hreads : getMappingFrom size entries with
        | error e =>
          rw [hread, hreads] at heq
          exact hrest (hreads.trans (congrArg _ (Except.error.inj heq)))
        | ok rest =>
          rw [hread, hreads] at heq
          cases heq

/-- A mapping that the check takes is read without passing the end of an entry. -/
theorem getMappingRaweth_ne_passedEnd (mapping : Option (List UInt8)) :
    validMappingRaweth mapping ≠ 0 →
      getMappingRaweth mapping (validMappingRaweth mapping) ≠ .error .passedEnd := by
  intro h
  cases mapping with
  | none => exact absurd rfl h
  | some mapping =>
    rw [getMappingRaweth, if_neg h]
    exact getMappingFrom_ne_passedEnd (valid_of_validMappingFrom h) _

/-! ### What the table holds -/

/-- The text of a list of entries -/
def mappingText (listed : List ListedMapping) : List UInt8 :=
  [listSeparator].intercalate (listed.map ListedMapping.text)

/-- Every entry of the list passes the check, and the table holds the list. -/
def MappingRead (listed : List ListedMapping) : Prop :=
  (∀ e ∈ listed, validMappingEntry e.text = true) ∧
    getMappingRaweth (some (mappingText listed)) (validMappingRaweth (some (mappingText listed))) =
      .ok (listed.map ListedMapping.entry)

theorem ListedMapping.text_plain (e : ListedMapping) : e.text ≠ [] ∧ listSeparator ∉ e.text := by
  have hmac : listSeparator ∉ e.mac := not_mem_validAddress e.mac_valid (by decide) (by decide)
  have hdigits : listSeparator ∉ e.digits := fun hmem ↦
    absurd (e.isHexDigit_of_mem_digits hmem) (by decide)
  have htail : listSeparator ∉ e.tail := by
    by_cases h : e.vlan.isSome = true
    · rw [e.tail_of_isSome h]
      exact not_mem_cons_of_ne_of_not_mem (by decide) hdigits
    · rw [e.tail_of_isNone h]
      exact not_mem_nil
  refine ⟨by simp [text], fun hmem ↦ ?_⟩
  rw [e.text_eq, lead, mem_append, mem_append, mem_append, mem_singleton] at hmem
  obtain (hke | hsep) | hmac' | htail' := hmem
  · exact e.keyexpr_free.2 hke
  · exact absurd hsep (by decide)
  · exact hmac hmac'
  · exact htail htail'

theorem strtokTokens_mappingText (listed : List ListedMapping) :
    strtokTokens (mappingText listed) = listed.map ListedMapping.text := by
  refine strtokTokens_intercalate fun token htoken ↦ ?_
  obtain ⟨e, -, rfl⟩ := List.mem_map.mp htoken
  exact e.text_plain

/-- Entries with their second separator are read one by one, but for VLAN ids of one digit. -/
theorem getMappingFrom_text {listed : List ListedMapping}
    (h : ∀ e ∈ listed, e.vlan.isSome = true) :
    getMappingFrom listed.length (listed.map ListedMapping.text) =
      .ok (listed.map fun e ↦ { e.entry with
        vlan := if e.digits.length ≤ 1 then none else some (.ofNat (hexFrom 0 e.digits)) }) := by
  induction listed with
  | nil => rfl
  | cons e listed ih =>
    rw [length_cons, map_cons, getMappingFrom, e.getMappingEntry_text (h e mem_cons_self),
      ih fun t ht ↦ h t (mem_cons_of_mem _ ht)]
    rfl

/-- What is read of a VLAN id is what is written, unless it has one digit. -/
theorem ListedMapping.vlan_read_iff (e : ListedMapping) :
    ((if e.digits.length ≤ 1 then none else some (.ofNat (hexFrom 0 e.digits)) : Option UInt16) =
      if e.digits = [] then none else some (.ofNat (hexFrom 0 e.digits))) ↔
      e.digits.length ≠ 1 := by
  cases hdigits : e.digits with
  | nil => simp
  | cons c digits =>
    cases digits with
    | nil => simp
    | cons d digits => simp

theorem mappingRead_iff (first : ListedMapping) (rest : List ListedMapping) :
    MappingRead (first :: rest) ↔ ∀ e ∈ first :: rest, e.Readable := by
  have hvalid (e : ListedMapping) := e.validMappingEntry_text
  have htable (h : ∀ e ∈ first :: rest, e.vlan.isSome = true) :
      getMappingRaweth (some (mappingText (first :: rest)))
        (validMappingRaweth (some (mappingText (first :: rest)))) =
        .ok ((first :: rest).map fun e ↦ { e.entry with
          vlan := if e.digits.length ≤ 1 then none else some (.ofNat (hexFrom 0 e.digits)) }) := by
    have hcount : validMappingFrom ((first :: rest).map ListedMapping.text) 0 =
        (first :: rest).length := by
      rw [validMappingFrom_of_forall, Nat.zero_add, length_map]
      intro entry hentry
      obtain ⟨e, he, rfl⟩ := List.mem_map.mp hentry
      rw [hvalid]
      exact h e he
    rw [getMappingRaweth, validMappingRaweth, strtokTokens_mappingText, hcount,
      if_neg (length_pos_iff.mpr (cons_ne_nil _ _)).ne', getMappingFrom_text h]
  constructor
  · rintro ⟨hchecked, hread⟩
    have hsome : ∀ e ∈ first :: rest, e.vlan.isSome = true := fun e he ↦ by
      rw [← hvalid]
      exact hchecked e he
    rw [htable hsome] at hread
    intro e he
    have hentry := map_inj_left.mp (Except.ok.inj hread) e he
    exact ⟨hsome e he, e.vlan_read_iff.mp (congrArg MappingEntry.vlan hentry)⟩
  · intro hreadable
    refine ⟨fun e he ↦ (hvalid e).trans (hreadable e he).1, ?_⟩
    rw [htable fun e he ↦ (hreadable e he).1]
    refine congrArg _ (map_congr_left fun e he ↦ ?_)
    rw [e.vlan_read_iff.mpr (hreadable e he).2]
    rfl

/-- A list of entries is read as it is written exactly when each of them has its second separator
and no VLAN id of one digit; and what the check takes is read without passing the end of an
entry. -/
theorem rawethMapping_exact (first : ListedMapping) (rest : List ListedMapping)
    (mapping : Option (List UInt8)) :
    (MappingRead (first :: rest) ↔ ∀ e ∈ first :: rest, ListedMapping.Readable e) ∧
      (validMappingRaweth mapping ≠ 0 →
        getMappingRaweth mapping (validMappingRaweth mapping) ≠ .error .passedEnd) :=
  ⟨mappingRead_iff first rest, getMappingRaweth_ne_passedEnd mapping⟩

/-- `a#aa:aa:aa:aa:aa:aa#5` -/
def oneDigitVlan : ListedMapping where
  keyexpr := [0x61]
  mac := [0x61, 0x61, 0x3A, 0x61, 0x61, 0x3A, 0x61, 0x61, 0x3A, 0x61, 0x61, 0x3A, 0x61, 0x61, 0x3A,
    0x61, 0x61]
  vlan := some [0x35]
  keyexpr_ne_nil := by decide
  keyexpr_free := by decide
  mac_valid := by decide
  vlan_digits := by simp [isHexDigit]
  vlan_small := by
    intro digits hdigits
    obtain rfl := some.inj hdigits
    decide

/-- The VLAN id of one digit is lost. -/
theorem not_mappingRead_oneDigitVlan : ¬ MappingRead [oneDigitVlan] := fun h ↦
  absurd ((mappingRead_iff oneDigitVlan []).mp h oneDigitVlan mem_cons_self) (by decide)

end ZenohPico.Link
