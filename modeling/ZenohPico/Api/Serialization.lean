import ZenohPico.Collections.BytesReader
import ZenohPico.Collections.BytesWriter
import ZenohPico.Foundations.ListParser
import ZenohPico.Protocol.Codec

/-!
Serialization of typed values (`src/api/serialization.c`,
`include/zenoh-pico/api/serialization.h`).

Values are written one after the other without tags. `Appends` says what a serializer writes, and
`Refines` that a deserializer does over the slices of a value what a parser does over its bytes put
together. `serialize_roundTrip` joins them: the values are read back from all of the bytes, and from
no fewer.

Sizes have 64 bits. Memory is granted for every slice that is read.
-/

open List hiding flatten length_flatten

namespace ZenohPico.Api

open Collections Foundations Protocol

/-! ### Integers in memory -/

/-- The byte order of the host -/
inductive Endianness
  | little
  | big
deriving DecidableEq, Repr

section Integers

variable {w : ℕ}

/-- `_z_le_store16` and the like, for so many bytes -/
def leStore : ℕ → BitVec w → List UInt8
  | 0, _ => []
  | n + 1, val => UInt8.ofBitVec (val.setWidth 8) :: leStore n (val >>> 8)

/-- `_z_le_load16` and the like -/
def leLoad : List UInt8 → BitVec w
  | [] => 0
  | b :: src => (leLoad src <<< 8) ||| b.toBitVec.setWidth w

/-- `_z_be_store16` and the like -/
def beStore (n : ℕ) (val : BitVec w) : List UInt8 := (leStore n val).reverse

/-- `_z_be_load16` and the like -/
def beLoad (src : List UInt8) : BitVec w := leLoad src.reverse

/-- `_z_host_le_store16` and the like: on a big-endian host the bytes are stored as they are. -/
def hostLeStore (host : Endianness) (n : ℕ) (val : BitVec w) : List UInt8 :=
  match host with
  | .little => leStore n val
  | .big => beStore n val

/-- `_z_host_le_load16` and the like -/
def hostLeLoad (host : Endianness) (src : List UInt8) : BitVec w :=
  match host with
  | .little => leLoad src
  | .big => beLoad src

theorem length_leStore (n : ℕ) (val : BitVec w) : (leStore n val).length = n := by
  induction n generalizing val with
  | zero => rfl
  | succ n ih => rw [leStore, length_cons, ih]

theorem length_hostLeStore (host : Endianness) (n : ℕ) (val : BitVec w) :
    (hostLeStore host n val).length = n := by
  cases host with
  | little => exact length_leStore n val
  | big => exact (length_reverse ..).trans (length_leStore n val)

theorem toNat_leLoad_leStore {n : ℕ} (hn : 8 * n ≤ w) (val : BitVec w) :
    (leLoad (leStore n val) : BitVec w).toNat = val.toNat % 2 ^ (8 * n) := by
  induction n generalizing val with
  | zero => rw [leStore, leLoad, Nat.mul_zero, Nat.pow_zero, Nat.mod_one]; rfl
  | succ n ih =>
    have hhigh := ih (by omega) (val >>> 8)
    rw [BitVec.toNat_ushiftRight, Nat.shiftRight_eq_div_pow] at hhigh
    have hbound : val.toNat / 2 ^ 8 % 2 ^ (8 * n) * 2 ^ 8 + 2 ^ 8 ≤ 2 ^ w := by
      have hpow : 2 ^ (8 * n) * 2 ^ 8 ≤ 2 ^ w := by
        rw [← Nat.pow_add]
        exact Nat.pow_le_pow_right (by decide) (by omega)
      have hlt := Nat.mod_lt (val.toNat / 2 ^ 8) (Nat.two_pow_pos (8 * n))
      calc val.toNat / 2 ^ 8 % 2 ^ (8 * n) * 2 ^ 8 + 2 ^ 8
          = (val.toNat / 2 ^ 8 % 2 ^ (8 * n) + 1) * 2 ^ 8 := by ring
        _ ≤ 2 ^ (8 * n) * 2 ^ 8 := Nat.mul_le_mul_right _ hlt
        _ ≤ 2 ^ w := hpow
    have hbyte : val.toNat % 2 ^ 8 < 2 ^ 8 := Nat.mod_lt _ (by decide)
    have hlow : val.toNat % 2 ^ 8 % 2 ^ w = val.toNat % 2 ^ 8 := Nat.mod_eq_of_lt (by omega)
    have hshift : val.toNat / 2 ^ 8 % 2 ^ (8 * n) * 2 ^ 8 % 2 ^ w =
        val.toNat / 2 ^ 8 % 2 ^ (8 * n) * 2 ^ 8 := Nat.mod_eq_of_lt (by omega)
    have hsplit : val.toNat % 2 ^ (8 * (n + 1)) =
        val.toNat % 2 ^ 8 + 2 ^ 8 * (val.toNat / 2 ^ 8 % 2 ^ (8 * n)) := by
      rw [Nat.mul_succ, Nat.add_comm (8 * n), Nat.pow_add, Nat.mod_mul]
    rw [leStore, leLoad, BitVec.toNat_or, BitVec.toNat_shiftLeft, hhigh, Nat.shiftLeft_eq, hshift,
      BitVec.toNat_setWidth, UInt8.toBitVec_ofBitVec, BitVec.toNat_setWidth, hlow, hsplit,
      Nat.mul_comm, ← Nat.two_pow_add_eq_or_of_lt hbyte, Nat.add_comm]

theorem hostLeLoad_store (host : Endianness) {n : ℕ} (hn : w = 8 * n) (val : BitVec w) :
    hostLeLoad host (hostLeStore host n val) = val := by
  have hle : (leLoad (leStore n val) : BitVec w) = val := by
    apply BitVec.eq_of_toNat_eq
    rw [toNat_leLoad_leStore (Nat.le_of_eq hn.symm), ← hn, Nat.mod_eq_of_lt val.isLt]
  cases host with
  | little => exact hle
  | big =>
    rw [hostLeLoad, hostLeStore, beLoad, beStore, reverse_reverse]
    exact hle

end Integers

/-! ### The source's functions -/

/-- What a function of the serializer does to its writer -/
abbrev Serializer := BytesWriter → Option (WriterResult × BytesWriter)

/-- `_Z_RETURN_IF_ERR` between two functions of the serializer -/
def Serializer.andThen (f g : Serializer) : Serializer := fun writer ↦
  (f writer).bind fun r ↦
    match r.1 with
    | .ok => g r.2
    | .outOfMemory => some r

/-- The results other than `_Z_RES_OK` of the deserializer -/
inductive SerdeError
  | didNotRead
  | messageDeserializationFailed
  | deserialize
deriving DecidableEq, Repr

/-- A function of the deserializer, on its reader -/
abbrev Deserializer (α : Type) := ExceptT SerdeError (StateT BytesReader Option) α

section Source

variable (junk : UInt8) (host : Endianness)

/-- `ze_serializer_serialize_uint8` -/
def serializeUint8 (val : UInt8) : Serializer := fun writer ↦ writer.writeAll junk [val]

/-- `ze_serializer_serialize_uint16` -/
def serializeUint16 (val : UInt16) : Serializer := fun writer ↦
  writer.writeAll junk (hostLeStore host 2 val.toBitVec)

/-- `ze_serializer_serialize_uint32` -/
def serializeUint32 (val : UInt32) : Serializer := fun writer ↦
  writer.writeAll junk (hostLeStore host 4 val.toBitVec)

/-- `ze_serializer_serialize_uint64` -/
def serializeUint64 (val : UInt64) : Serializer := fun writer ↦
  writer.writeAll junk (hostLeStore host 8 val.toBitVec)

/-- `ze_serializer_serialize_bool` -/
def serializeBool (val : Bool) : Serializer := serializeUint8 junk (if val then 1 else 0)

/-- `ze_serializer_serialize_int8` -/
def serializeInt8 (val : Int8) : Serializer := serializeUint8 junk val.toUInt8

/-- `ze_serializer_serialize_int16` -/
def serializeInt16 (val : Int16) : Serializer := serializeUint16 junk host val.toUInt16

/-- `ze_serializer_serialize_int32` -/
def serializeInt32 (val : Int32) : Serializer := serializeUint32 junk host val.toUInt32

/-- `ze_serializer_serialize_int64` -/
def serializeInt64 (val : Int64) : Serializer := serializeUint64 junk host val.toUInt64

/-- `ze_serializer_serialize_sequence_length` -/
def serializeSequenceLength (len : UInt64) : Serializer := fun writer ↦
  writer.writeAll junk (zint64Encode len)

/-- `ze_serializer_serialize_buf` -/
def serializeBuf (val : List UInt8) : Serializer :=
  (serializeSequenceLength junk (UInt64.ofNat val.length)).andThen fun writer ↦
    writer.writeAll junk val

/-- `ze_serializer_serialize_slice` -/
def serializeSlice (val : List UInt8) : Serializer := serializeBuf junk val

/-- `ze_serializer_serialize_string` -/
def serializeString (val : List UInt8) : Serializer := serializeBuf junk val

/-- A read of so many bytes, which fails where there are fewer -/
def readExactly (len : ℕ) : Deserializer (List UInt8) := fun reader ↦
  (reader.read len).map fun r ↦
    (if r.1.1 ≠ len then .error .didNotRead else .ok r.1.2, r.2)

/-- `__read_single_byte`, `ze_deserializer_deserialize_uint8` -/
def deserializeUint8 : Deserializer UInt8 := do
  let src ← readExactly 1
  return src.headD 0

/-- `ze_deserializer_deserialize_uint16` -/
def deserializeUint16 : Deserializer UInt16 := do
  let src ← readExactly 2
  return ⟨hostLeLoad host src⟩

/-- `ze_deserializer_deserialize_uint32` -/
def deserializeUint32 : Deserializer UInt32 := do
  let src ← readExactly 4
  return ⟨hostLeLoad host src⟩

/-- `ze_deserializer_deserialize_uint64` -/
def deserializeUint64 : Deserializer UInt64 := do
  let src ← readExactly 8
  return ⟨hostLeLoad host src⟩

/-- `ze_deserializer_deserialize_bool` -/
def deserializeBool : Deserializer Bool := do
  let res ← deserializeUint8
  if res > 1 then throw .deserialize else return res = 1

/-- `ze_deserializer_deserialize_int8` -/
def deserializeInt8 : Deserializer Int8 := do
  let val ← deserializeUint8
  return val.toInt8

/-- `ze_deserializer_deserialize_int16` -/
def deserializeInt16 : Deserializer Int16 := do
  let val ← deserializeUint16 host
  return val.toInt16

/-- `ze_deserializer_deserialize_int32` -/
def deserializeInt32 : Deserializer Int32 := do
  let val ← deserializeUint32 host
  return val.toInt32

/-- `ze_deserializer_deserialize_int64` -/
def deserializeInt64 : Deserializer Int64 := do
  let val ← deserializeUint64 host
  return val.toInt64

/-- The loop of `_z_zint64_decode_with_reader`, with the number of passes left until the shift `i`
is that of the last byte -/
def zint64DecodeReader : ℕ → UInt64 → ℕ → Deserializer UInt64
  | 0, zint, i => do
    let b ← deserializeUint8
    return zint ||| (b.toUInt64 <<< UInt64.ofNat i)
  | left + 1, zint, i => do
    let b ← deserializeUint8
    if b &&& 0x80 ≠ 0 then
      zint64DecodeReader left (zint ||| ((b &&& 0x7F).toUInt64 <<< UInt64.ofNat i)) (i + 7)
    else return zint ||| (b.toUInt64 <<< UInt64.ofNat i)

/-- `ze_deserializer_deserialize_sequence_length`, with `_z_zsize_decode_with_reader` -/
def deserializeSequenceLength : Deserializer UInt64 :=
  tryCatchThe SerdeError (zint64DecodeReader 8 0 0) fun _ ↦ throw .messageDeserializationFailed

/-- `ze_deserializer_deserialize_slice` -/
def deserializeSlice : Deserializer (List UInt8) := do
  let len ← deserializeSequenceLength
  readExactly len.toNat

/-- `ze_deserializer_deserialize_string` -/
def deserializeString : Deserializer (List UInt8) := deserializeSlice

/-- `ze_deserializer_is_done` -/
def isDone (reader : BytesReader) : Bool := reader.remaining = 0

end Source

/-! ### Typed values -/

/-- The types of values that are serialized -/
inductive SerdeType
  | bool
  | uint8
  | uint16
  | uint32
  | uint64
  | int8
  | int16
  | int32
  | int64
  | slice
  | string
  | sequenceLength
  | pair (fst snd : SerdeType)
  | sequence (element : SerdeType)
deriving DecidableEq, Repr

namespace SerdeType

def Value : SerdeType → Type
  | .bool => Bool
  | .uint8 => UInt8
  | .uint16 => UInt16
  | .uint32 => UInt32
  | .uint64 => UInt64
  | .int8 => Int8
  | .int16 => Int16
  | .int32 => Int32
  | .int64 => Int64
  | .slice => List UInt8
  | .string => List UInt8
  | .sequenceLength => UInt64
  | .pair fst snd => fst.Value × snd.Value
  | .sequence element => List element.Value

/-- The lengths in a value are sizes. -/
def Fits : (t : SerdeType) → t.Value → Prop
  | .slice, (val : List UInt8) => val.length < 0x10000000000000000
  | .string, (val : List UInt8) => val.length < 0x10000000000000000
  | .pair fst snd, val => fst.Fits val.1 ∧ snd.Fits val.2
  | .sequence element, (val : List element.Value) =>
    val.length < 0x10000000000000000 ∧ ∀ v ∈ val, element.Fits v
  | .bool, _ => True
  | .uint8, _ => True
  | .uint16, _ => True
  | .uint32, _ => True
  | .uint64, _ => True
  | .int8, _ => True
  | .int16, _ => True
  | .int32, _ => True
  | .int64, _ => True
  | .sequenceLength, _ => True

variable (junk : UInt8) (host : Endianness)

/-- A value is serialized: a sequence by its length and its elements. -/
def serialize : (t : SerdeType) → t.Value → Serializer
  | .bool, val => serializeBool junk val
  | .uint8, val => serializeUint8 junk val
  | .uint16, val => serializeUint16 junk host val
  | .uint32, val => serializeUint32 junk host val
  | .uint64, val => serializeUint64 junk host val
  | .int8, val => serializeInt8 junk val
  | .int16, val => serializeInt16 junk host val
  | .int32, val => serializeInt32 junk host val
  | .int64, val => serializeInt64 junk host val
  | .slice, val => serializeSlice junk val
  | .string, val => serializeString junk val
  | .sequenceLength, val => serializeSequenceLength junk val
  | .pair fst snd, val => (fst.serialize val.1).andThen (snd.serialize val.2)
  | .sequence element, (val : List element.Value) =>
    (serializeSequenceLength junk (UInt64.ofNat val.length)).andThen
      (val.foldr (fun v rest ↦ (element.serialize v).andThen rest) fun writer ↦ some (.ok, writer))

/-- The elements of a sequence, as many as its length says -/
def deserializeElements {α : Type} (element : Deserializer α) : ℕ → Deserializer (List α)
  | 0 => return []
  | n + 1 => do
    let v ← element
    let rest ← deserializeElements element n
    return v :: rest

/-- A value is deserialized by its type. -/
def deserialize : (t : SerdeType) → Deserializer t.Value
  | .bool => deserializeBool
  | .uint8 => deserializeUint8
  | .uint16 => deserializeUint16 host
  | .uint32 => deserializeUint32 host
  | .uint64 => deserializeUint64 host
  | .int8 => deserializeInt8
  | .int16 => deserializeInt16 host
  | .int32 => deserializeInt32 host
  | .int64 => deserializeInt64 host
  | .slice => deserializeSlice
  | .string => deserializeString
  | .sequenceLength => deserializeSequenceLength
  | .pair fst snd => do
    let a ← fst.deserialize
    let b ← snd.deserialize
    return (a, b)
  | .sequence element => do
    let len ← deserializeSequenceLength
    deserializeElements element.deserialize len.toNat

end SerdeType

/-! ### What is written -/

/-- The bytes of a value -/
def SerdeType.encode (host : Endianness) : (t : SerdeType) → t.Value → List UInt8
  | .bool, (val : Bool) => [if val then 1 else 0]
  | .uint8, (val : UInt8) => [val]
  | .uint16, (val : UInt16) => hostLeStore host 2 val.toBitVec
  | .uint32, (val : UInt32) => hostLeStore host 4 val.toBitVec
  | .uint64, (val : UInt64) => hostLeStore host 8 val.toBitVec
  | .int8, (val : Int8) => [val.toUInt8]
  | .int16, (val : Int16) => hostLeStore host 2 val.toUInt16.toBitVec
  | .int32, (val : Int32) => hostLeStore host 4 val.toUInt32.toBitVec
  | .int64, (val : Int64) => hostLeStore host 8 val.toUInt64.toBitVec
  | .slice, (val : List UInt8) => sliceEncode val
  | .string, (val : List UInt8) => sliceEncode val
  | .sequenceLength, (val : UInt64) => zint64Encode val
  | .pair fst snd, val => fst.encode host val.1 ++ snd.encode host val.2
  | .sequence element, (val : List element.Value) =>
    zint64Encode (UInt64.ofNat val.length) ++ val.flatMap (element.encode host)

/-- The writer is new, or has bytes in its cache. -/
def Ready (writer : BytesWriter) : Prop := writer.cache = none ∨ writer.Filled

/-- A serializer appends these bytes, and there are bytes in the cache then. -/
def AppendsFrom (start : BytesWriter → Prop) (f : Serializer) (bytes : List UInt8) : Prop :=
  ∀ writer, start writer → ∃ writer', f writer = some (.ok, writer') ∧ writer'.Filled ∧
    flatten writer'.bytes = flatten writer.bytes ++ bytes

/-- A serializer that appends bytes to a new writer, too -/
abbrev Appends (f : Serializer) (bytes : List UInt8) : Prop := AppendsFrom Ready f bytes

section Appends

variable {junk : UInt8} {host : Endianness} {f g : Serializer} {bytes bytes' : List UInt8}

theorem Appends.filled (h : Appends f bytes) : AppendsFrom BytesWriter.Filled f bytes :=
  fun writer hfilled ↦ h writer (.inr hfilled)

theorem appendsFrom_writeAll (src : List UInt8) :
    AppendsFrom BytesWriter.Filled (fun writer ↦ writer.writeAll junk src) src :=
  fun _ hfilled ↦ hfilled.writeAll src

theorem appends_writeAll {src : List UInt8} (hsrc : src ≠ []) :
    Appends (fun writer ↦ writer.writeAll junk src) src := by
  rintro writer (hnew | hfilled)
  · obtain ⟨writer', hwrite, hcache, hbytes⟩ := @BytesWriter.writeAll_first junk _ hnew src
    rw [if_neg hsrc] at hcache
    exact ⟨writer', hwrite, hcache, hbytes⟩
  · exact hfilled.writeAll src

theorem AppendsFrom.andThen {start : BytesWriter → Prop} (hf : AppendsFrom start f bytes)
    (hg : AppendsFrom BytesWriter.Filled g bytes') :
    AppendsFrom start (f.andThen g) (bytes ++ bytes') := by
  intro writer hstart
  obtain ⟨mid, hmid, hfilled, hbytes⟩ := hf writer hstart
  obtain ⟨last, hlast, hfilled', hbytes'⟩ := hg mid hfilled
  refine ⟨last, ?_, hfilled', by rw [hbytes', hbytes, append_assoc]⟩
  rw [Serializer.andThen, hmid, Option.bind_some]
  exact hlast

theorem zint64Encode_ne_nil (v : UInt64) : zint64Encode v ≠ [] := by
  rw [zint64Encode, zint64EncodeFrom]
  split_ifs with hmore hlast
  · exact cons_ne_nil _ _
  · exact cons_ne_nil _ _
  · exact absurd (by decide) hlast

theorem hostLeStore_ne_nil {w n : ℕ} (val : BitVec w) : hostLeStore host (n + 1) val ≠ [] := by
  intro h
  have hlen := length_hostLeStore host (n + 1) val
  rw [h] at hlen
  cases hlen

theorem appends_serializeBuf (val : List UInt8) :
    Appends (serializeBuf junk val) (sliceEncode val) :=
  (appends_writeAll (zint64Encode_ne_nil _)).andThen (appendsFrom_writeAll val)

/-- What is written for a value are its bytes. -/
theorem appends_serialize (t : SerdeType) (val : t.Value) :
    Appends (t.serialize junk host val) (t.encode host val) := by
  induction t with
  | bool => exact appends_writeAll (cons_ne_nil _ _)
  | uint8 => exact appends_writeAll (cons_ne_nil _ _)
  | uint16 => exact appends_writeAll (hostLeStore_ne_nil _)
  | uint32 => exact appends_writeAll (hostLeStore_ne_nil _)
  | uint64 => exact appends_writeAll (hostLeStore_ne_nil _)
  | int8 => exact appends_writeAll (cons_ne_nil _ _)
  | int16 => exact appends_writeAll (hostLeStore_ne_nil _)
  | int32 => exact appends_writeAll (hostLeStore_ne_nil _)
  | int64 => exact appends_writeAll (hostLeStore_ne_nil _)
  | slice => exact appends_serializeBuf val
  | string => exact appends_serializeBuf val
  | sequenceLength => exact appends_writeAll (zint64Encode_ne_nil _)
  | pair fst snd ihfst ihsnd => exact (ihfst val.1).andThen (ihsnd val.2).filled
  | sequence element ih =>
    refine AppendsFrom.andThen (appends_writeAll (zint64Encode_ne_nil _)) ?_
    change List element.Value at val
    induction val with
    | nil => exact fun writer hfilled ↦ ⟨writer, rfl, hfilled, (append_nil _).symm⟩
    | cons v rest ihrest =>
      rw [foldr_cons, flatMap_cons]
      exact (ih v).filled.andThen ihrest

end Appends

/-! ### What is read -/

/-- The reader has a place in its slices. -/
def Placed (reader : BytesReader) : Prop := ∃ before rest, reader.Splits before rest

/-- Over the slices, a deserializer does what a parser does over the bytes ahead. -/
structure Refines {α : Type} (d : Deserializer α) (p : ListParser UInt8 SerdeError α) : Prop where
  ok : ∀ reader, Placed reader → ∀ v rest, p reader.ahead = .ok (v, rest) →
    ∃ reader', d reader = some (.ok v, reader') ∧ Placed reader' ∧ reader'.ahead = rest
  error : ∀ reader, Placed reader → ∀ e, p reader.ahead = .error e →
    ∃ reader', d reader = some (.error e, reader')

section Refines

variable {α β : Type} {d : Deserializer α} {p : ListParser UInt8 SerdeError α}

theorem Deserializer.bind_ok {f : α → Deserializer β} {reader reader' : BytesReader} {v : α}
    (h : d reader = some (.ok v, reader')) : (d >>= f) reader = f v reader' := by
  change (d reader >>= fun r ↦ ExceptT.bindCont f r.1 r.2) = _
  rw [h]
  rfl

theorem Deserializer.bind_error {f : α → Deserializer β} {reader reader' : BytesReader}
    {e : SerdeError} (h : d reader = some (.error e, reader')) :
    (d >>= f) reader = some (.error e, reader') := by
  change (d reader >>= fun r ↦ ExceptT.bindCont f r.1 r.2) = _
  rw [h]
  rfl

theorem refines_pure (v : α) : Refines (pure v) (pure v) where
  ok reader hplaced v' rest h := by
    obtain ⟨rfl, rfl⟩ := Prod.mk.inj (Except.ok.inj h)
    exact ⟨reader, rfl, hplaced, rfl⟩
  error _ _ _ h := by cases h

theorem refines_throw (e : SerdeError) : Refines (throw e : Deserializer α) (throw e) where
  ok _ _ _ _ h := by cases h
  error reader _ e' h := by
    cases h
    exact ⟨reader, rfl⟩

theorem Refines.bind {f : α → Deserializer β} {q : α → ListParser UInt8 SerdeError β}
    (h : Refines d p) (hf : ∀ v, Refines (f v) (q v)) : Refines (d >>= f) (p >>= q) where
  ok reader hplaced w rest heq := by
    cases hp : p reader.ahead with
    | error e =>
      rw [ListParser.bind_error hp] at heq
      cases heq
    | ok r =>
      obtain ⟨v, mid⟩ := r
      rw [ListParser.bind_ok hp] at heq
      obtain ⟨reader', hd, hplaced', rfl⟩ := h.ok reader hplaced v mid hp
      rw [Deserializer.bind_ok hd]
      exact (hf v).ok reader' hplaced' w rest heq
  error reader hplaced e heq := by
    cases hp : p reader.ahead with
    | error e' =>
      rw [ListParser.bind_error hp] at heq
      obtain rfl := Except.error.inj heq
      obtain ⟨reader', hd⟩ := h.error reader hplaced e' hp
      exact ⟨reader', Deserializer.bind_error hd⟩
    | ok r =>
      obtain ⟨v, mid⟩ := r
      rw [ListParser.bind_ok hp] at heq
      obtain ⟨reader', hd, hplaced', rfl⟩ := h.ok reader hplaced v mid hp
      rw [Deserializer.bind_ok hd]
      exact (hf v).error reader' hplaced' e heq

theorem Refines.map (h : Refines d p) (f : α → β) :
    Refines (do let a ← d; return f a) (do let a ← p; return f a) :=
  h.bind fun _ ↦ refines_pure _

theorem refines_readExactly (len : ℕ) :
    Refines (readExactly len) (takeExactly .didNotRead len) := by
  have hread : ∀ reader, Placed reader → ∃ reader', Placed reader' ∧
      readExactly len reader = some (if len ≤ reader.ahead.length then
        .ok (reader.ahead.take len) else .error .didNotRead, reader') ∧
      reader'.ahead = reader.ahead.drop (min len reader.ahead.length) := by
    rintro reader ⟨before, rest, h⟩
    obtain ⟨reader', hfrom, hwent⟩ := BytesReader.readFrom_spec h len []
    refine ⟨reader', hwent.splits, ?_, ?_⟩
    · rw [readExactly, BytesReader.read, h.drop_bytes, hfrom, Option.map_some, Option.map_some]
      by_cases hle : len ≤ reader.ahead.length
      · rw [if_pos hle, if_neg (by simp only; omega), nil_append]
      · rw [if_neg hle, if_pos (by simp only; omega)]
    · rw [BytesReader.ahead, BytesReader.ahead, drop_drop, hwent.bytes, hwent.byteIdx]
      rfl
  constructor
  · intro reader hplaced v rest heq
    obtain ⟨reader', hplaced', hrun, hahead⟩ := hread reader hplaced
    rw [takeExactly] at heq
    split_ifs at heq with hle
    obtain ⟨rfl, rfl⟩ := Prod.mk.inj (Except.ok.inj heq)
    exact ⟨reader', by rw [hrun, if_pos hle], hplaced', by rw [hahead, Nat.min_eq_left hle]⟩
  · intro reader hplaced e heq
    obtain ⟨reader', -, hrun, -⟩ := hread reader hplaced
    rw [takeExactly] at heq
    split_ifs at heq with hle
    obtain rfl := Except.error.inj heq
    exact ⟨reader', by rw [hrun, if_neg hle]⟩

theorem Refines.congr {q : ListParser UInt8 SerdeError α} (h : Refines d p)
    (hpq : ∀ l, q l = p l) : Refines d q where
  ok reader hplaced v rest heq := h.ok reader hplaced v rest ((hpq _).symm.trans heq)
  error reader hplaced e heq := h.error reader hplaced e ((hpq _).symm.trans heq)

/-- Every error is made another one. -/
theorem Refines.tryCatch (h : Refines d p) (e : SerdeError) :
    Refines (tryCatchThe SerdeError d fun _ ↦ throw e) (ListParser.mapError p fun _ ↦ e) where
  ok reader hplaced v rest heq := by
    cases hp : p reader.ahead with
    | error e' =>
      rw [ListParser.mapError, hp] at heq
      cases heq
    | ok r =>
      rw [ListParser.mapError, hp] at heq
      obtain ⟨reader', hd, hplaced', hahead⟩ := h.ok reader hplaced v rest
        (hp.trans (congrArg Except.ok (Except.ok.inj heq)))
      refine ⟨reader', ?_, hplaced', hahead⟩
      change (d reader >>= _) = _
      rw [hd]
      rfl
  error reader hplaced e' heq := by
    cases hp : p reader.ahead with
    | error e'' =>
      rw [ListParser.mapError, hp] at heq
      obtain rfl := Except.error.inj heq
      obtain ⟨reader', hd⟩ := h.error reader hplaced e'' hp
      refine ⟨reader', ?_⟩
      change (d reader >>= _) = _
      rw [hd]
      rfl
    | ok r =>
      rw [ListParser.mapError, hp] at heq
      cases heq

end Refines

/-- A deserializer reads the words of its values, as a parser over the bytes does. -/
def Decodes {α : Type} (d : Deserializer α) (encode : α → List UInt8) (fits : α → Prop) : Prop :=
  ∃ p, Refines d p ∧ ∀ v, fits v → ReadsAs p (encode v) v

section Decodes

variable {α β : Type} {d : Deserializer α} {encode : α → List UInt8} {fits : α → Prop}

theorem Decodes.map (h : Decodes d encode fits) {f : α → β} {g : β → α} (hfg : ∀ w, f (g w) = w)
    {fits' : β → Prop} (hfits : ∀ w, fits' w → fits (g w)) :
    Decodes (do let a ← d; return f a) (fun w ↦ encode (g w)) fits' := by
  obtain ⟨p, hrefines, hreads⟩ := h
  refine ⟨_, hrefines.map f, fun w hw ↦ ?_⟩
  have hmap := (hreads (g w) (hfits w hw)).map f
  rwa [hfg] at hmap

theorem decodes_readExactly (len : ℕ) :
    Decodes (readExactly len) id fun bytes ↦ bytes.length = len := by
  refine ⟨_, refines_readExactly len, ?_⟩
  rintro bytes rfl
  exact readsAs_takeExactly _ bytes

theorem decodes_uint8 : Decodes deserializeUint8 (fun b ↦ [b]) fun _ ↦ True :=
  (decodes_readExactly 1).map (f := fun src ↦ src.headD 0) (g := fun b ↦ [b]) (fun _ ↦ rfl)
    fun _ _ ↦ rfl

/-- An integer of several bytes -/
theorem decodes_host (host : Endianness) {w n : ℕ} (hn : w = 8 * n) {f : BitVec w → β}
    {g : β → BitVec w} (hfg : ∀ v, f (g v) = v) :
    Decodes (do let src ← readExactly n; return f (hostLeLoad host src))
      (fun v ↦ hostLeStore host n (g v)) fun _ ↦ True :=
  (decodes_readExactly n).map (f := fun src ↦ f (hostLeLoad host src))
    (g := fun v ↦ hostLeStore host n (g v))
    (fun v ↦ by rw [hostLeLoad_store host hn, hfg]) fun v _ ↦ length_hostLeStore host n (g v)

/-- The last step of reading a Boolean -/
def boolOfByte (res : UInt8) : ListParser UInt8 SerdeError Bool :=
  if res > 1 then throw .deserialize else pure (res = 1)

theorem decodes_bool : Decodes deserializeBool (fun val ↦ [if val then 1 else 0]) fun _ ↦ True := by
  obtain ⟨p, hrefines, hreads⟩ := decodes_uint8
  refine ⟨p >>= boolOfByte, hrefines.bind fun res ↦ ?_, fun val _ ↦ ?_⟩
  · rw [boolOfByte]
    split_ifs
    · exact refines_throw _
    · exact refines_pure _
  · have hnext : ReadsAs (boolOfByte (if val then 1 else 0)) [] val := by
      cases val <;> exact readsAs_pure _
    have hread := (hreads _ trivial).bind hnext
    rwa [append_nil] at hread

/-! ### Lengths -/

theorem zint64DecodeFrom_extends {l rest : List UInt8} {a : UInt64} :
    ∀ {zint : UInt64} {i : ℕ}, zint64DecodeFrom zint i l = .ok (a, rest) →
      ∀ more, zint64DecodeFrom zint i (l ++ more) = .ok (a, rest ++ more) := by
  induction l with
  | nil => intro zint i h; cases h
  | cons b l ih =>
    intro zint i h more
    rw [cons_append, zint64DecodeFrom]
    rw [zint64DecodeFrom] at h
    split_ifs at h ⊢ with hmore
    · exact ih h more
    · obtain ⟨rfl, rfl⟩ := Prod.mk.inj (Except.ok.inj h)
      rfl

theorem readsAs_zint64Decode (v : UInt64) : ReadsAs zint64Decode (zint64Encode v) v :=
  readsAs_of_extends zint64DecodeFrom_extends (zint64Decode_encode v)

/-- The loop over single bytes is the one over a list. -/
theorem refines_zint64DecodeReader {left : ℕ} (hleft : left ≤ 8) (zint : UInt64) :
    Refines (zint64DecodeReader left zint (7 * (8 - left)))
      (ListParser.mapError (zint64DecodeFrom zint (7 * (8 - left))) fun _ ↦ .didNotRead) := by
  have hbyte : Refines deserializeUint8
      (do let src ← takeExactly .didNotRead 1; return src.headD 0) :=
    (refines_readExactly 1).map _
  induction left generalizing zint with
  | zero =>
    refine (hbyte.bind fun b ↦ refines_pure _).congr fun l ↦ ?_
    cases l with
    | nil => rfl
    | cons b l =>
      rw [ListParser.mapError, zint64DecodeFrom, if_neg (by simp)]
      rfl
  | succ left ih =>
    have hshift : 7 * (8 - (left + 1)) + 7 = 7 * (8 - left) := by omega
    have hnext : ∀ b : UInt8, Refines
        (if b &&& 0x80 ≠ 0 then
          zint64DecodeReader left (zint ||| ((b &&& 0x7F).toUInt64 <<<
            UInt64.ofNat (7 * (8 - (left + 1))))) (7 * (8 - (left + 1)) + 7)
        else return zint ||| (b.toUInt64 <<< UInt64.ofNat (7 * (8 - (left + 1)))))
        (if b &&& 0x80 ≠ 0 then
          ListParser.mapError (zint64DecodeFrom (zint ||| ((b &&& 0x7F).toUInt64 <<<
            UInt64.ofNat (7 * (8 - (left + 1))))) (7 * (8 - (left + 1)) + 7)) fun _ ↦ .didNotRead
        else return zint ||| (b.toUInt64 <<< UInt64.ofNat (7 * (8 - (left + 1))))) := by
      intro b
      split_ifs
      · rw [hshift]
        exact ih (by omega) _
      · exact refines_pure _
    refine (hbyte.bind hnext).congr fun l ↦ ?_
    cases l with
    | nil => rfl
    | cons b l =>
      have htake : (do
          let src ← takeExactly SerdeError.didNotRead 1
          return src.headD 0 : ListParser UInt8 SerdeError UInt8) (b :: l) = .ok (b, l) := rfl
      rw [ListParser.bind_ok htake, ListParser.mapError, zint64DecodeFrom]
      by_cases hmore : b &&& 0x80 ≠ 0
      · rw [if_pos ⟨hmore, by omega⟩, if_pos hmore]
        rfl
      · rw [if_neg fun h ↦ hmore h.1, if_neg hmore]
        rfl

theorem decodes_sequenceLength : Decodes deserializeSequenceLength zint64Encode fun _ ↦ True :=
  ⟨_, (refines_zint64DecodeReader le_rfl 0).tryCatch _,
    fun v _ ↦ ((readsAs_zint64Decode v).mapError _).mapError _⟩

theorem toNat_length {α : Type} {l : List α} (h : l.length < 0x10000000000000000) :
    (UInt64.ofNat l.length).toNat = l.length :=
  UInt64.toNat_ofNat_of_lt' h

theorem decodes_slice :
    Decodes deserializeSlice sliceEncode fun val ↦ val.length < 0x10000000000000000 := by
  obtain ⟨p, hrefines, hreads⟩ := decodes_sequenceLength
  refine ⟨p >>= fun len ↦ takeExactly .didNotRead len.toNat,
    hrefines.bind fun len ↦ refines_readExactly _, fun val hval ↦ ?_⟩
  have hbytes := readsAs_takeExactly SerdeError.didNotRead val
  rw [← toNat_length hval] at hbytes
  exact (hreads (UInt64.ofNat val.length) trivial).bind hbytes

/-! ### Values -/

theorem Refines.elements {p : ListParser UInt8 SerdeError α} (h : Refines d p) (n : ℕ) :
    Refines (SerdeType.deserializeElements d n) (parseMany p n) := by
  induction n with
  | zero => exact refines_pure _
  | succ n ih => exact h.bind fun v ↦ ih.bind fun rest ↦ refines_pure _

theorem Decodes.sequence (h : Decodes d encode fits) : Decodes (do
        let len ← deserializeSequenceLength
        SerdeType.deserializeElements d len.toNat)
      (fun val ↦ zint64Encode (UInt64.ofNat val.length) ++ val.flatMap encode)
      fun val ↦ val.length < 0x10000000000000000 ∧ ∀ v ∈ val, fits v := by
  obtain ⟨p, hrefines, hreads⟩ := h
  obtain ⟨len, hlen, hreadslen⟩ := decodes_sequenceLength
  refine ⟨len >>= fun len ↦ parseMany p len.toNat, hlen.bind fun n ↦ hrefines.elements _, ?_⟩
  rintro val ⟨hlength, hfits⟩
  have helements := readsAs_parseMany fun v hv ↦ hreads v (hfits v hv)
  rw [← toNat_length hlength] at helements
  exact (hreadslen (UInt64.ofNat val.length) trivial).bind helements

theorem Decodes.pair {e : Deserializer β} {encode' : β → List UInt8} {fits' : β → Prop}
    (h : Decodes d encode fits) (h' : Decodes e encode' fits') : Decodes (do
        let a ← d
        let b ← e
        return (a, b))
      (fun val ↦ encode val.1 ++ encode' val.2) fun val ↦ fits val.1 ∧ fits' val.2 := by
  obtain ⟨p, hp, hreads⟩ := h
  obtain ⟨q, hq, hreads'⟩ := h'
  refine ⟨_, hp.bind fun a ↦ hq.map (fun b ↦ (a, b)), ?_⟩
  rintro ⟨a, b⟩ ⟨ha, hb⟩
  exact (hreads a ha).bind ((hreads' b hb).map _)

/-- A deserializer reads the bytes of the values of its type. -/
theorem decodes_deserialize (host : Endianness) (t : SerdeType) :
    Decodes (t.deserialize host) (t.encode host) t.Fits := by
  induction t with
  | bool => exact decodes_bool
  | uint8 => exact decodes_uint8
  | uint16 => exact decodes_host host rfl fun _ ↦ rfl
  | uint32 => exact decodes_host host rfl fun _ ↦ rfl
  | uint64 => exact decodes_host host rfl fun _ ↦ rfl
  | int8 => exact decodes_uint8.map (fun _ ↦ rfl) fun _ _ ↦ trivial
  | int16 => exact (decodes_host host rfl fun _ ↦ rfl).map (fun _ ↦ rfl) fun _ _ ↦ trivial
  | int32 => exact (decodes_host host rfl fun _ ↦ rfl).map (fun _ ↦ rfl) fun _ _ ↦ trivial
  | int64 => exact (decodes_host host rfl fun _ ↦ rfl).map (fun _ ↦ rfl) fun _ _ ↦ trivial
  | slice => exact decodes_slice
  | string => exact decodes_slice
  | sequenceLength => exact decodes_sequenceLength
  | pair fst snd ihfst ihsnd => exact ihfst.pair ihsnd
  | sequence element ih => exact ih.sequence

end Decodes

/-! ### Sequences of values -/

/-- A value with its type, whose lengths are sizes -/
structure TypedValue where
  type : SerdeType
  value : type.Value
  fits : type.Fits value

/-- What is read of a typed value -/
def TypedValue.read (v : TypedValue) : (t : SerdeType) × t.Value := ⟨v.type, v.value⟩

section Sequences

variable (junk : UInt8) (host : Endianness)

/-- Values are serialized one after the other, up to the first that fails. -/
def serializeAll (values : List TypedValue) : Serializer :=
  values.foldr (fun v rest ↦ (v.type.serialize junk host v.value).andThen rest)
    fun writer ↦ some (.ok, writer)

/-- Values of these types are deserialized one after the other, up to the first that fails. -/
def deserializeAll : List SerdeType → BytesReader →
    Option (List ((t : SerdeType) × t.Value) × Except SerdeError Unit × BytesReader)
  | [], reader => some ([], .ok (), reader)
  | t :: types, reader =>
    (t.deserialize host reader : Option (Except SerdeError t.Value × BytesReader)).bind fun r ↦
      match r.1 with
      | .error e => some ([], .error e, r.2)
      | .ok v => (deserializeAll types r.2).map fun q ↦ (⟨t, v⟩ :: q.1, q.2)

/-- The bytes of values -/
def encodeAll (values : List TypedValue) : List UInt8 :=
  values.flatMap fun v ↦ v.type.encode host v.value

variable {junk host} {values : List TypedValue} {reader : BytesReader}

theorem deserializeAll_cons {t : SerdeType} {types : List SerdeType} {v : t.Value}
    {next last : BytesReader} {got : List ((t : SerdeType) × t.Value)}
    {result : Except SerdeError Unit} (hfirst : t.deserialize host reader = some (.ok v, next))
    (hrest : deserializeAll host types next = some (got, result, last)) :
    deserializeAll host (t :: types) reader = some (⟨t, v⟩ :: got, result, last) := by
  rw [deserializeAll, hfirst, Option.bind_some]
  dsimp only
  rw [hrest, Option.map_some]

theorem appendsFrom_serializeAll (values : List TypedValue) :
    AppendsFrom BytesWriter.Filled (serializeAll junk host values) (encodeAll host values) := by
  induction values with
  | nil => exact fun writer hfilled ↦ ⟨writer, rfl, hfilled, (append_nil _).symm⟩
  | cons v values ih =>
    rw [encodeAll, flatMap_cons]
    exact (appends_serialize v.type v.value).filled.andThen ih

/-- All values are written. -/
theorem serializeAll_empty (values : List TypedValue) : ∃ writer,
    serializeAll junk host values .empty = some (.ok, writer) ∧
      flatten writer.finish = encodeAll host values := by
  cases values with
  | nil => exact ⟨_, rfl, rfl⟩
  | cons v values =>
    have happends : Appends (serializeAll junk host (v :: values))
        (encodeAll host (v :: values)) := by
      rw [encodeAll, flatMap_cons]
      exact (appends_serialize v.type v.value).andThen (appendsFrom_serializeAll values)
    obtain ⟨writer, hwrite, -, hbytes⟩ := happends .empty (.inl rfl)
    exact ⟨writer, hwrite, hbytes⟩

/-- All of the bytes give all of the values. -/
theorem deserializeAll_whole (hplaced : Placed reader) {rest : List UInt8}
    (hahead : reader.ahead = encodeAll host values ++ rest) : ∃ reader',
    deserializeAll host (values.map TypedValue.type) reader =
      some (values.map TypedValue.read, .ok (), reader') ∧
        Placed reader' ∧ reader'.ahead = rest := by
  induction values generalizing reader with
  | nil => exact ⟨reader, rfl, hplaced, hahead⟩
  | cons v values ih =>
    obtain ⟨p, hrefines, hreads⟩ := decodes_deserialize host v.type
    rw [encodeAll, flatMap_cons, append_assoc] at hahead
    have hp := (hreads v.value v.fits).whole (encodeAll host values ++ rest)
    rw [encodeAll, ← hahead] at hp
    obtain ⟨mid, hd, hplaced', hahead'⟩ := hrefines.ok reader hplaced _ _ hp
    obtain ⟨reader', hrest, hlast⟩ := ih hplaced' hahead'
    refine ⟨reader', ?_, hlast⟩
    rw [map_cons, map_cons, deserializeAll_cons hd hrest]
    rfl

/-- Fewer bytes give some of the values and then an error. -/
theorem deserializeAll_cut (hplaced : Placed reader) {behind : List UInt8} (hbehind : behind ≠ [])
    (hahead : reader.ahead ++ behind = encodeAll host values) : ∃ got e reader',
    deserializeAll host (values.map TypedValue.type) reader = some (got, .error e, reader') ∧
      got <+: values.map TypedValue.read ∧ got.length < values.length := by
  induction values generalizing reader with
  | nil => exact absurd (append_eq_nil_iff.mp hahead).2 hbehind
  | cons v values ih =>
    obtain ⟨p, hrefines, hreads⟩ := decodes_deserialize host v.type
    have hread := hreads v.value v.fits
    rw [encodeAll, flatMap_cons] at hahead
    -- the bytes end inside the first value, or behind it
    rcases append_eq_append_iff.mp hahead with ⟨mid, hword, hmore⟩ | ⟨mid, hfront, hmore⟩
    · by_cases hmid : mid = []
      · subst hmid
        rw [append_nil] at hword
        rw [nil_append] at hmore
        have hp := hread.whole []
        rw [append_nil, hword] at hp
        obtain ⟨next, hd, hplaced', hahead'⟩ := hrefines.ok reader hplaced _ _ hp
        obtain ⟨got, e, reader', hrest, hgot, hlen⟩ := ih hplaced'
          (by rw [hahead', nil_append]; exact hmore)
        refine ⟨⟨v.type, v.value⟩ :: got, e, reader', ?_, cons_prefix_cons.mpr ⟨rfl, hgot⟩,
          Nat.succ_lt_succ hlen⟩
        rw [map_cons, deserializeAll_cons hd hrest]
      · obtain ⟨e, he⟩ := hread.cut _ mid hword.symm hmid
        obtain ⟨reader', hd⟩ := hrefines.error reader hplaced e he
        refine ⟨[], e, reader', ?_, nil_prefix, Nat.succ_pos _⟩
        rw [map_cons, deserializeAll, hd, Option.bind_some]
    · have hp := hread.whole mid
      rw [← hfront] at hp
      obtain ⟨next, hd, hplaced', hahead'⟩ := hrefines.ok reader hplaced _ _ hp
      obtain ⟨got, e, reader', hrest, hgot, hlen⟩ := ih hplaced' (by rw [hahead']; exact hmore.symm)
      refine ⟨⟨v.type, v.value⟩ :: got, e, reader', ?_, cons_prefix_cons.mpr ⟨rfl, hgot⟩,
        Nat.succ_lt_succ hlen⟩
      rw [map_cons, deserializeAll_cons hd hrest]

theorem isDone_iff (hplaced : Placed reader) : isDone reader = true ↔ reader.ahead = [] := by
  obtain ⟨before, rest, h⟩ := hplaced
  have hlen := h.byteIdx_le
  rw [isDone, BytesReader.remaining, ← length_flatten, decide_eq_true_eq, ← length_eq_zero_iff]
  omega

end Sequences

/-- Values that are serialized are deserialized again, however their bytes lie in slices, and the
deserializer is done then. Where bytes are missing at the end, the values before the first that is
cut off are deserialized, and then there is an error. -/
theorem serialize_roundTrip (junk : UInt8) (host : Endianness) (values : List TypedValue) :
    ∃ writer, serializeAll junk host values .empty = some (.ok, writer) ∧
      (∀ bytes, flatten bytes = flatten writer.finish → ∃ reader,
        deserializeAll host (values.map TypedValue.type) (getReader bytes) =
          some (values.map TypedValue.read, .ok (), reader) ∧ isDone reader = true) ∧
      ∀ bytes behind, flatten bytes ++ behind = flatten writer.finish → behind ≠ [] →
        ∃ got e reader, deserializeAll host (values.map TypedValue.type) (getReader bytes) =
          some (got, .error e, reader) ∧ got <+: values.map TypedValue.read ∧
            got.length < values.length := by
  have hstart : ∀ bytes, Placed (getReader bytes) ∧ (getReader bytes).ahead = flatten bytes :=
    fun bytes ↦ ⟨⟨_, _, BytesReader.splits_getReader bytes⟩, rfl⟩
  obtain ⟨writer, hwrite, hbytes⟩ := @serializeAll_empty junk host values
  refine ⟨writer, hwrite, fun bytes hflatten ↦ ?_, fun bytes behind hflatten hbehind ↦ ?_⟩
  · obtain ⟨hplaced, hahead⟩ := hstart bytes
    rw [hflatten, hbytes, ← append_nil (encodeAll host values)] at hahead
    obtain ⟨reader, hread, hplaced', hdone⟩ := deserializeAll_whole hplaced hahead
    exact ⟨reader, hread, (isDone_iff hplaced').mpr hdone⟩
  · obtain ⟨hplaced, hahead⟩ := hstart bytes
    exact deserializeAll_cut hplaced hbehind (by rw [hahead, hflatten, hbytes])

end ZenohPico.Api
