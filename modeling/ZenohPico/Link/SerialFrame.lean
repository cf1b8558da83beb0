import Mathlib.Algebra.Ring.Nat
import Mathlib.Logic.Function.Iterate
import ZenohPico.Link.Cobs

/-!
Frames of a serial link (`src/protocol/codec/serial.c`,
`src/link/transport/upper/serial_protocol.c`).

A payload goes over the line with a header, its length and a checksum, encoded without zeros and with
a zero at the end. The reader checks the encoded frame, and not the decoded one, against the size of
the longest frame: a frame whose encoding is longer is refused, and the payloads of the last sizes
before the limit of the link are not received (`framingAgrees_iff`).

Memory is always granted and the line takes all that is written to it.
-/

namespace ZenohPico.Link

open Foundations List

/-! ### Numbers as bytes -/

/-- The bytes of a number of so many bytes, the lowest one first -/
def leBytes : ℕ → ℕ → List UInt8
  | 0, _ => []
  | k + 1, n => .ofNat n :: leBytes k (n / 256)

/-- The number with these bytes -/
def leNat : List UInt8 → ℕ
  | [] => 0
  | byte :: bytes => byte.toNat + 256 * leNat bytes

theorem length_leBytes (k n : ℕ) : (leBytes k n).length = k := by
  induction k generalizing n with
  | zero => rfl
  | succ k ih => rw [leBytes, length_cons, ih]

theorem leNat_leBytes {k n : ℕ} (h : n < 256 ^ k) : leNat (leBytes k n) = n := by
  induction k generalizing n with
  | zero =>
    rw [Nat.pow_zero, Nat.lt_one_iff] at h
    rw [h]
    rfl
  | succ k ih =>
    rw [Nat.pow_succ] at h
    have hrest : n / 256 < 256 ^ k := Nat.div_lt_of_lt_mul (by omega)
    rw [leBytes, leNat, ih hrest, UInt8.toNat_ofNat']
    omega

/-! ### The source's functions -/

/-- The inner loop of `_z_crc32`, once -/
def crc32Bit (crc : UInt32) : UInt32 := (crc >>> 1) ^^^ (0x04C11DB7 &&& (0 - (crc &&& 1)))

/-- `_z_crc32` -/
def crc32 (message : List UInt8) : UInt32 :=
  ~~~ message.foldl (fun crc byte ↦ crc32Bit^[8] (crc ^^^ byte.toUInt32)) 0xFFFFFFFF

/-- `_Z_SERIAL_MTU_SIZE` -/
abbrev serialMtu : ℕ := 1500

/-- `_Z_SERIAL_MFS_SIZE` -/
abbrev serialMfs : ℕ := serialMtu + 1 + 2 + 4

/-- `_Z_SERIAL_MAX_COBS_BUF_SIZE` -/
abbrev serialMaxCobs : ℕ := 1516

/-- What a frame is before it is encoded -/
def serialFrame (header : UInt8) (payload : List UInt8) (crc : UInt32) : List UInt8 :=
  header :: (leBytes 2 payload.length ++ payload ++ leBytes 4 crc.toNat)

/-- `_z_serial_msg_serialize`, in buffers of these sizes -/
def serialMsgSerialize (destLen : ℕ) (src : List UInt8) (header : UInt8) (tmpLen : ℕ) :
    Option (List UInt8) :=
  if tmpLen < src.length + 1 + 2 + 4 then none
  else
    let dest := cobsEncode (serialFrame header src (crc32 src))
    if destLen < dest.length + 1 then none else some (dest ++ [0])

/-- `_z_serial_msg_deserialize`, into buffers of these sizes. No frame has the size of one whose
decoding ends before its buffer. -/
def serialMsgDeserialize (src : List UInt8) (dstLen tmpLen : ℕ) : Option (UInt8 × List UInt8) :=
  if tmpLen < src.length then none
  else
    (cobsDecode src).bind fun decoded ↦
      if decoded.length < 1 + 2 + 4 then none
      else
        let wireSize := leNat ((decoded.drop 1).take 2)
        if wireSize + 1 + 2 + 4 ≠ decoded.length then none
        else if dstLen < wireSize then none
        else
          let dst := (decoded.drop 3).take wireSize
          if leNat ((decoded.drop (3 + wireSize)).take 4) ≠ (crc32 dst).toNat then none
          else some (decoded.headD 0, dst)

/-- The loop of `_z_read_serial_internal` that reads up to a zero, so many bytes at most. There is no
result where the line has no more bytes. -/
def readRaw : ℕ → List UInt8 → Option (List UInt8 × List UInt8)
  | 0, port => some ([], port)
  | _ + 1, [] => none
  | n + 1, byte :: port =>
    if byte = 0 then some ([byte], port)
    else (readRaw n port).map fun (raw, port) ↦ (byte :: raw, port)

/-- `_z_read_serial_internal`, into a buffer of this length: the header and the payload, and what is
left on the line -/
def readSerialInternal (port : List UInt8) (len : ℕ) : Option (UInt8 × List UInt8) × List UInt8 :=
  match readRaw serialMaxCobs port with
  | none => (none, [])
  | some (raw, port) => (serialMsgDeserialize raw len serialMfs, port)

/-- `_z_send_serial_internal`: what it puts on the line -/
def sendSerialInternal (header : UInt8) (payload : List UInt8) : Option (List UInt8) :=
  serialMsgSerialize serialMaxCobs payload header serialMfs

/-! ### One frame -/

section Frame

variable {header : UInt8} {payload : List UInt8} {crc : UInt32}

theorem length_serialFrame (header : UInt8) (payload : List UInt8) (crc : UInt32) :
    (serialFrame header payload crc).length = payload.length + 1 + 2 + 4 := by
  rw [serialFrame, length_cons, length_append, length_append, length_leBytes, length_leBytes]
  omega

/-- What is made of a frame that was decoded: there has to be room for its payload, and the checksum
has to be that of the payload. -/
theorem serialMsgDeserialize_frame {src : List UInt8} {dstLen tmpLen : ℕ}
    (htmp : src.length ≤ tmpLen) (hdecode : cobsDecode src = some (serialFrame header payload crc))
    (hlen : payload.length < 256 ^ 2) : serialMsgDeserialize src dstLen tmpLen =
      if payload.length ≤ dstLen ∧ crc = crc32 payload then some (header, payload)
      else none := by
  have hframe := length_serialFrame header payload crc
  have hsize : leNat (((serialFrame header payload crc).drop 1).take 2) = payload.length := by
    rw [serialFrame, drop_one, tail_cons, append_assoc,
      take_append_of_le_length (Nat.le_of_eq (length_leBytes 2 _).symm),
      take_of_length_le (Nat.le_of_eq (length_leBytes 2 _)), leNat_leBytes hlen]
  have hbody : (serialFrame header payload crc).drop 3 = payload ++ leBytes 4 crc.toNat := by
    rw [serialFrame, drop_succ_cons, append_assoc, drop_left' (length_leBytes 2 payload.length)]
  have hpayload : ((serialFrame header payload crc).drop 3).take payload.length = payload := by
    rw [hbody, take_left]
  have hcrc : leNat (((serialFrame header payload crc).drop (3 + payload.length)).take 4) =
      crc.toNat := by
    rw [← drop_drop, hbody, drop_left,
      take_of_length_le (Nat.le_of_eq (length_leBytes 4 _)), leNat_leBytes crc.toNat_lt]
  rw [serialMsgDeserialize, if_neg (Nat.not_lt_of_le htmp), hdecode, Option.bind_some,
    if_neg (by omega)]
  dsimp only
  rw [hsize, if_neg (by omega), hpayload, hcrc]
  by_cases hroom : payload.length ≤ dstLen
  · rw [if_neg (Nat.not_lt_of_le hroom)]
    by_cases hcheck : crc = crc32 payload
    · rw [if_neg (by rw [hcheck]; exact not_not_intro rfl), if_pos ⟨hroom, hcheck⟩]
      rfl
    · rw [if_pos (fun heq ↦ hcheck (UInt32.toNat_inj.mp heq)), if_neg (fun h ↦ hcheck h.2)]
  · rw [if_pos (Nat.lt_of_not_le hroom), if_neg (fun h ↦ hroom h.1)]

variable {raw : List UInt8}

theorem readRaw_frame {n : ℕ} (hzero : 0 ∉ raw) (hlen : raw.length < n) (port : List UInt8) :
    readRaw n (raw ++ 0 :: port) = some (raw ++ [0], port) := by
  induction raw generalizing n with
  | nil =>
    obtain ⟨n, rfl⟩ := Nat.exists_eq_add_one.mpr hlen
    rw [nil_append, readRaw, if_pos rfl, nil_append]
  | cons byte raw ih =>
    rw [length_cons] at hlen
    obtain ⟨n, rfl⟩ := Nat.exists_eq_add_one.mpr (Nat.zero_lt_of_lt hlen)
    rw [mem_cons, not_or] at hzero
    rw [cons_append, readRaw, if_neg (Ne.symm hzero.1), ih hzero.2 (by omega)]
    rfl

/-- A frame that is not over within the limit is read up to the limit. -/
theorem readRaw_long {n : ℕ} (hzero : 0 ∉ raw) (hlen : n ≤ raw.length) (port : List UInt8) :
    readRaw n (raw ++ port) = some (raw.take n, raw.drop n ++ port) := by
  induction raw generalizing n with
  | nil =>
    obtain rfl := Nat.le_zero.mp hlen
    rfl
  | cons byte raw ih =>
    cases n with
    | zero => rfl
    | succ n =>
      rw [mem_cons, not_or] at hzero
      rw [length_cons] at hlen
      rw [cons_append, readRaw, if_neg (Ne.symm hzero.1), ih hzero.2 (by omega)]
      rfl

/-- A frame is read when its encoding, with the zero, is no longer than the longest frame. -/
theorem readSerialInternal_frame
    (hfits : (cobsEncode (serialFrame header payload crc)).length + 1 ≤ serialMfs) (len : ℕ)
    (port : List UInt8) :
    readSerialInternal (cobsEncode (serialFrame header payload crc) ++ 0 :: port) len =
      (if payload.length ≤ len ∧ crc = crc32 payload then some (header, payload) else none,
        port) := by
  have hshort : payload.length < 256 ^ 2 := by
    rw [length_cobsEncode, length_serialFrame] at hfits
    unfold serialMfs serialMtu at hfits
    omega
  rw [readSerialInternal, readRaw_frame (zero_notMem_cobsEncode _) (by
    unfold serialMfs serialMtu at hfits
    unfold serialMaxCobs
    omega)]
  dsimp only
  rw [serialMsgDeserialize_frame (by rwa [length_append, length_singleton])
    (cobsDecode_cobsEncode _ (Or.inr rfl)) hshort]

/-- A longer one is refused. -/
theorem readSerialInternal_long (hzero : 0 ∉ raw) (hlong : serialMfs < raw.length + 1)
    (port : List UInt8) (len : ℕ) : (readSerialInternal (raw ++ 0 :: port) len).1 = none := by
  have hrefused {read : List UInt8} (h : serialMfs < read.length) :
      serialMsgDeserialize read len serialMfs = none := if_pos h
  rw [readSerialInternal]
  by_cases hmax : raw.length < serialMaxCobs
  · rw [readRaw_frame hzero hmax]
    refine hrefused ?_
    rwa [length_append, length_singleton]
  · rw [readRaw_long hzero (Nat.le_of_not_lt hmax)]
    refine hrefused ?_
    rw [length_take, Nat.min_eq_left (Nat.le_of_not_lt hmax)]
    decide

/-- A frame with the checksum of another payload is refused, whatever its length. -/
theorem readSerialInternal_corrupted (hcrc : crc ≠ crc32 payload) (port : List UInt8) (len : ℕ) :
    (readSerialInternal (cobsEncode (serialFrame header payload crc) ++ 0 :: port) len).1 =
      none := by
  by_cases hfits : (cobsEncode (serialFrame header payload crc)).length + 1 ≤ serialMfs
  · rw [readSerialInternal_frame hfits, if_neg (fun h ↦ hcrc h.2)]
  · exact readSerialInternal_long (zero_notMem_cobsEncode _) (Nat.lt_of_not_le hfits) port len

/-- Every payload up to the limit of the link is sent. -/
theorem sendSerialInternal_eq (header : UInt8) {payload : List UInt8}
    (hmtu : payload.length ≤ serialMtu) : sendSerialInternal header payload =
      some (cobsEncode (serialFrame header payload (crc32 payload)) ++ [0]) := by
  have hruns := mul_fullRuns_le (0 : UInt8) cobsBound 0
    (serialFrame header payload (crc32 payload))
  have hlen := length_cobsEncode (serialFrame header payload (crc32 payload))
  rw [length_serialFrame] at hruns hlen
  unfold serialMtu at hmtu
  unfold cobsBound at hruns hlen
  rw [sendSerialInternal, serialMsgSerialize, if_neg (by unfold serialMfs serialMtu; omega)]
  dsimp only
  rw [if_neg (by unfold serialMaxCobs; omega)]

/-- What was sent is received, with the header, in any buffer with room for the payload, and no frame
with the checksum of another payload is. -/
structure FramingAgrees (header : UInt8) (payload : List UInt8) : Prop where
  received : ∀ raw, sendSerialInternal header payload = some raw → ∀ len, payload.length ≤ len →
    ∀ port, readSerialInternal (raw ++ port) len = (some (header, payload), port)
  rejected : ∀ (payload' : List UInt8) (crc : UInt32), crc ≠ crc32 payload' → ∀ len port,
    (readSerialInternal (cobsEncode (serialFrame header payload' crc) ++ 0 :: port) len).1 = none

/-- Sending and receiving agree on a payload up to the limit of the link exactly when it is shorter
than the limit by two bytes, and by one more for each run of 254 bytes in the frame. -/
theorem framingAgrees_iff {header : UInt8} {payload : List UInt8}
    (hmtu : payload.length ≤ serialMtu) : FramingAgrees header payload ↔
      payload.length + fullRuns 0 cobsBound 0 (serialFrame header payload (crc32 payload)) + 2 ≤
        serialMtu := by
  have hlen := length_cobsEncode (serialFrame header payload (crc32 payload))
  rw [length_serialFrame] at hlen
  constructor
  · intro h
    by_contra hlong
    have hreceived := h.received _ (sendSerialInternal_eq header hmtu) payload.length (Nat.le_refl _) []
    rw [append_assoc, singleton_append] at hreceived
    have hrefused := readSerialInternal_long (zero_notMem_cobsEncode
      (serialFrame header payload (crc32 payload))) (by
        unfold serialMfs
        omega) [] payload.length
    rw [hreceived] at hrefused
    cases hrefused
  · intro hfits
    refine ⟨fun raw hsend len hroom port ↦ ?_, fun payload' crc hcrc len port ↦
      readSerialInternal_corrupted hcrc port len⟩
    rw [sendSerialInternal_eq header hmtu] at hsend
    obtain rfl := Option.some.inj hsend
    rw [append_assoc, singleton_append, readSerialInternal_frame (by
      unfold serialMfs
      omega), if_pos ⟨hroom, rfl⟩]

theorem framingAgrees_three : FramingAgrees 0 [1, 2, 3] :=
  (framingAgrees_iff (by decide)).mpr (by decide +kernel)

/-- The longest payload of the link is sent, and is not received. -/
theorem not_framingAgrees_mtu : ∃ payload, payload.length ≤ serialMtu ∧
    (∃ raw, sendSerialInternal 0 payload = some raw) ∧ ¬ FramingAgrees 0 payload := by
  have hmtu : (List.replicate serialMtu (0 : UInt8)).length ≤ serialMtu :=
    Nat.le_of_eq length_replicate
  have hsend := sendSerialInternal_eq 0 hmtu
  refine ⟨List.replicate serialMtu 0, hmtu, ⟨_, hsend⟩, fun h ↦ ?_⟩
  have hlen := length_cobsEncode
    (serialFrame 0 (List.replicate serialMtu 0) (crc32 (List.replicate serialMtu 0)))
  rw [length_serialFrame, length_replicate] at hlen
  have hreceived := h.received _ hsend serialMtu hmtu []
  rw [append_assoc, singleton_append] at hreceived
  have hrefused := readSerialInternal_long (zero_notMem_cobsEncode
    (serialFrame 0 (List.replicate serialMtu 0) (crc32 (List.replicate serialMtu 0)))) (by
      unfold serialMfs
      omega) [] serialMtu
  rw [hreceived] at hrefused
  cases hrefused

end Frame

end ZenohPico.Link
