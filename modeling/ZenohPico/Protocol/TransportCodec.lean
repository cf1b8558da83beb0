import ZenohPico.Protocol.TransportMessage
import Mathlib.Tactic.IntervalCases

/-!
Encoding and decoding of transport messages (`src/protocol/codec/transport.c`).

The functions are the source's, one for each kind of message. The round trips shown here are
those of INIT and OPEN: what a decoder reads back of an INIT depends on the flags of its
header and not on the values behind them.
-/

open List (append_assoc cons_append ext_getElem getD_eq_getElem getElem_append_left
  getElem_append_right getElem_replicate getElem_take length_take)

namespace ZenohPico.Protocol

/-! ### Identifiers -/

/-- The byte of the role and of the length of the identifier -/
def zidCbyte (whatami : WhatAmI) (zid : ZenohId) : UInt8 :=
  whatamiToUint8 whatami ||| (((UInt8.ofNat (idLen zid) - 1) &&& 0x0F) <<< 4)

/-- The version, the role and the identifier at the front of INIT and JOIN -/
def zidEncode (version : UInt8) (whatami : WhatAmI) (zid : ZenohId) : List UInt8 :=
  version :: zidCbyte whatami zid :: zid.id.take (idLen zid)

/-- The identifier behind its length byte -/
def zidDecode (cbyte : UInt8) : Decoder ZenohId := do
  let zidlen := ((cbyte &&& (0xF0 : UInt8)) >>> 4) + 1
  let bytes ← readBytes zidlen.toNat
  pure (ZenohId.ofBytes bytes)

/-! ### Sizes -/

/-- The resolutions and the batch size behind the S flag -/
def sizesEncode (seqNumRes reqIdRes : UInt8) (batchSize : UInt16) : List UInt8 :=
  ((seqNumRes &&& (0x03 : UInt8)) ||| ((reqIdRes &&& (0x03 : UInt8)) <<< 2)) ::
    uint16Encode batchSize

/-- The resolutions and the batch size, read or taken from the defaults -/
def sizesDecode (header flag : UInt8) (defaultBatchSize : UInt16) :
    Decoder (UInt8 × UInt8 × UInt16) :=
  if hasFlag header flag then do
    let cbyte ← uint8Decode
    let batchSize ← uint16Decode
    pure (cbyte &&& 0x03, (cbyte >>> 2) &&& 0x03, batchSize)
  else pure (defaultResolutionSize, defaultResolutionSize, defaultBatchSize)

/-- The cookie of INIT and OPEN, where it is present -/
def cookieDecode (present : Bool) : Decoder (List UInt8) :=
  if present then sliceDecode else pure []

/-- The extensions of a message that knows none -/
def extensionsDecode (header : UInt8) : Decoder Unit :=
  if hasFlag header 0x80 then msgExtSkipNonMandatories else pure ()

/-! ### Join -/

/-- The sequence numbers of the QoS extension -/
def conduitSnsEncode (sns : List ConduitSn) : List UInt8 :=
  sns.flatMap fun sn ↦ zint64Encode sn.reliable ++ zint64Encode sn.bestEffort

/-- The patch version behind the extensions' flag -/
def patchEncode (fragmentation : Bool) (header patch : UInt8) : Except ZError (List UInt8) :=
  if fragmentation && patch != noPatch then
    if hasFlag header 0x80 then .ok (0x27 :: zint64Encode patch.toUInt64)
    else .error .messageSerializationFailed
  else .ok []

/-- The QoS extension of JOIN -/
def joinQosEncode (hasPatch : Bool) (header : UInt8) (nextSn : ConduitSnList) :
    Except ZError (List UInt8) :=
  if nextSn.isQos then
    if hasFlag header 0x80 then
      .ok ((0x51 ||| flagIf hasPatch 0x80) :: sliceEncode (conduitSnsEncode nextSn.qos.toList))
    else .error .messageSerializationFailed
  else .ok []

/-- `_z_join_encode` -/
def joinEncode (fragmentation : Bool) (header : UInt8) (msg : TMsgJoin) :
    Except ZError (List UInt8) := do
  let sizes :=
    if hasFlag header 0x40 then sizesEncode msg.seqNumRes msg.reqIdRes msg.batchSize else []
  let lease := zint64Encode (if hasFlag header 0x20 then msg.lease / 1000 else msg.lease)
  let sns := zint64Encode msg.nextSn.plain.reliable ++ zint64Encode msg.nextSn.plain.bestEffort
  let qos ← joinQosEncode (fragmentation && msg.patch != noPatch) header msg.nextSn
  let patch ← patchEncode fragmentation header msg.patch
  .ok (zidEncode msg.version msg.whatami msg.zid ++ sizes ++ lease ++ sns ++ qos ++ patch)

/-- The loop over the pairs of the QoS extension -/
def conduitSnsDecode : (n : ℕ) → Decoder (Vector ConduitSn n)
  | 0 => pure #v[]
  | n + 1 => do
    let sns ← conduitSnsDecode n
    let reliable ← zint64Decode
    let bestEffort ← zint64Decode
    pure (sns.push ⟨reliable, bestEffort⟩)

/-- The bytes of an extension's body, nothing for the other encodings -/
def MsgExtBody.bytes : MsgExtBody → List UInt8
  | .zbuf val => val
  | _ => []

/-- The integer of an extension's body, 0 for the other encodings -/
def MsgExtBody.val : MsgExtBody → UInt64
  | .zint val => val
  | _ => 0

/-- `_z_join_decode_ext` -/
def joinDecodeExt (fragmentation : Bool) (extension : MsgExt) (msg : TMsgJoin) :
    Except ZError TMsgJoin :=
  if extFullId extension.header = 0x51 then
    match conduitSnsDecode 8 extension.body.bytes with
    | .ok (sns, _) => .ok { msg with nextSn := { qos := sns, isQos := true } }
    | .error e => .error e
  else if fragmentation ∧ extFullId extension.header = 0x27 then
    .ok { msg with patch := extension.body.val.toUInt8 }
  else if msgExtIsMandatory extension.header then .error .messageExtensionMandatoryAndUnknown
  else .ok msg

/-- `_z_join_decode` -/
def joinDecode (fragmentation : Bool) (header : UInt8) : Decoder TMsgJoin := do
  let version ← uint8Decode
  let cbyte ← uint8Decode
  let zid ← zidDecode cbyte
  let (seqNumRes, reqIdRes, batchSize) ← sizesDecode header 0x40 defaultMulticastBatchSize
  let lease ← zint64Decode
  let reliable ← zint64Decode
  let bestEffort ← zint64Decode
  let msg : TMsgJoin :=
    { zid, batchSize, reqIdRes, seqNumRes, version
      lease := if hasFlag header 0x20 then lease * 1000 else lease
      nextSn := ConduitSnList.ofPlain ⟨reliable, bestEffort⟩
      whatami := whatamiFromUint8 cbyte
      patch := noPatch }
  if hasFlag header 0x80 then msgExtDecodeIter (joinDecodeExt fragmentation) msg else pure msg

/-! ### Init -/

/-- `_z_init_encode` -/
def initEncode (fragmentation : Bool) (header : UInt8) (msg : TMsgInit) :
    Except ZError (List UInt8) := do
  let sizes :=
    if hasFlag header 0x40 then sizesEncode msg.seqNumRes msg.reqIdRes msg.batchSize else []
  let cookie := if hasFlag header 0x20 then sliceEncode msg.cookie else []
  let patch ← patchEncode fragmentation header msg.patch
  .ok (zidEncode msg.version msg.whatami msg.zid ++ sizes ++ cookie ++ patch)

/-- `_z_init_decode_ext` -/
def initDecodeExt (fragmentation : Bool) (extension : MsgExt) (msg : TMsgInit) :
    Except ZError TMsgInit :=
  if fragmentation ∧ extFullId extension.header = 0x27 then
    .ok { msg with patch := extension.body.val.toUInt8 }
  else if msgExtIsMandatory extension.header then .error .messageExtensionMandatoryAndUnknown
  else .ok msg

/-- `_z_init_decode` -/
def initDecode (fragmentation : Bool) (header : UInt8) : Decoder TMsgInit := do
  let version ← uint8Decode
  let cbyte ← uint8Decode
  let zid ← zidDecode cbyte
  let (seqNumRes, reqIdRes, batchSize) ← sizesDecode header 0x40 defaultUnicastBatchSize
  let cookie ← cookieDecode (hasFlag header 0x20)
  let msg : TMsgInit :=
    { zid, cookie, batchSize, reqIdRes, seqNumRes, version
      whatami := whatamiFromUint8 cbyte
      patch := noPatch }
  if hasFlag header 0x80 then msgExtDecodeIter (initDecodeExt fragmentation) msg else pure msg

/-! ### Open -/

/-- `_z_open_encode` -/
def openEncode (header : UInt8) (msg : TMsgOpen) : List UInt8 :=
  zint64Encode (if hasFlag header 0x40 then msg.lease / 1000 else msg.lease) ++
    zint64Encode msg.initialSn ++ (if hasFlag header 0x20 then [] else sliceEncode msg.cookie)

/-- `_z_open_decode` -/
def openDecode (header : UInt8) : Decoder TMsgOpen := do
  let lease ← zint64Decode
  let initialSn ← zint64Decode
  let cookie ← cookieDecode (!hasFlag header 0x20)
  extensionsDecode header
  pure
    { lease := if hasFlag header 0x40 then lease * 1000 else lease
      initialSn, cookie }

/-! ### Close, keep alive, frame and fragment -/

/-- `_z_close_encode` -/
def closeEncode (msg : TMsgClose) : List UInt8 := [msg.reason]

/-- `_z_close_decode` -/
def closeDecode : Decoder TMsgClose := do
  let reason ← uint8Decode
  pure { reason }

/-- `_z_keep_alive_decode` -/
def keepAliveDecode (header : UInt8) : Decoder Unit := extensionsDecode header

/-- `_z_frame_encode` -/
def frameEncode (header : UInt8) (msg : TMsgFrame) : Except ZError (List UInt8) :=
  if hasFlag header 0x80 then .error .messageSerializationFailed
  else .ok (zint64Encode msg.sn ++ msg.payload)

/-- `_z_frame_decode`: the payload is what is left, and is not consumed. -/
def frameDecode (header : UInt8) : Decoder TMsgFrame := do
  let sn ← zint64Decode
  extensionsDecode header
  let payload ← get
  pure { sn, payload }

/-- `_z_fragment_encode` -/
def fragmentEncode (header : UInt8) (msg : TMsgFragment) : Except ZError (List UInt8) :=
  if (msg.first || msg.drop) && !hasFlag header 0x80 then .error .messageSerializationFailed
  else
    .ok (zint64Encode msg.sn ++ (if msg.first then [0x02 ||| flagIf msg.drop 0x80] else []) ++
      (if msg.drop then [0x03] else []) ++ msg.payload)

/-- `_z_fragment_decode_ext` -/
def fragmentDecodeExt (extension : MsgExt) (msg : TMsgFragment) : Except ZError TMsgFragment :=
  if extFullId extension.header = 0x02 then .ok { msg with first := true }
  else if extFullId extension.header = 0x03 then .ok { msg with drop := true }
  else if msgExtIsMandatory extension.header then .error .messageExtensionMandatoryAndUnknown
  else .ok msg

/-- The markers of a fragment -/
def fragmentMarkersDecode (header : UInt8) (msg : TMsgFragment) : Decoder TMsgFragment :=
  if hasFlag header 0x80 then msgExtDecodeIter fragmentDecodeExt msg else pure msg

/-- `_z_fragment_decode`: the payload is the rest of the buffer. -/
def fragmentDecode (header : UInt8) : Decoder TMsgFragment := do
  let sn ← zint64Decode
  let msg ← fragmentMarkersDecode header { sn, payload := [], first := false, drop := false }
  let payload ← get
  set ([] : List UInt8)
  pure { msg with payload }

/-! ### Transport messages -/

/-- `_z_transport_message_encode`, the body of a message being the one its header names -/
def transportMessageEncode (fragmentation : Bool) (msg : TransportMessage) :
    Except ZError (List UInt8) := do
  let body ← match msg.body with
    | .join body => joinEncode fragmentation msg.header body
    | .init body => initEncode fragmentation msg.header body
    | .opening body => .ok (openEncode msg.header body)
    | .close body => .ok (closeEncode body)
    | .keepAlive => .ok []
    | .frame body => frameEncode msg.header body
    | .fragment body => fragmentEncode msg.header body
  .ok (msg.header :: body)

/-- `_z_transport_message_decode` -/
def transportMessageDecode (fragmentation : Bool) : Decoder TransportMessage := do
  let header ← uint8Decode
  if mid header = 0x05 then
    return { header, body := .frame (← frameDecode header) }
  else if mid header = 0x06 then
    return { header, body := .fragment (← fragmentDecode header) }
  else if mid header = 0x04 then
    keepAliveDecode header
    return { header, body := .keepAlive }
  else if mid header = 0x07 then
    return { header, body := .join (← joinDecode fragmentation header) }
  else if mid header = 0x01 then
    return { header, body := .init (← initDecode fragmentation header) }
  else if mid header = 0x02 then
    return { header, body := .opening (← openDecode header) }
  else if mid header = 0x03 then
    return { header, body := .close (← closeDecode) }
  else throw .messageTransportUnknown

/-! ### Reading an identifier back -/

theorem idLenFrom_le (id : List UInt8) (len : ℕ) : idLenFrom id len ≤ len := by
  induction len with
  | zero => exact le_rfl
  | succ len ih =>
    rw [idLenFrom]
    split
    · exact le_rfl
    · exact ih.trans (Nat.le_succ len)

theorem idLen_le (zid : ZenohId) : idLen zid ≤ 16 := idLenFrom_le zid.id 16

variable {len : ℕ} {header : UInt8} {fragmentation : Bool}

/-- Only zeros stand between the length of an identifier and the end of its array. -/
theorem getD_of_idLenFrom_le {id : List UInt8} {len j : ℕ} (hlen : idLenFrom id len ≤ j)
    (hj : j < len) : id.getD j 0 = 0 := by
  induction len with
  | zero => exact absurd hj (Nat.not_lt_zero j)
  | succ len ih =>
    rw [idLenFrom] at hlen
    split at hlen
    · omega
    · next hzero =>
      rcases Nat.lt_succ_iff_lt_or_eq.mp hj with hlt | rfl
      · exact ih hlen hlt
      · exact not_not.mp hzero

theorem ofBytes_take_idLen (zid : ZenohId) : ZenohId.ofBytes (zid.id.take (idLen zid)) = zid := by
  have hlen := zid.length_id
  have hle := idLen_le zid
  have hid : (zid.id.take (idLen zid) ++ List.replicate 16 0).take 16 = zid.id := by
    apply ext_getElem
    · simp [hlen]
    · intro j hj hj'
      rw [getElem_take]
      by_cases hlt : j < idLen zid
      · rw [getElem_append_left (by simp; omega), getElem_take]
      · have hlen' : idLenFrom zid.id 16 ≤ j := Nat.le_of_not_lt hlt
        have hzero := getD_of_idLenFrom_le hlen' (by omega)
        rw [getD_eq_getElem _ _ hj'] at hzero
        rw [getElem_append_right (by simp; omega), getElem_replicate, hzero]
  rw [ZenohId.ofBytes]
  congr 1

theorem zidlen_of_cbyte (whatami : WhatAmI) (hpos : 0 < len) (hle : len ≤ 16) :
    ((((whatamiToUint8 whatami ||| (((UInt8.ofNat len - 1) &&& 0x0F) <<< 4)) &&& 0xF0) >>> 4) +
      1).toNat = len := by
  cases whatami <;> interval_cases len <;> rfl

theorem whatamiFromUint8_cbyte {whatami : WhatAmI} (h : whatami ≠ .reserved) (hpos : 0 < len)
    (hle : len ≤ 16) :
    whatamiFromUint8 (whatamiToUint8 whatami ||| (((UInt8.ofNat len - 1) &&& 0x0F) <<< 4)) =
      whatami := by
  cases whatami <;> interval_cases len <;> first | rfl | exact absurd rfl h

theorem zidDecode_take {zid : ZenohId} (hpos : 0 < idLen zid) (whatami : WhatAmI)
    (zbf : List UInt8) :
    zidDecode (zidCbyte whatami zid) (zid.id.take (idLen zid) ++ zbf) = .ok (zid, zbf) := by
  have hle := idLen_le zid
  have hlen : (zid.id.take (idLen zid)).length = idLen zid := by
    rw [length_take, zid.length_id]
    omega
  have hread : readBytes ((((zidCbyte whatami zid) &&& 0xF0) >>> 4) + 1).toNat
      (zid.id.take (idLen zid) ++ zbf) = .ok (zid.id.take (idLen zid), zbf) := by
    rw [zidCbyte, zidlen_of_cbyte whatami hpos hle]
    nth_rewrite 1 [← hlen]
    exact readBytes_append _ _
  rw [zidDecode, Decoder.bind_of_ok hread, ofBytes_take_idLen]
  rfl

/-! ### Reading the sizes back -/

theorem and_three_eq_ofNat (b : UInt8) : ∃ k : Fin 4, b &&& 0x03 = UInt8.ofNat k.val := by
  have hand : b.toNat &&& (0x03 : UInt8).toNat = b.toNat % 2 ^ 2 :=
    Nat.and_two_pow_sub_one_eq_mod b.toNat 2
  refine ⟨⟨b.toNat % 4, Nat.mod_lt _ (by decide)⟩, ?_⟩
  apply UInt8.toNat_inj.mp
  rw [UInt8.toNat_and, hand, UInt8.toNat_ofNat']
  exact (Nat.mod_eq_of_lt (by omega)).symm

theorem sizesDecode_encode {flag : UInt8} (hflag : hasFlag header flag = true)
    (seqNumRes reqIdRes : UInt8) (batchSize defaultBatchSize : UInt16) (zbf : List UInt8) :
    sizesDecode header flag defaultBatchSize
        (sizesEncode seqNumRes reqIdRes batchSize ++ zbf) =
      .ok ((seqNumRes &&& 0x03, reqIdRes &&& 0x03, batchSize), zbf) := by
  have hall : ∀ k l : Fin 4,
      let cbyte := UInt8.ofNat k.val ||| (UInt8.ofNat l.val <<< 2)
      cbyte &&& 0x03 = UInt8.ofNat k.val ∧ (cbyte >>> 2) &&& 0x03 = UInt8.ofNat l.val := by
    decide +kernel
  obtain ⟨k, hk⟩ := and_three_eq_ofNat seqNumRes
  obtain ⟨l, hl⟩ := and_three_eq_ofNat reqIdRes
  have hcbyte := hall k l
  rw [sizesDecode, if_pos hflag, sizesEncode, cons_append,
    Decoder.bind_of_ok (uint8Decode_cons _ _), Decoder.bind_of_ok (uint16Decode_encode _ _), hk,
    hl, hcbyte.1, hcbyte.2]
  rfl

theorem sizesDecode_default {flag : UInt8} (hflag : hasFlag header flag = false)
    (defaultBatchSize : UInt16) (zbf : List UInt8) : sizesDecode header flag defaultBatchSize zbf =
      .ok ((defaultResolutionSize, defaultResolutionSize, defaultBatchSize), zbf) := by
  rw [sizesDecode, hflag]
  rfl

/-! ### Reading an INIT back -/

theorem msgExtDecode_patch (patch : UInt8) (zbf : List UInt8) :
    msgExtDecode (0x27 :: (zint64Encode patch.toUInt64 ++ zbf)) =
      .ok (({ header := 0x27, body := .zint patch.toUInt64 }, false), zbf) :=
  msgExtDecode_zint (by decide) _ _

/-- The patch extension is taken by a build that knows it and skipped by the others. -/
theorem initDecodeExt_patch (fragmentation : Bool) (patch : UInt8) (msg : TMsgInit) :
    initDecodeExt fragmentation { header := 0x27, body := .zint patch.toUInt64 } msg =
      .ok (if fragmentation then { msg with patch } else msg) := by
  have hid : extFullId 0x27 = 0x27 := by decide
  cases fragmentation with
  | true => simp [initDecodeExt, hid, MsgExtBody.val]
  | false =>
    have hoptional : msgExtIsMandatory 0x27 = false := by decide
    simp [initDecodeExt, hoptional]

/-- What the receiver reads of an INIT: the header decides which sizes are the sender's, and
the receiver's build whether a patch version is looked at. -/
def TMsgInit.received (fragmentation : Bool) (header : UInt8) (msg : TMsgInit) : TMsgInit :=
  { msg with
    seqNumRes := if hasFlag header 0x40 then msg.seqNumRes &&& 0x03 else defaultResolutionSize
    reqIdRes := if hasFlag header 0x40 then msg.reqIdRes &&& 0x03 else defaultResolutionSize
    batchSize := if hasFlag header 0x40 then msg.batchSize else defaultUnicastBatchSize
    cookie := if hasFlag header 0x20 then msg.cookie else []
    patch := if fragmentation && hasFlag header 0x80 then msg.patch else noPatch }

/-- The part of an INIT in front of the extensions -/
def initFields (header : UInt8) (msg : TMsgInit) : List UInt8 :=
  zidEncode msg.version msg.whatami msg.zid ++
    (if hasFlag header 0x40 then sizesEncode msg.seqNumRes msg.reqIdRes msg.batchSize else []) ++
    (if hasFlag header 0x20 then sliceEncode msg.cookie else [])

theorem sizesDecode_fields (header : UInt8) (msg : TMsgInit) (zbf : List UInt8) :
    sizesDecode header 0x40 defaultUnicastBatchSize
        ((if hasFlag header 0x40 then sizesEncode msg.seqNumRes msg.reqIdRes msg.batchSize
          else []) ++ zbf) =
      .ok ((if hasFlag header 0x40 then msg.seqNumRes &&& 0x03 else defaultResolutionSize,
        if hasFlag header 0x40 then msg.reqIdRes &&& 0x03 else defaultResolutionSize,
        if hasFlag header 0x40 then msg.batchSize else defaultUnicastBatchSize), zbf) := by
  cases hflag : hasFlag header 0x40 with
  | true => exact sizesDecode_encode hflag _ _ _ _ _
  | false => exact sizesDecode_default hflag _ _

theorem cookieDecode_fields (present : Bool) {cookie : List UInt8}
    (h : cookie.length < 2 ^ 64) (zbf : List UInt8) :
    cookieDecode present ((if present then sliceEncode cookie else []) ++ zbf) =
      .ok (if present then cookie else [], zbf) := by
  cases present with
  | true => exact sliceDecode_encode h zbf
  | false => rfl

variable {msg : TMsgInit}

/-- Reading the fields of an INIT leaves the extensions, with the patch version still unset. -/
theorem initDecode_fields (fragmentation : Bool) (header : UInt8) (hzid : 0 < idLen msg.zid)
    (hwhatami : msg.whatami ≠ .reserved) (hcookie : msg.cookie.length < 2 ^ 64) (zbf : List UInt8) :
    initDecode fragmentation header (initFields header msg ++ zbf) =
      if hasFlag header 0x80 then
        msgExtDecodeIter (initDecodeExt fragmentation)
          { msg.received fragmentation header with patch := noPatch } zbf
      else .ok ({ msg.received fragmentation header with patch := noPatch }, zbf) := by
  have hle := idLen_le msg.zid
  have hrole := whatamiFromUint8_cbyte hwhatami hzid hle
  rw [← zidCbyte] at hrole
  simp only [initDecode, initFields, zidEncode, cons_append, append_assoc]
  rw [Decoder.bind_of_ok (uint8Decode_cons _ _), Decoder.bind_of_ok (uint8Decode_cons _ _),
    Decoder.bind_of_ok (zidDecode_take hzid _ _)]
  rw [Decoder.bind_of_ok (sizesDecode_fields header msg _),
    Decoder.bind_of_ok (cookieDecode_fields _ hcookie _), hrole]
  cases hasFlag header 0x80 <;> rfl

/-- An INIT whose header carries the Z flag exactly when a patch version is written is read
back as its header says. -/
theorem initDecode_encode {bytes : List UInt8}
    (henc : initEncode fragmentation header msg = .ok bytes)
    (hflag : hasFlag header 0x80 = (fragmentation && msg.patch != noPatch))
    (hzid : 0 < idLen msg.zid) (hwhatami : msg.whatami ≠ .reserved)
    (hcookie : msg.cookie.length < 2 ^ 64) (receiver : Bool) (zbf : List UInt8) :
    initDecode receiver header (bytes ++ zbf) = .ok (msg.received receiver header, zbf) := by
  cases hext : hasFlag header 0x80 with
  | false =>
    have hnone : patchEncode fragmentation header msg.patch = .ok [] := by
      rw [patchEncode, ← hflag, hext]
      rfl
    rw [initEncode, hnone] at henc
    cases henc
    have hread := initDecode_fields receiver header hzid hwhatami hcookie zbf
    rw [hext] at hread
    simpa [initFields, TMsgInit.received, hext] using hread
  | true =>
    have hsome : patchEncode fragmentation header msg.patch =
        .ok (0x27 :: zint64Encode msg.patch.toUInt64) := by
      rw [patchEncode, ← hflag, hext]
      rfl
    rw [initEncode, hsome] at henc
    cases henc
    have hread := initDecode_fields receiver header hzid hwhatami hcookie
      (0x27 :: (zint64Encode msg.patch.toUInt64 ++ zbf))
    rw [hext, if_pos rfl, msgExtDecodeIter_of_ok (msgExtDecode_patch msg.patch zbf)
      (initDecodeExt_patch receiver msg.patch _)] at hread
    cases receiver <;> simpa [initFields, TMsgInit.received, hext] using hread

variable {zbf rest : List UInt8}

/-! ### Reading an OPEN back -/

/-- What the receiver reads of an OPEN: a lease in seconds where the header says so, and the
cookie of an OpenSyn only. -/
def TMsgOpen.received (header : UInt8) (msg : TMsgOpen) : TMsgOpen where
  lease := if hasFlag header 0x40 then msg.lease / 1000 * 1000 else msg.lease
  initialSn := msg.initialSn
  cookie := if hasFlag header 0x20 then [] else msg.cookie

theorem openDecode_encode (hflag : hasFlag header 0x80 = false) {msg : TMsgOpen}
    (hcookie : msg.cookie.length < 2 ^ 64) (zbf : List UInt8) :
    openDecode header (openEncode header msg ++ zbf) = .ok (msg.received header, zbf) := by
  have hread := cookieDecode_fields (!hasFlag header 0x20) hcookie zbf
  have hcond : (if hasFlag header 0x20 then [] else sliceEncode msg.cookie) =
      if !hasFlag header 0x20 then sliceEncode msg.cookie else [] := by
    cases hasFlag header 0x20 <;> rfl
  have hskip : extensionsDecode header zbf = .ok ((), zbf) := by
    rw [extensionsDecode, hflag]
    rfl
  rw [openEncode, hcond, append_assoc, append_assoc, openDecode,
    Decoder.bind_of_ok (zint64Decode_encode _ _), Decoder.bind_of_ok (zint64Decode_encode _ _),
    Decoder.bind_of_ok hread, Decoder.bind_of_ok hskip]
  cases hlease : hasFlag header 0x40 <;> cases hack : hasFlag header 0x20 <;>
    simp [TMsgOpen.received, hlease, hack]

/-! ### Kinds of messages -/

theorem transportMessageDecode_init (hmid : mid header = 0x01) (fragmentation : Bool)
    (h : initDecode fragmentation header zbf = .ok (msg, rest)) :
    transportMessageDecode fragmentation (header :: zbf) =
      .ok ({ header, body := .init msg }, rest) := by
  rw [transportMessageDecode, Decoder.bind_of_ok (uint8Decode_cons _ _), hmid]
  exact Decoder.bind_of_ok h _

theorem transportMessageDecode_opening (hmid : mid header = 0x02) (fragmentation : Bool)
    {msg : TMsgOpen} (h : openDecode header zbf = .ok (msg, rest)) :
    transportMessageDecode fragmentation (header :: zbf) =
      .ok ({ header, body := .opening msg }, rest) := by
  rw [transportMessageDecode, Decoder.bind_of_ok (uint8Decode_cons _ _), hmid]
  exact Decoder.bind_of_ok h _

/-- The body of a decoded message is the one its header names. -/
theorem transportMessageDecode_body_init {fragmentation : Bool} {zbf rest : List UInt8}
    {msg : TransportMessage} (h : transportMessageDecode fragmentation zbf = .ok (msg, rest))
    (hmid : mid msg.header = 0x01) : ∃ body, msg.body = .init body := by
  obtain ⟨header, zbf₁, -, h⟩ := Decoder.exists_of_bind h
  split_ifs at h with h5 h6 h4 h7 h1 h2 h3
  · obtain ⟨body, zbf₂, -, h⟩ := Decoder.exists_of_bind h
    cases h
    exact absurd hmid (by rw [h5]; decide)
  · obtain ⟨body, zbf₂, -, h⟩ := Decoder.exists_of_bind h
    cases h
    exact absurd hmid (by rw [h6]; decide)
  · obtain ⟨body, zbf₂, -, h⟩ := Decoder.exists_of_bind h
    cases h
    exact absurd hmid (by rw [h4]; decide)
  · obtain ⟨body, zbf₂, -, h⟩ := Decoder.exists_of_bind h
    cases h
    exact absurd hmid (by rw [h7]; decide)
  · obtain ⟨body, zbf₂, -, h⟩ := Decoder.exists_of_bind h
    cases h
    exact ⟨body, rfl⟩
  · obtain ⟨body, zbf₂, -, h⟩ := Decoder.exists_of_bind h
    cases h
    exact absurd hmid (by rw [h2]; decide)
  · obtain ⟨body, zbf₂, -, h⟩ := Decoder.exists_of_bind h
    cases h
    exact absurd hmid (by rw [h3]; decide)
  · cases h

end ZenohPico.Protocol
