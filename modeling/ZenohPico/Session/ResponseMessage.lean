import ZenohPico.Session.Resources
import ZenohPico.Transport.MessageCodec

/-!
Responses to queries and their codec (`src/protocol/codec/message.c`,
`src/protocol/codec/network.c`).

The body of a reply is that of a PUT or of a DEL, in a union. The members of a DEL are its timestamp
and source information, where those of a PUT are, and its attachment, which lies in the place of the
payload of a PUT. A DEL is encoded without its attachment, although the decoder would take one.

What a decoder does not find stays as it is in a message of zeros.
-/

namespace ZenohPico.Session

open Protocol Transport

/-! ### Fields -/

/-- `_z_encoding_t`. The empty schema is the absent one. -/
structure Encoding where
  id : UInt16
  schema : List UInt8
deriving DecidableEq, Repr

/-- `_z_encoding_null` -/
def Encoding.null : Encoding := ⟨0, []⟩

/-- `_z_encoding_check` -/
def Encoding.check (en : Encoding) : Bool := en.id ≠ 0 ∨ en.schema ≠ []

/-- `_z_id_check` -/
def idCheck (id : ZenohId) : Bool := id ≠ .ofBytes []

/-- `_z_timestamp_t` -/
structure Timestamp where
  valid : Bool
  id : ZenohId
  time : UInt64
deriving DecidableEq, Repr

/-- `_z_timestamp_null` -/
def Timestamp.null : Timestamp := ⟨false, .ofBytes [], 0⟩

/-- `_z_entity_global_id_t` -/
structure EntityGlobalId where
  zid : ZenohId
  eid : UInt32
deriving DecidableEq, Repr

/-- `_z_source_info_t` -/
structure SourceInfo where
  sourceId : EntityGlobalId
  sourceSn : UInt32
deriving DecidableEq, Repr

/-- `_z_source_info_null` -/
def SourceInfo.null : SourceInfo := ⟨⟨.ofBytes [], 0⟩, 0⟩

/-- `_z_source_info_check` -/
def SourceInfo.check (info : SourceInfo) : Bool :=
  idCheck info.sourceId.zid || info.sourceId.eid != 0

/-- The source information is worth an extension. -/
def SourceInfo.present (info : SourceInfo) : Bool :=
  idCheck info.sourceId.zid || info.sourceSn != 0 || info.sourceId.eid != 0

/-- A field that is written when a flag of the header says so -/
def fieldEncode (present : Bool) (field : Except ZError (List UInt8)) : Except ZError (List UInt8) :=
  if present then field else .ok []

/-- A field that is read when a flag of the header says so -/
def fieldDecode {α : Type} (present : Bool) (field : Decoder α) (absent : α) : Decoder α :=
  if present then field else pure absent

/-- `_z_zint16_decode` -/
def zint16Decode : Decoder UInt16 := do
  let buf ← zint64Decode
  if 0xFFFF < buf then throw .messageDeserializationFailed else pure buf.toUInt16

/-- `_z_zint32_decode`, and `_z_zsize_decode` of a number that has to fit into 32 bits -/
def zint32Decode : Decoder UInt32 := do
  let buf ← zint64Decode
  if 0xFFFFFFFF < buf then throw .messageDeserializationFailed else pure buf.toUInt32

/-- `_z_id_encode_as_slice` -/
def idEncodeAsSlice (id : ZenohId) : Except ZError (List UInt8) :=
  if idLen id ≠ 0 then .ok (sliceEncode (id.id.take (idLen id))) else .error .messageZenohUnknown

/-- `_z_id_decode_as_slice`. The source reads without a look at the number of bytes left. -/
def idDecodeAsSlice : Decoder ZenohId := do
  let len ← uint8Decode
  let bytes ← readBytes len.toNat
  pure (.ofBytes bytes)

/-- `_z_timestamp_encode` -/
def timestampEncode (ts : Timestamp) : Except ZError (List UInt8) := do
  let id ← idEncodeAsSlice ts.id
  .ok (zint64Encode ts.time ++ id)

/-- `_z_timestamp_decode` -/
def timestampDecode : Decoder Timestamp := do
  let time ← zint64Decode
  let id ← idDecodeAsSlice
  pure ⟨true, id, time⟩

/-- `_z_timestamp_encode_ext` -/
def timestampEncodeExt (ts : Timestamp) : Except ZError (List UInt8) := do
  let body ← timestampEncode ts
  .ok (zint64Encode (.ofNat (zintLen ts.time + 1 + idLen ts.id)) ++ body)

/-- The length of an id, as the high half of a byte -/
def zidlenByte (zid : ZenohId) : UInt8 := (UInt8.ofNat (idLen zid) - 1) <<< 4

/-- `_z_source_info_encode` -/
def sourceInfoEncode (info : SourceInfo) : List UInt8 :=
  zidlenByte info.sourceId.zid :: (info.sourceId.zid.id.take (idLen info.sourceId.zid) ++
    zint64Encode info.sourceId.eid.toUInt64 ++ zint64Encode info.sourceSn.toUInt64)

/-- `_z_source_info_encode_ext` -/
def sourceInfoEncodeExt (info : SourceInfo) : List UInt8 :=
  zint64Encode (.ofNat (1 + idLen info.sourceId.zid + zintLen info.sourceId.eid.toUInt64 +
    zintLen info.sourceSn.toUInt64)) ++ sourceInfoEncode info

/-- `_z_source_info_decode` -/
def sourceInfoDecode : Decoder SourceInfo := do
  let header ← uint8Decode
  let zid ← readBytes ((header >>> 4) + 1).toNat
  let eid ← zint32Decode
  let sourceSn ← zint32Decode
  pure ⟨⟨.ofBytes zid, eid⟩, sourceSn⟩

/-- `_z_encoding_encode` -/
def encodingEncode (en : Encoding) : List UInt8 :=
  zint64Encode ((en.id.toUInt32 <<< 1) ||| if en.schema ≠ [] then 0x01 else 0).toUInt64 ++
    if en.schema ≠ [] then sliceEncode en.schema else []

/-- `_z_encoding_decode` -/
def encodingDecode : Decoder Encoding := do
  let id ← zint32Decode
  let schema ← fieldDecode ((id &&& 0x01) ≠ 0) sliceDecode []
  pure ⟨(id >>> 1).toUInt16, schema⟩

/-! ### Bodies -/

/-- `_z_msg_put_t` -/
structure MsgPut where
  timestamp : Timestamp
  sourceInfo : SourceInfo
  payload : List UInt8
  encoding : Encoding
  attachment : List UInt8
deriving DecidableEq, Repr

/-- A PUT of zeros -/
def MsgPut.null : MsgPut := ⟨.null, .null, [], .null, []⟩

/-- `_z_push_body_t`, with the memory of its union as the members of a PUT -/
structure PushBody where
  isPut : Bool
  put : MsgPut
deriving DecidableEq, Repr

/-- `_body._del._attachment = attachment`, in the memory of the union -/
def MsgPut.setDelAttachment (memory : MsgPut) (attachment : List UInt8) : MsgPut :=
  { memory with payload := attachment }

/-- `_z_push_body_encode` -/
def pushBodyEncode (pshb : PushBody) : Except ZError (List UInt8) := do
  let hasSourceInfo := pshb.put.sourceInfo.present
  let hasAttachment := pshb.isPut && pshb.put.attachment ≠ []
  let hasTimestamp := pshb.put.timestamp.valid
  let hasEncoding := pshb.isPut && pshb.put.encoding.check
  let timestamp ← fieldEncode hasTimestamp (timestampEncode pshb.put.timestamp)
  .ok (((if pshb.isPut then 0x01 else 0x02) ||| flagIf (hasSourceInfo || hasAttachment) 0x80 |||
      flagIf hasTimestamp 0x20 ||| flagIf hasEncoding 0x40) ::
    (timestamp ++ (if hasEncoding then encodingEncode pshb.put.encoding else []) ++
      (if hasSourceInfo then
        (0x41 ||| flagIf hasAttachment 0x80) :: sourceInfoEncodeExt pshb.put.sourceInfo else []) ++
      (if hasAttachment then 0x43 :: sliceEncode pshb.put.attachment else []) ++
      if pshb.isPut then sliceEncode pshb.put.payload else []))

/-- `_z_push_body_decode_extensions` -/
def pushBodyDecodeExt (extension : MsgExt) (pshb : PushBody) : Except ZError PushBody :=
  if extFullId extension.header = 0x41 then do
    let (sourceInfo, _) ← sourceInfoDecode extension.body.bytes
    .ok { pshb with put := { pshb.put with sourceInfo } }
  else if extFullId extension.header = 0x43 then
    .ok { pshb with put := { pshb.put with attachment := extension.body.bytes } }
  else if msgExtIsMandatory extension.header then .error .messageExtensionMandatoryAndUnknown
  else .ok pshb

/-- The extensions of a body, behind the Z flag of its header -/
def pushBodyExtsDecode (header : UInt8) (pshb : PushBody) : Decoder PushBody :=
  fieldDecode (hasFlag header 0x80) (msgExtDecodeIter pushBodyDecodeExt pshb) pshb

/-- `_z_push_body_decode` into a message of zeros -/
def pushBodyDecode (header : UInt8) : Decoder PushBody :=
  if mid header = 0x01 then do
    let timestamp ← fieldDecode (hasFlag header 0x20) timestampDecode .null
    let encoding ← fieldDecode (hasFlag header 0x40) encodingDecode .null
    let pshb ← pushBodyExtsDecode header ⟨true, { MsgPut.null with timestamp, encoding }⟩
    let payload ← sliceDecode
    pure { pshb with put := { pshb.put with payload } }
  else if mid header = 0x02 then do
    let timestamp ← fieldDecode (hasFlag header 0x20) timestampDecode .null
    pushBodyExtsDecode header ⟨false, { MsgPut.null with timestamp }⟩
  else throw .messageZenohUnknown

/-- `_z_msg_reply_t`, without a consolidation where that is the default one -/
structure MsgReply where
  consolidation : Option UInt8
  body : PushBody
deriving DecidableEq, Repr

/-- `_z_reply_encode` -/
def replyEncode (reply : MsgReply) : Except ZError (List UInt8) := do
  let body ← pushBodyEncode reply.body
  .ok ((0x04 ||| flagIf reply.consolidation.isSome 0x20) :: (reply.consolidation.toList ++ body))

/-- `_z_reply_decode_extension` -/
def replyDecodeExt (_ : MsgExt) (_ : Unit) : Except ZError Unit :=
  .error .messageExtensionMandatoryAndUnknown

/-- `_z_reply_decode` -/
def replyDecode (header : UInt8) : Decoder MsgReply := do
  let consolidation ← fieldDecode (hasFlag header 0x20) (some <$> uint8Decode) none
  fieldDecode (hasFlag header 0x80) (msgExtDecodeIter replyDecodeExt ()) ()
  let putHeader ← uint8Decode
  let body ← pushBodyDecode putHeader
  pure ⟨consolidation, body⟩

/-- `_z_msg_err_t` -/
structure MsgErr where
  encoding : Encoding
  extSourceInfo : SourceInfo
  payload : List UInt8
deriving DecidableEq, Repr

/-- `_z_err_encode` -/
def errEncode (err : MsgErr) : List UInt8 :=
  (0x05 ||| flagIf err.encoding.check 0x40 ||| flagIf err.extSourceInfo.present 0x80) ::
    ((if err.encoding.check then encodingEncode err.encoding else []) ++
      (if err.extSourceInfo.present then 0x41 :: sourceInfoEncodeExt err.extSourceInfo else []) ++
      sliceEncode err.payload)

/-- `_z_err_decode_extension` -/
def errDecodeExt (extension : MsgExt) (err : MsgErr) : Except ZError MsgErr :=
  if extFullId extension.header = 0x41 then do
    let (extSourceInfo, _) ← sourceInfoDecode extension.body.bytes
    .ok { err with extSourceInfo }
  else if msgExtIsMandatory extension.header then .error .messageExtensionMandatoryAndUnknown
  else .ok err

/-- `_z_err_decode` into a message of zeros -/
def errDecode (header : UInt8) : Decoder MsgErr := do
  let encoding ← fieldDecode (hasFlag header 0x40) encodingDecode .null
  let err : MsgErr := ⟨encoding, .null, []⟩
  let err ← fieldDecode (hasFlag header 0x80) (msgExtDecodeIter errDecodeExt err) err
  let payload ← sliceDecode
  pure { err with payload }

/-! ### Responses -/

/-- The body of a `_z_n_msg_response_t`, by its tag -/
inductive ResponseBody
  | reply (reply : MsgReply)
  | err (err : MsgErr)
deriving DecidableEq, Repr

/-- `_z_n_msg_response_t` -/
structure ResponseMessage where
  requestId : UInt64
  key : WireExpr
  extQos : UInt8
  extTimestamp : Timestamp
  extResponder : EntityGlobalId
  body : ResponseBody
deriving DecidableEq, Repr

/-- The extension with the responder -/
def responderEncodeExt (responder : EntityGlobalId) : List UInt8 :=
  zint64Encode (.ofNat (idLen responder.zid + 1 + zintLen responder.eid.toUInt64)) ++
    zidlenByte responder.zid ::
      (responder.zid.id.take (idLen responder.zid) ++ zint64Encode responder.eid.toUInt64)

/-- The body of a response is encoded by its tag. -/
def responseBodyEncode : ResponseBody → Except ZError (List UInt8)
  | .reply reply => replyEncode reply
  | .err err => .ok (errEncode err)

/-- `_z_response_encode` -/
def responseEncode (msg : ResponseMessage) : Except ZError (List UInt8) := do
  let hasQosExt := msg.extQos ≠ 5
  let hasTsExt := msg.extTimestamp.valid
  let hasResponderExt := idCheck msg.extResponder.zid || msg.extResponder.eid != 0
  let hasSuffix := msg.key.suffix ≠ []
  let timestamp ← fieldEncode hasTsExt (timestampEncodeExt msg.extTimestamp)
  let body ← responseBodyEncode msg.body
  .ok ((0x1B ||| flagIf (msg.key.mapping = .session) 0x40 ||| flagIf hasSuffix 0x20 |||
      flagIf (hasQosExt || hasTsExt || hasResponderExt) 0x80) ::
    (zint64Encode msg.requestId ++ zint64Encode msg.key.id.toUInt64 ++
      (if hasSuffix then sliceEncode msg.key.suffix else []) ++ (if hasQosExt then
        (0x21 ||| flagIf (hasTsExt || hasResponderExt) 0x80) :: zint64Encode msg.extQos.toUInt64
        else []) ++
      (if hasTsExt then (0x42 ||| flagIf hasResponderExt 0x80) :: timestamp else []) ++
      (if hasResponderExt then 0x43 :: responderEncodeExt msg.extResponder else []) ++ body))

/-- `_z_response_decode_extension` -/
def responseDecodeExt (extension : MsgExt) (msg : ResponseMessage) :
    Except ZError ResponseMessage :=
  if extFullId extension.header = 0x21 then
    .ok { msg with extQos := extension.body.val.toUInt8 }
  else if extFullId extension.header = 0x42 then do
    let (extTimestamp, _) ← timestampDecode extension.body.bytes
    .ok { msg with extTimestamp }
  else if extFullId extension.header = 0x43 then do
    let (zidlen, zbf) ← uint8Decode extension.body.bytes
    let (zid, zbf) ← readBytes ((zidlen >>> 4) + 1).toNat zbf
    let (eid, _) ← zint32Decode zbf
    .ok { msg with extResponder := ⟨.ofBytes zid, eid⟩ }
  else if msgExtIsMandatory extension.header then .error .messageExtensionMandatoryAndUnknown
  else .ok msg

/-- `_z_wireexpr_decode`. The mapping is that of the peer, or local. -/
def wireexprDecode (hasSuffix remoteMapping : Bool) : Decoder WireExpr := do
  let id ← zint16Decode
  let suffix ← fieldDecode hasSuffix sliceDecode []
  pure ⟨id, suffix, if remoteMapping then .peer else .session⟩

/-- The body of a response is decoded by the id in its header. -/
def responseBodyDecode (header : UInt8) : Decoder ResponseBody :=
  if mid header = 0x04 then .reply <$> replyDecode header
  else if mid header = 0x05 then .err <$> errDecode header
  else throw .messageDeserializationFailed

/-- `_z_response_decode` into a message of zeros -/
def responseDecode (header : UInt8) : Decoder ResponseMessage := do
  let requestId ← zint64Decode
  let key ← wireexprDecode (hasFlag header 0x20) (hasFlag header 0x40)
  let msg : ResponseMessage :=
    ⟨requestId, key, 5, .null, ⟨.ofBytes [], 0⟩, .err ⟨.null, .null, []⟩⟩
  let msg ← fieldDecode (hasFlag header 0x80) (msgExtDecodeIter responseDecodeExt msg) msg
  let innerHeader ← uint8Decode
  let body ← responseBodyDecode innerHeader
  pure { msg with body }

end ZenohPico.Session
