import ZenohPico.Session.QueryMessage

/-!
Network messages and their codec (`src/protocol/codec/network.c`,
`src/protocol/codec/declarations.c`, `src/protocol/codec/interest.c`).

A message is written as its header, its fields, its extensions and its body. Responses and the
bodies of pushes, queries, replies and errors are those of the session. The quality of service 5 is
the default one, which is not written. All features of the build are on.

What a decoder does not find stays as it is in a message of zeros.
-/

namespace ZenohPico.Network

open Protocol Transport Session

/-! ### Fields -/

/-- `_z_wireexpr_encode` -/
def wireexprEncode (hasSuffix : Bool) (key : WireExpr) : List UInt8 :=
  zint64Encode key.id.toUInt64 ++ if hasSuffix then sliceEncode key.suffix else []

/-- `_z_wireexpr_has_suffix` -/
def hasSuffix (key : WireExpr) : Bool := key.suffix ≠ []

/-- `_z_wireexpr_is_local` -/
def isLocal (key : WireExpr) : Bool := key.mapping = .session

/-- `_z_wireexpr_check` -/
def wireexprCheck (key : WireExpr) : Bool := hasSuffix key || key.id != 0

/-- `_z_wireexpr_null` -/
def wireexprNull : WireExpr := ⟨0, [], .session⟩

/-- The flags of a key in a header -/
def keyFlags (key : WireExpr) : UInt8 :=
  flagIf (isLocal key) 0x40 ||| flagIf (hasSuffix key) 0x20

/-- The key, behind a header with its flags -/
def keyDecode (header : UInt8) : Decoder WireExpr :=
  wireexprDecode (hasFlag header 0x20) (hasFlag header 0x40)

/-- The extensions behind the Z flag of a header -/
def extsDecode {σ : Type} (header : UInt8) (callback : MsgExt → σ → Except ZError σ)
    (context : σ) : Decoder σ :=
  fieldDecode (hasFlag header 0x80) (msgExtDecodeIter callback context) context

/-- An extension that a callback does not know -/
def unknownExt {σ : Type} (extension : MsgExt) (context : σ) : Except ZError σ :=
  if msgExtIsMandatory extension.header then .error .messageExtensionMandatoryAndUnknown
  else .ok context

/-- What the callbacks of messages with a quality of service and a timestamp have in common -/
def commonDecodeExt {σ : Type} (setQos : UInt64 → σ → Except ZError σ)
    (setTimestamp : Timestamp → σ → σ) (other : MsgExt → σ → Except ZError σ) (extension : MsgExt)
    (context : σ) : Except ZError σ :=
  if extFullId extension.header = 0x21 then setQos extension.body.val context
  else if extFullId extension.header = 0x42 then do
    let (timestamp, _) ← timestampDecode extension.body.bytes
    .ok (setTimestamp timestamp context)
  else other extension context

/-! ### Pushes -/

/-- `_z_n_msg_push_t` -/
structure PushMessage where
  key : WireExpr
  timestamp : Timestamp
  qos : UInt8
  body : PushBody
deriving DecidableEq, Repr

/-- `_z_push_encode` -/
def pushEncode (msg : PushMessage) : Except ZError (List UInt8) := do
  let hasQosExt := msg.qos ≠ 5
  let hasTimestampExt := msg.timestamp.valid
  let timestamp ← fieldEncode hasTimestampExt (timestampEncodeExt msg.timestamp)
  let body ← pushBodyEncode msg.body
  .ok ((0x1D ||| keyFlags msg.key ||| flagIf (hasQosExt || hasTimestampExt) 0x80) ::
    (wireexprEncode (hasSuffix msg.key) msg.key ++
      (if hasQosExt then [0x21 ||| flagIf hasTimestampExt 0x80, msg.qos] else []) ++
      (if hasTimestampExt then 0x42 :: timestamp else []) ++ body))

/-- `_z_push_decode_ext_cb` -/
def pushDecodeExt : MsgExt → PushMessage → Except ZError PushMessage :=
  commonDecodeExt
    (fun val msg ↦ if 0xFFFFFFFF < val then .error .messageDeserializationFailed
      else .ok { msg with qos := val.toUInt8 })
    (fun timestamp msg ↦ { msg with timestamp }) unknownExt

/-- `_z_push_decode` -/
def pushDecode (header : UInt8) : Decoder PushMessage := do
  let key ← keyDecode header
  let msg ← extsDecode header pushDecodeExt ⟨key, .null, 5, ⟨false, .null⟩⟩
  let msgheader ← uint8Decode
  let body ← pushBodyDecode msgheader
  pure { msg with body }

/-! ### Requests -/

/-- `z_query_target_t` -/
inductive QueryTarget
  | bestMatching
  | all
  | allComplete
deriving DecidableEq, Repr

/-- The number of a target -/
def QueryTarget.toUInt64 : QueryTarget → UInt64
  | .bestMatching => 0
  | .all => 1
  | .allComplete => 2

/-- The target of a number, which is read as a byte -/
def queryTargetFromUInt8 (val : UInt8) : Except ZError QueryTarget :=
  if val = 0 then .ok .bestMatching
  else if val = 1 then .ok .all
  else if val = 2 then .ok .allComplete
  else .error .messageDeserializationFailed

/-- `_z_msg_del_t` -/
structure MsgDel where
  timestamp : Timestamp
  sourceInfo : SourceInfo
  attachment : List UInt8
deriving DecidableEq, Repr

/-- A DEL in the union of a body -/
def MsgDel.inUnion (del : MsgDel) : MsgPut :=
  { MsgPut.null with timestamp := del.timestamp, sourceInfo := del.sourceInfo }.setDelAttachment
    del.attachment

/-- The DEL in the union of a body -/
def MsgDel.ofUnion (memory : MsgPut) : MsgDel :=
  ⟨memory.timestamp, memory.sourceInfo, memory.payload⟩

/-- The body of a `_z_n_msg_request_t`, by its tag -/
inductive RequestBody
  | query (query : MsgQuery)
  | put (put : MsgPut)
  | del (del : MsgDel)
deriving DecidableEq, Repr

/-- `_z_n_msg_request_t` -/
structure RequestMessage where
  rid : UInt64
  key : WireExpr
  extTimestamp : Timestamp
  extQos : UInt8
  extTarget : QueryTarget
  extBudget : UInt32
  extTimeoutMs : UInt64
  body : RequestBody
deriving DecidableEq, Repr

/-- `_z_query_encode`, `_z_put_encode` and `_z_del_encode`, by the tag -/
def requestBodyEncode : RequestBody → Except ZError (List UInt8)
  | .query query => .ok (queryEncode query)
  | .put put => pushBodyEncode ⟨true, put⟩
  | .del del => pushBodyEncode ⟨false, del.inUnion⟩

/-- `_z_request_encode` -/
def requestEncode (msg : RequestMessage) : Except ZError (List UInt8) := do
  let hasQos := msg.extQos ≠ 5
  let hasTstamp := msg.extTimestamp.valid
  let hasTarget := msg.extTarget ≠ .bestMatching
  let hasBudget := msg.extBudget ≠ 0
  let hasTimeoutMs := msg.extTimeoutMs ≠ 0
  let timestamp ← fieldEncode hasTstamp (timestampEncodeExt msg.extTimestamp)
  let body ← requestBodyEncode msg.body
  .ok ((0x1C ||| keyFlags msg.key |||
      flagIf (hasQos || hasTstamp || hasTarget || hasBudget || hasTimeoutMs) 0x80) ::
    (zint64Encode msg.rid ++ wireexprEncode (hasSuffix msg.key) msg.key ++ (if hasQos then
        (0x21 ||| flagIf (hasTstamp || hasTarget || hasBudget || hasTimeoutMs) 0x80) ::
          zint64Encode msg.extQos.toUInt64 else []) ++ (if hasTstamp then
        (0x42 ||| flagIf (hasTarget || hasBudget || hasTimeoutMs) 0x80) :: timestamp else []) ++
      (if hasTarget then
        (0x34 ||| flagIf (hasBudget || hasTimeoutMs) 0x80) :: zint64Encode msg.extTarget.toUInt64
        else []) ++ (if hasBudget then
        (0x25 ||| flagIf hasTimeoutMs 0x80) :: zint64Encode msg.extBudget.toUInt64 else []) ++
      (if hasTimeoutMs then 0x26 :: zint64Encode msg.extTimeoutMs else []) ++ body))

/-- `_z_request_decode_extensions` -/
def requestDecodeExt : MsgExt → RequestMessage → Except ZError RequestMessage :=
  commonDecodeExt
    (fun val msg ↦ if 0xFF < val then .error .messageDeserializationFailed
      else .ok { msg with extQos := val.toUInt8 })
    (fun extTimestamp msg ↦ { msg with extTimestamp })
    fun extension msg ↦
      if extFullId extension.header = 0x34 then do
        let extTarget ← queryTargetFromUInt8 extension.body.val.toUInt8
        .ok { msg with extTarget }
      else if extFullId extension.header = 0x25 then
        .ok { msg with extBudget := extension.body.val.toUInt32 }
      else if extFullId extension.header = 0x26 then
        .ok { msg with extTimeoutMs := extension.body.val }
      else unknownExt extension msg

/-- `_z_query_decode`, `_z_put_decode` and `_z_del_decode`, by the id in the header -/
def requestBodyDecode (header : UInt8) : Decoder RequestBody :=
  if mid header = 0x03 then .query <$> queryDecode header
  else if mid header = 0x01 then (fun body ↦ .put body.put) <$> pushBodyDecode header
  else if mid header = 0x02 then (fun body ↦ .del (.ofUnion body.put)) <$> pushBodyDecode header
  else throw .messageDeserializationFailed

/-- `_z_request_decode` -/
def requestDecode (header : UInt8) : Decoder RequestMessage := do
  let rid ← zint64Decode
  let key ← keyDecode header
  let msg ← extsDecode header requestDecodeExt
    ⟨rid, key, .null, 5, .bestMatching, 0, 0, .query ⟨[], false, none, .null, ⟨[], .null⟩, []⟩⟩
  let zheader ← uint8Decode
  let body ← requestBodyDecode zheader
  pure { msg with body }

/-! ### Final responses -/

/-- `_z_n_msg_response_final_t` -/
structure ResponseFinalMessage where
  requestId : UInt64
deriving DecidableEq, Repr

/-- `_z_response_final_encode` -/
def responseFinalEncode (msg : ResponseFinalMessage) : List UInt8 :=
  0x1A :: zint64Encode msg.requestId

/-- `_z_response_final_decode` -/
def responseFinalDecode (header : UInt8) : Decoder ResponseFinalMessage := do
  let requestId ← zint64Decode
  extsDecode header msgExtSkipNonMandatory ()
  pure ⟨requestId⟩

/-! ### Declarations -/

/-- `_z_declaration_t`, by its tag -/
inductive Declaration
  | declKexpr (id : UInt16) (keyexpr : WireExpr)
  | undeclKexpr (id : UInt16)
  | declSubscriber (id : UInt32) (keyexpr : WireExpr)
  | undeclSubscriber (id : UInt32) (extKeyexpr : WireExpr)
  | declQueryable (id : UInt32) (keyexpr : WireExpr) (complete : Bool) (distance : UInt16)
  | undeclQueryable (id : UInt32) (extKeyexpr : WireExpr)
  | declToken (id : UInt32) (keyexpr : WireExpr)
  | undeclToken (id : UInt32) (extKeyexpr : WireExpr)
  | declFinal
deriving DecidableEq, Repr

/-- `_z_decl_ext_keyexpr_encode`. The length of the suffix is taken as one of 32 bits. -/
def declExtKeyexprEncode (ke : WireExpr) (hasNextExt : Bool) : List UInt8 :=
  let kelen : UInt32 := if hasSuffix ke then .ofNat ke.suffix.length else 0
  (0x5F ||| flagIf hasNextExt 0x80) ::
    (zint64Encode (1 + kelen + .ofNat (zintLen ke.id.toUInt64)).toUInt64 ++
      (flagIf (isLocal ke) 2 ||| flagIf (kelen ≠ 0) 1) :: zint64Encode ke.id.toUInt64 ++
      ke.suffix.take kelen.toNat)

/-- `_z_decl_kexpr_encode` -/
def declKexprEncode (id : UInt16) (keyexpr : WireExpr) : List UInt8 :=
  (0x00 ||| flagIf (hasSuffix keyexpr) 0x20) ::
    (zint64Encode id.toUInt64 ++ wireexprEncode (hasSuffix keyexpr) keyexpr)

/-- `_z_decl_commons_encode` -/
def declCommonsEncode (header : UInt8) (hasExtensions : Bool) (id : UInt32) (keyexpr : WireExpr) :
    List UInt8 :=
  (header ||| keyFlags keyexpr ||| flagIf hasExtensions 0x80) ::
    (zint64Encode id.toUInt64 ++ wireexprEncode (hasSuffix keyexpr) keyexpr)

/-- `_z_undecl_encode` -/
def undeclEncode (header : UInt8) (id : UInt32) (ke : WireExpr) : List UInt8 :=
  (header ||| flagIf (wireexprCheck ke) 0x80) ::
    (zint64Encode id.toUInt64 ++ if wireexprCheck ke then declExtKeyexprEncode ke false else [])

/-- The number in the extension of a queryable -/
def queryableInfo (complete : Bool) (distance : UInt16) : UInt64 :=
  (if complete then 0x01 else 0 : UInt64) ||| distance.toUInt64 <<< 8

/-- `_z_decl_queryable_encode` -/
def declQueryableEncode (id : UInt32) (keyexpr : WireExpr) (complete : Bool) (distance : UInt16) :
    List UInt8 :=
  let hasInfoExt := complete || distance != 0
  declCommonsEncode 0x04 hasInfoExt id keyexpr ++
    if hasInfoExt then 0x21 :: zint64Encode (queryableInfo complete distance) else []

/-- `_z_declaration_encode`. The header of `_z_undecl_kexpr_encode` is the tag, which is the id. -/
def declarationEncode : Declaration → List UInt8
  | .declKexpr id keyexpr => declKexprEncode id keyexpr
  | .undeclKexpr id => 0x01 :: zint64Encode id.toUInt64
  | .declSubscriber id keyexpr => declCommonsEncode 0x02 false id keyexpr
  | .undeclSubscriber id ke => undeclEncode 0x03 id ke
  | .declQueryable id keyexpr complete distance => declQueryableEncode id keyexpr complete distance
  | .undeclQueryable id ke => undeclEncode 0x05 id ke
  | .declToken id keyexpr => declCommonsEncode 0x06 false id keyexpr
  | .undeclToken id ke => undeclEncode 0x07 id ke
  | .declFinal => [0x1A]

/-- `_z_decl_kexpr_decode` -/
def declKexprDecode (header : UInt8) : Decoder Declaration := do
  let id ← zint16Decode
  let keyexpr ← wireexprDecode (hasFlag header 0x20) true
  extsDecode header msgExtSkipNonMandatory ()
  pure (.declKexpr id keyexpr)

/-- `_z_undecl_kexpr_decode` -/
def undeclKexprDecode (header : UInt8) : Decoder Declaration := do
  let id ← zint16Decode
  extsDecode header msgExtSkipNonMandatory ()
  pure (.undeclKexpr id)

/-- `_z_undecl_decode_extensions`. A suffix without bytes cannot be allocated. -/
def undeclDecodeExt (extension : MsgExt) (ke : WireExpr) : Except ZError WireExpr :=
  if extension.header = 0x5F then do
    let (header, zbf) ← uint8Decode extension.body.bytes
    let (id, suffix) ← zint16Decode zbf
    if hasFlag header 1 && suffix = [] then .error .systemOutOfMemory
    else .ok ⟨id, if hasFlag header 1 then suffix else ke.suffix,
      if hasFlag header 2 then .peer else .session⟩
  else unknownExt extension ke

/-- `_z_undecl_trivial_decode` -/
def undeclTrivialDecode (header : UInt8) : Decoder (UInt32 × WireExpr) := do
  let id ← zint32Decode
  let ke ← extsDecode header undeclDecodeExt wireexprNull
  pure (id, ke)

/-- `_z_decl_commons_decode` -/
def declCommonsDecode (header : UInt8) : Decoder (UInt32 × WireExpr) := do
  let id ← zint32Decode
  let keyexpr ← keyDecode header
  pure (id, keyexpr)

/-- `_z_decl_subscriber_decode` and `_z_decl_token_decode` -/
def declTrivialDecode (header : UInt8) : Decoder (UInt32 × WireExpr) := do
  let decl ← declCommonsDecode header
  extsDecode header msgExtSkipNonMandatory ()
  pure decl

/-- `_z_decl_queryable_decode_extensions` -/
def declQueryableDecodeExt (extension : MsgExt) (info : Bool × UInt16) :
    Except ZError (Bool × UInt16) :=
  if extension.header = 0x21 then
    .ok (extension.body.val &&& 0x01 ≠ 0, (extension.body.val >>> 8).toUInt16)
  else unknownExt extension info

/-- `_z_decl_queryable_decode` -/
def declQueryableDecode (header : UInt8) : Decoder Declaration := do
  let (id, keyexpr) ← declCommonsDecode header
  let (complete, distance) ← extsDecode header declQueryableDecodeExt (false, 0)
  pure (.declQueryable id keyexpr complete distance)

/-- `_z_declaration_decode` -/
def declarationDecode : Decoder Declaration := do
  let header ← uint8Decode
  if mid header = 0x00 then declKexprDecode header
  else if mid header = 0x01 then undeclKexprDecode header
  else if mid header = 0x02 then (fun d ↦ .declSubscriber d.1 d.2) <$> declTrivialDecode header
  else if mid header = 0x03 then (fun d ↦ .undeclSubscriber d.1 d.2) <$> undeclTrivialDecode header
  else if mid header = 0x04 then declQueryableDecode header
  else if mid header = 0x05 then (fun d ↦ .undeclQueryable d.1 d.2) <$> undeclTrivialDecode header
  else if mid header = 0x06 then (fun d ↦ .declToken d.1 d.2) <$> declTrivialDecode header
  else if mid header = 0x07 then (fun d ↦ .undeclToken d.1 d.2) <$> undeclTrivialDecode header
  else if mid header = 0x1A then do
    extsDecode header msgExtSkipNonMandatory ()
    pure .declFinal
  else throw .messageDeserializationFailed

/-- `_z_n_msg_declare_t` -/
structure DeclareMessage where
  decl : Declaration
  extTimestamp : Timestamp
  extQos : UInt8
  interestId : Option UInt32
deriving DecidableEq, Repr

/-- `_z_declare_encode` -/
def declareEncode (msg : DeclareMessage) : Except ZError (List UInt8) := do
  let hasQosExt := msg.extQos ≠ 5
  let hasTimestampExt := msg.extTimestamp.valid
  let timestamp ← fieldEncode hasTimestampExt (timestampEncodeExt msg.extTimestamp)
  .ok ((0x1E ||| flagIf (hasQosExt || hasTimestampExt) 0x80 |||
      flagIf msg.interestId.isSome 0x20) ::
    ((msg.interestId.map fun id ↦ zint64Encode id.toUInt64).getD [] ++ (if hasQosExt then
        (0x21 ||| flagIf hasTimestampExt 0x80) :: zint64Encode msg.extQos.toUInt64 else []) ++
      (if hasTimestampExt then 0x42 :: timestamp else []) ++ declarationEncode msg.decl))

/-- `_z_declare_decode_extensions` -/
def declareDecodeExt : MsgExt → DeclareMessage → Except ZError DeclareMessage :=
  commonDecodeExt (fun val msg ↦ .ok { msg with extQos := val.toUInt8 })
    (fun extTimestamp msg ↦ { msg with extTimestamp }) unknownExt

/-- `_z_declare_decode` -/
def declareDecode (header : UInt8) : Decoder DeclareMessage := do
  let interestId ← fieldDecode (hasFlag header 0x20) (some <$> zint32Decode) none
  let msg ← extsDecode header declareDecodeExt ⟨.declFinal, .null, 5, interestId⟩
  let decl ← declarationDecode
  pure { msg with decl }

/-! ### Interests -/

/-- `_z_interest_t` -/
structure InterestMessage where
  keyexpr : WireExpr
  id : UInt32
  flags : UInt8
  complete : Bool
deriving DecidableEq, Repr

/-- `_z_interest_encode` -/
def interestBodyEncode (interest : InterestMessage) (isFinal : Bool) : List UInt8 :=
  zint64Encode interest.id.toUInt64 ++
    if isFinal then []
    else
      let flags := interest.flags &&& 0x9F
      if hasFlag flags 0x10 then
        (flags ||| keyFlags interest.keyexpr) ::
          wireexprEncode (hasSuffix interest.keyexpr) interest.keyexpr
      else [flags]

/-- `_z_n_interest_encode` -/
def interestEncode (interest : InterestMessage) : List UInt8 :=
  let current := hasFlag interest.flags 0x20
  let future := hasFlag interest.flags 0x40
  (0x19 ||| flagIf current 0x20 ||| flagIf future 0x40) ::
    interestBodyEncode interest (!current && !future)

/-- `_z_interest_decode`, behind the flags of the header -/
def interestBodyDecode (headerFlags : UInt8) (isFinal : Bool) (header : UInt8) :
    Decoder InterestMessage := do
  let id ← zint32Decode
  let interest ←
    if isFinal then pure ⟨wireexprNull, id, headerFlags, false⟩
    else do
      let flags ← uint8Decode
      let keyexpr ← fieldDecode (hasFlag flags 0x10) (keyDecode flags) wireexprNull
      pure ⟨keyexpr, id, headerFlags ||| (flags &&& 0x9F), false⟩
  extsDecode header msgExtSkipNonMandatory ()
  pure interest

/-- `_z_n_interest_decode` -/
def interestDecode (header : UInt8) : Decoder InterestMessage :=
  let current := hasFlag header 0x20
  let future := hasFlag header 0x40
  interestBodyDecode (flagIf current 0x20 ||| flagIf future 0x40) (!current && !future) header

/-! ### OAM -/

/-- `_z_n_msg_oam_t` -/
structure OamMessage where
  id : UInt16
  extTimestamp : Timestamp
  extQos : UInt8
  body : MsgExtBody
deriving DecidableEq, Repr

/-- `_z_oam_encode` -/
def oamEncode (oam : OamMessage) : Except ZError (List UInt8) := do
  let hasQosExt := oam.extQos ≠ 5
  let hasTimestampExt := oam.extTimestamp.valid
  let timestamp ← fieldEncode hasTimestampExt (timestampEncodeExt oam.extTimestamp)
  .ok ((0x1F ||| flagIf (hasQosExt || hasTimestampExt) 0x80 ||| oam.body.enc) ::
    (zint64Encode oam.id.toUInt64 ++
      (if hasQosExt then [0x21 ||| flagIf hasTimestampExt 0x80, oam.extQos] else []) ++
      (if hasTimestampExt then 0x42 :: timestamp else []) ++ msgExtBodyEncode oam.body))

/-- `_z_oam_decode_extensions` -/
def oamDecodeExt : MsgExt → OamMessage → Except ZError OamMessage :=
  commonDecodeExt (fun val oam ↦ .ok { oam with extQos := val.toUInt8 })
    (fun extTimestamp oam ↦ { oam with extTimestamp }) unknownExt

/-- The payload of an OAM message, by the encoding in its header -/
def oamBodyDecode (enc : UInt8) : Decoder MsgExtBody :=
  if enc = 0x00 then pure .unit
  else if enc = 0x20 then .zint <$> zint64Decode
  else if enc = 0x40 then .zbuf <$> sliceDecode
  else throw .messageDeserializationFailed

/-- `_z_oam_decode` -/
def oamDecode (header : UInt8) : Decoder OamMessage := do
  let id ← zint16Decode
  let oam ← extsDecode header oamDecodeExt ⟨id, .null, 5, .unit⟩
  let body ← oamBodyDecode (header &&& 0x60)
  pure { oam with body }

/-! ### All messages -/

/-- `_z_network_message_t`, by its tag -/
inductive NetworkMessage
  | declare (msg : DeclareMessage)
  | push (msg : PushMessage)
  | request (msg : RequestMessage)
  | response (msg : ResponseMessage)
  | responseFinal (msg : ResponseFinalMessage)
  | interest (msg : InterestMessage)
  | oam (msg : OamMessage)
deriving DecidableEq, Repr

/-- `_z_network_message_encode` -/
def networkMessageEncode : NetworkMessage → Except ZError (List UInt8)
  | .declare msg => declareEncode msg
  | .push msg => pushEncode msg
  | .request msg => requestEncode msg
  | .response msg => responseEncode msg
  | .responseFinal msg => .ok (responseFinalEncode msg)
  | .interest msg => .ok (interestEncode msg)
  | .oam msg => oamEncode msg

/-- `_z_network_message_decode` -/
def networkMessageDecode : Decoder NetworkMessage := do
  let header ← uint8Decode
  if mid header = 0x1E then .declare <$> declareDecode header
  else if mid header = 0x1D then .push <$> pushDecode header
  else if mid header = 0x1C then .request <$> requestDecode header
  else if mid header = 0x1B then .response <$> responseDecode header
  else if mid header = 0x1A then .responseFinal <$> responseFinalDecode header
  else if mid header = 0x19 then .interest <$> interestDecode header
  else if mid header = 0x1F then .oam <$> oamDecode header
  else throw .messageDeserializationFailed

end ZenohPico.Network
