import ZenohPico.Session.QueryParameters
import ZenohPico.Session.ResponseCodec

/-!
The query message and the option that accepts replies on any key (`src/protocol/codec/message.c`,
`src/net/primitives.c`, `include/zenoh-pico/net/query.h`).

The option leaves the caller as a flag of the message, unless the parameters have the key `_anyke`
of their own. A queryable of the same session is handed the message with its flag. On the wire there
is no flag: the encoder writes the key behind the parameters, the decoder leaves the flag off, and
the queryable of the receiver looks for the key.
-/

namespace ZenohPico.Session

open Foundations Protocol Transport List

/-! ### Values -/

/-- `_z_value_t` -/
structure Value where
  payload : List UInt8
  encoding : Encoding
deriving DecidableEq, Repr

/-- `_z_encoding_len` -/
def encodingLen (en : Encoding) : ℕ :=
  zintLen (en.id.toUInt32 <<< 1).toUInt64 +
    if en.schema ≠ [] then zintLen (.ofNat en.schema.length) + en.schema.length else 0

/-- `_z_value_encode` -/
def valueEncode (value : Value) : List UInt8 :=
  zint64Encode (.ofNat (encodingLen value.encoding + value.payload.length)) ++
    (encodingEncode value.encoding ++ value.payload)

/-- `_z_value_decode` -/
def valueDecode (zbf : List UInt8) : Except ZError Value := do
  let (encoding, payload) ← encodingDecode zbf
  .ok ⟨payload, encoding⟩

/-- `_z_slices_encode` -/
def slicesEncode (bs : List (List UInt8)) : List UInt8 :=
  zint64Encode (.ofNat (bs.map List.length).sum) ++ bs.flatten

/-! ### Messages -/

/-- `_z_msg_query_t`, without a consolidation where that is the default one -/
structure MsgQuery where
  parameters : List UInt8
  implicitAnyke : Bool
  consolidation : Option UInt8
  extInfo : SourceInfo
  extValue : Value
  extAttachment : List UInt8
deriving DecidableEq, Repr

/-- The message has a value, as `_z_msg_query_required_extensions` sees it. -/
def Value.present (value : Value) : Bool := value.payload ≠ [] || value.encoding.check

/-- `_z_query_encode` -/
def queryEncode (msg : MsgQuery) : List UInt8 :=
  let hasParams := msg.parameters ≠ []
  let hasInfo := msg.extInfo.present
  let hasAttachment := msg.extAttachment ≠ []
  (0x03 ||| flagIf (hasParams || msg.implicitAnyke) 0x40 |||
      flagIf msg.consolidation.isSome 0x20 |||
      flagIf (msg.extValue.present || hasInfo || hasAttachment) 0x80) ::
    (msg.consolidation.toList ++ (if msg.implicitAnyke then
        if hasParams then slicesEncode [msg.parameters, listSeparator :: keyAnyke]
        else sliceEncode keyAnyke
      else if hasParams then sliceEncode msg.parameters else []) ++ (if msg.extValue.present then
        (0x43 ||| flagIf (hasInfo || hasAttachment) 0x80) :: valueEncode msg.extValue else []) ++
      (if hasInfo then (0x41 ||| flagIf hasAttachment 0x80) :: sourceInfoEncodeExt msg.extInfo
        else []) ++
      if hasAttachment then 0x45 :: sliceEncode msg.extAttachment else [])

/-- `_z_query_decode_extensions` -/
def queryDecodeExt (extension : MsgExt) (msg : MsgQuery) : Except ZError MsgQuery :=
  if extFullId extension.header = 0x41 then do
    let (extInfo, _) ← sourceInfoDecode extension.body.bytes
    .ok { msg with extInfo }
  else if extFullId extension.header = 0x43 then do
    let extValue ← valueDecode extension.body.bytes
    .ok { msg with extValue }
  else if extFullId extension.header = 0x45 then
    .ok { msg with extAttachment := extension.body.bytes }
  else if msgExtIsMandatory extension.header then .error .messageExtensionMandatoryAndUnknown
  else .ok msg

/-- `_z_query_decode` into a message of zeros -/
def queryDecode (header : UInt8) : Decoder MsgQuery := do
  let consolidation ← fieldDecode (hasFlag header 0x20) (some <$> uint8Decode) none
  let parameters ← fieldDecode (hasFlag header 0x40) sliceDecode []
  let msg : MsgQuery := ⟨parameters, false, consolidation, .null, ⟨[], .null⟩, []⟩
  fieldDecode (hasFlag header 0x80) (msgExtDecodeIter queryDecodeExt msg) msg

/-- The query in a request, by the id in the header of its body -/
def requestQueryDecode : Decoder MsgQuery := do
  let header ← uint8Decode
  if mid header = 0x03 then queryDecode header else throw .messageDeserializationFailed

/-! ### The two ways of a query -/

/-- `z_reply_keyexpr_t` -/
inductive ReplyKeyexpr
  | any
  | matchingQuery
deriving DecidableEq, Repr

/-- What a caller of `_z_query` asks for, without a consolidation where that is left to the query -/
structure QueryOptions where
  parameters : List UInt8
  consolidation : Option UInt8
  value : Value
  attachment : List UInt8
  sourceInfo : SourceInfo
  acceptReplies : ReplyKeyexpr
deriving DecidableEq, Repr

/-- `Z_SELECTOR_TIME` -/
def selectorTime : List UInt8 := [0x5F, 0x74, 0x69, 0x6D, 0x65, 0x3D]

/-- The consolidation that `_z_query` decides on: none of a query for a time, else the latest -/
def queryConsolidation (options : QueryOptions) : UInt8 :=
  options.consolidation.getD
    (if (memmem options.parameters selectorTime).isSome then 0 else 2)

/-- The query that `_z_query` hands to `_z_n_msg_make_query` -/
def queryMessage (options : QueryOptions) : MsgQuery :=
  let anykeInParameters := parametersHasAnyke options.parameters
  let anykeOption : Bool := options.acceptReplies = .any
  { parameters := options.parameters
    implicitAnyke := anykeOption && !anykeInParameters
    consolidation := some (queryConsolidation options)
    extInfo := options.sourceInfo
    extValue := options.value
    extAttachment := options.attachment }

/-- `_z_query_t`, as far as the message decides on it -/
structure QueryData where
  anyke : Bool
  value : Value
  attachment : List UInt8
  parameters : List UInt8
  sourceInfo : SourceInfo
deriving DecidableEq, Repr

/-- `_z_query_move_data` -/
def queryMoveData (msg : MsgQuery) : QueryData :=
  { anyke := msg.implicitAnyke || parametersHasAnyke msg.parameters
    value := msg.extValue
    attachment := msg.extAttachment
    parameters := msg.parameters
    sourceInfo := msg.extInfo }

/-- What a queryable of the own session is called with -/
def servedLocally (options : QueryOptions) : QueryData := queryMoveData (queryMessage options)

/-- What a queryable behind the wire is called with -/
def servedRemotely (options : QueryOptions) : Except ZError QueryData := do
  let (msg, _) ← requestQueryDecode (queryEncode (queryMessage options))
  .ok (queryMoveData msg)

/-! ### Reading a query back -/

/-- What a message carries lies in memory. -/
structure MsgQuery.Sized (msg : MsgQuery) : Prop where
  parameters : msg.parameters.length < 2 ^ 63
  value : msg.extValue.payload.length + msg.extValue.encoding.schema.length < 2 ^ 63
  attachment : msg.extAttachment.length < 2 ^ 63

/-- The flag of the schema does not change the length of an encoding. -/
theorem zintLen_encodingId (id : UInt16) {flag : UInt32} (h : flag.toNat < 2) :
    zintLen ((id.toUInt32 <<< 1) ||| flag).toUInt64 = zintLen (id.toUInt32 <<< 1).toUInt64 := by
  have hzero := toNat_encodingId id (show (0 : UInt32).toNat < 2 by decide)
  have hflag := toNat_encodingId id h
  have hsame {k : ℕ} (hpos : 1 ≤ k) (hk : k ≤ 8) :
      ((id.toUInt32 <<< 1) ||| flag).toUInt64 &&& vleLenMask k = 0 ↔
        (id.toUInt32 <<< 1).toUInt64 &&& vleLenMask k = 0 := by
    rw [and_vleLenMask_eq_zero_iff _ hk, and_vleLenMask_eq_zero_iff _ hk, UInt32.toNat_toUInt64,
      UInt32.toNat_toUInt64, hflag]
    rw [UInt32.or_zero] at hzero
    rw [hzero]
    obtain ⟨n, rfl⟩ := Nat.exists_eq_add_of_le hpos
    have heven : 2 ^ (7 * (1 + n)) = 2 * 2 ^ (7 * n + 6) := by
      rw [← Nat.pow_succ']
      congr 1
      omega
    rw [heven]
    have hnone : (0 : UInt32).toNat = 0 := rfl
    omega
  have hfrom (n k : ℕ) (hpos : 1 ≤ k) (hk : k + n ≤ 9) :
      zintLenFrom ((id.toUInt32 <<< 1) ||| flag).toUInt64 k n =
        zintLenFrom (id.toUInt32 <<< 1).toUInt64 k n := by
    induction n generalizing k with
    | zero => rfl
    | succ n ih =>
      rw [zintLenFrom, zintLenFrom, ih (k + 1) (by omega) (by omega)]
      simp only [hsame hpos (by omega)]
  exact hfrom 8 1 (by decide) (by decide)

theorem encodingLen_eq (en : Encoding) : encodingLen en = (encodingEncode en).length := by
  rw [encodingLen, encodingEncode, length_append, length_zint64Encode]
  by_cases hschema : en.schema = []
  · rw [if_neg (not_not.mpr hschema), if_neg (not_not.mpr hschema), if_neg (not_not.mpr hschema),
      zintLen_encodingId _ (by decide)]
    rfl
  · rw [if_pos hschema, if_pos hschema, if_pos hschema, zintLen_encodingId _ (by decide),
      sliceEncode, length_append, length_zint64Encode]

/-- The bytes of a value behind its length -/
def valueBody (value : Value) : List UInt8 := encodingEncode value.encoding ++ value.payload

theorem valueEncode_eq (value : Value) : valueEncode value = sliceEncode (valueBody value) := by
  rw [valueEncode, sliceEncode, valueBody, length_append, encodingLen_eq]

variable {value : Value}

theorem valueDecode_body (h : value.encoding.schema.length < 2 ^ 64) :
    valueDecode (valueBody value) = .ok value := by
  rw [valueDecode, valueBody, encodingDecode_encode h]
  rfl

theorem slicesEncode_pair (first second : List UInt8) :
    slicesEncode [first, second] = sliceEncode (first ++ second) := by
  rw [slicesEncode, sliceEncode, length_append]
  simp

/-- The parameters on the wire -/
def MsgQuery.sentParameters (msg : MsgQuery) : List UInt8 :=
  if msg.implicitAnyke then
    if msg.parameters ≠ [] then msg.parameters ++ listSeparator :: keyAnyke else keyAnyke
  else msg.parameters

/-- The extensions on the wire -/
def MsgQuery.extensions (msg : MsgQuery) : List MsgExt :=
  (if msg.extValue.present then [⟨0x43, .zbuf (valueBody msg.extValue)⟩] else []) ++
    ((if msg.extInfo.present then [⟨0x41, .zbuf (sourceInfoEncode msg.extInfo)⟩] else []) ++
      if msg.extAttachment ≠ [] then [⟨0x45, .zbuf msg.extAttachment⟩] else [])

/-- The header of a query -/
def MsgQuery.header (msg : MsgQuery) : UInt8 :=
  0x03 ||| flagIf (msg.sentParameters ≠ []) 0x40 ||| flagIf msg.consolidation.isSome 0x20 |||
    flagIf (msg.extensions ≠ []) 0x80

theorem queryHeader_flags (hasParams hasConsolidation hasExts : Bool) :
    let header := 0x03 ||| flagIf hasParams 0x40 ||| flagIf hasConsolidation 0x20 |||
      flagIf hasExts 0x80
    mid header = 0x03 ∧ hasFlag header 0x40 = hasParams ∧
      hasFlag header 0x20 = hasConsolidation ∧ hasFlag header 0x80 = hasExts := by
  cases hasParams <;> cases hasConsolidation <;> cases hasExts <;> decide

theorem sentParameters_ne_nil (msg : MsgQuery) :
    msg.sentParameters ≠ [] ↔ (msg.parameters ≠ [] || msg.implicitAnyke) = true := by
  unfold MsgQuery.sentParameters
  by_cases hnil : msg.parameters = [] <;> cases msg.implicitAnyke <;> simp [hnil, keyAnyke]

theorem sentParameters_length_le (msg : MsgQuery) :
    msg.sentParameters.length ≤ msg.parameters.length + 7 := by
  unfold MsgQuery.sentParameters
  have hlen : keyAnyke.length = 6 := rfl
  split_ifs
  · rw [length_append, length_cons]
    omega
  · omega
  · omega

theorem extChainEncode_extensions (msg : MsgQuery) : extChainEncode msg.extensions =
      (if msg.extValue.present then
        (0x43 ||| flagIf (msg.extInfo.present || msg.extAttachment ≠ []) 0x80) ::
          valueEncode msg.extValue else []) ++ ((if msg.extInfo.present then
        (0x41 ||| flagIf (msg.extAttachment ≠ []) 0x80) :: sourceInfoEncodeExt msg.extInfo
        else []) ++
      if msg.extAttachment ≠ [] then 0x45 :: sliceEncode msg.extAttachment else []) := by
  have hvalue : extFullId 0x43 = 0x43 := by decide
  have hinfo : extFullId 0x41 = 0x41 := by decide
  have hattachment : extFullId 0x45 = 0x45 := by decide
  rw [MsgQuery.extensions, valueEncode_eq, sourceInfoEncodeExt_eq]
  by_cases hnil : msg.extAttachment = [] <;> cases msg.extValue.present <;>
    cases msg.extInfo.present <;>
    simp [hnil, extChainEncode, msgExtEncode, msgExtBodyEncode, flagIf, hvalue, hinfo, hattachment]

theorem extensions_ne_nil (msg : MsgQuery) : msg.extensions ≠ [] ↔
    (msg.extValue.present || msg.extInfo.present || msg.extAttachment ≠ []) = true := by
  rw [MsgQuery.extensions]
  by_cases hnil : msg.extAttachment = [] <;> cases msg.extValue.present <;>
    cases msg.extInfo.present <;> simp [hnil]

/-- A query is encoded as its header, its parameters and the chain of its extensions. -/
theorem queryEncode_eq (msg : MsgQuery) :
    queryEncode msg = msg.header :: (msg.consolidation.toList ++
      ((if msg.sentParameters ≠ [] then sliceEncode msg.sentParameters else []) ++
        extChainEncode msg.extensions)) := by
  have hparams : (decide (msg.sentParameters ≠ []) : Bool) =
      (msg.parameters ≠ [] || msg.implicitAnyke) := by
    rw [Bool.eq_iff_iff, ← sentParameters_ne_nil, decide_eq_true_eq]
  have hexts : (decide (msg.extensions ≠ []) : Bool) =
      (msg.extValue.present || msg.extInfo.present || msg.extAttachment ≠ []) := by
    rw [Bool.eq_iff_iff, ← extensions_ne_nil, decide_eq_true_eq]
  have hfield : (if msg.sentParameters ≠ [] then sliceEncode msg.sentParameters else []) =
      if msg.implicitAnyke then
        if msg.parameters ≠ [] then slicesEncode [msg.parameters, listSeparator :: keyAnyke]
        else sliceEncode keyAnyke
      else if msg.parameters ≠ [] then sliceEncode msg.parameters else [] := by
    rw [slicesEncode_pair]
    unfold MsgQuery.sentParameters
    by_cases hnil : msg.parameters = [] <;> cases msg.implicitAnyke <;> simp [hnil, keyAnyke]
  rw [MsgQuery.header, hparams, hexts, hfield, extChainEncode_extensions, queryEncode]
  simp only [append_assoc]

/-- The fields of a query, behind its header -/
def MsgQuery.fields (msg : MsgQuery) : List UInt8 :=
  msg.consolidation.toList ++
    ((if msg.sentParameters ≠ [] then sliceEncode msg.sentParameters else []) ++
      extChainEncode msg.extensions)

/-- The receiver reads a query up to its extensions, whatever follows it. -/
theorem queryDecode_fields {msg : MsgQuery} (h : msg.parameters.length < 2 ^ 63)
    (zbf : List UInt8) : queryDecode msg.header (msg.fields ++ zbf) =
      fieldDecode (msg.extensions ≠ [])
        (msgExtDecodeIter queryDecodeExt
          ⟨msg.sentParameters, false, msg.consolidation, .null, ⟨[], .null⟩, []⟩)
        ⟨msg.sentParameters, false, msg.consolidation, .null, ⟨[], .null⟩, []⟩
        (extChainEncode msg.extensions ++ zbf) := by
  obtain ⟨-, hparams, hconsolidation, hexts⟩ := queryHeader_flags (msg.sentParameters ≠ [])
    msg.consolidation.isSome (msg.extensions ≠ [])
  have hfirst (zbf : List UInt8) : fieldDecode msg.consolidation.isSome
      (some <$> uint8Decode) none (msg.consolidation.toList ++ zbf) =
        .ok (msg.consolidation, zbf) := by
    cases msg.consolidation <;> rfl
  have hsecond (zbf : List UInt8) : fieldDecode (msg.sentParameters ≠ []) sliceDecode []
      ((if msg.sentParameters ≠ [] then sliceEncode msg.sentParameters else []) ++ zbf) =
        .ok (msg.sentParameters, zbf) := by
    have hlen := sentParameters_length_le msg
    by_cases hnil : msg.sentParameters = []
    · simp [hnil, fieldDecode]
    · have hsize : msg.sentParameters.length < 2 ^ 64 := by omega
      simp [hnil, fieldDecode, sliceDecode_encode hsize]
  rw [MsgQuery.header, queryDecode, hparams, hconsolidation, hexts, MsgQuery.fields,
    append_assoc, append_assoc, Decoder.bind_of_ok (hfirst _), Decoder.bind_of_ok (hsecond _)]

theorem queryHeader_mid (msg : MsgQuery) : mid msg.header = 0x03 :=
  (queryHeader_flags (msg.sentParameters ≠ []) msg.consolidation.isSome (msg.extensions ≠ [])).1

/-- The query in a request is read up to its extensions. -/
theorem requestQueryDecode_encode {msg : MsgQuery} (h : msg.parameters.length < 2 ^ 63) :
    requestQueryDecode (queryEncode msg) = fieldDecode (msg.extensions ≠ [])
        (msgExtDecodeIter queryDecodeExt
          ⟨msg.sentParameters, false, msg.consolidation, .null, ⟨[], .null⟩, []⟩)
        ⟨msg.sentParameters, false, msg.consolidation, .null, ⟨[], .null⟩, []⟩
        (extChainEncode msg.extensions) := by
  have hread := queryDecode_fields h []
  rw [append_nil, append_nil] at hread
  rw [queryEncode_eq, requestQueryDecode, Decoder.bind_of_ok (uint8Decode_cons _ _),
    if_pos (queryHeader_mid msg)]
  exact hread

/-- An extension leaves the parameters and the flag as they are. -/
theorem queryDecodeExt_keeps {extension : MsgExt} {msg msg' : MsgQuery}
    (h : queryDecodeExt extension msg = .ok msg') :
    msg'.parameters = msg.parameters ∧ msg'.implicitAnyke = msg.implicitAnyke := by
  unfold queryDecodeExt at h
  split_ifs at h
  · cases hread : sourceInfoDecode extension.body.bytes with
    | error e =>
      rw [hread] at h
      cases h
    | ok read =>
      rw [hread] at h
      cases h
      exact ⟨rfl, rfl⟩
  · cases hread : valueDecode extension.body.bytes with
    | error e =>
      rw [hread] at h
      cases h
    | ok read =>
      rw [hread] at h
      cases h
      exact ⟨rfl, rfl⟩
  · cases h
    exact ⟨rfl, rfl⟩
  · cases h
    exact ⟨rfl, rfl⟩

/-- Whatever the extensions are, a query that is read has the parameters of the wire, and no
flag. -/
theorem received_parameters {msg msg' : MsgQuery} {rest : List UInt8}
    (hsize : msg.parameters.length < 2 ^ 63)
    (h : requestQueryDecode (queryEncode msg) = .ok (msg', rest)) :
    msg'.parameters = msg.sentParameters ∧ msg'.implicitAnyke = false := by
  rw [requestQueryDecode_encode hsize, fieldDecode] at h
  split_ifs at h
  · exact msgExtDecodeIter_keeps
      (P := fun context ↦ context.parameters = msg.sentParameters ∧ context.implicitAnyke = false)
      (fun extension context context' hcallback hcontext ↦ by
        obtain ⟨hparameters, hflag⟩ := queryDecodeExt_keeps hcallback
        rw [hparameters, hflag]
        exact hcontext) ⟨rfl, rfl⟩ h
  · cases h
    exact ⟨rfl, rfl⟩

/-- An extension with a slice -/
def sliceExtension (header : UInt8) (zbuf : List UInt8) (henc : header &&& 0x60 = 0x40)
    (hmore : header &&& 0x80 = 0) (hlen : zbuf.length < 2 ^ 64) : Extension :=
  { header, body := .zbuf zbuf
    enc_header := henc
    more_header := hmore
    length_lt := fun val hval ↦ by
      cases hval
      exact hlen }

theorem length_valueBody_lt {msg : MsgQuery} (h : msg.Sized) :
    (valueBody msg.extValue).length < 2 ^ 64 := by
  have hvalue := h.value
  have hid := length_zint64Encode_le ((msg.extValue.encoding.id.toUInt32 <<< 1) |||
    if msg.extValue.encoding.schema ≠ [] then 0x01 else 0).toUInt64
  have hschema := length_zint64Encode_le (.ofNat msg.extValue.encoding.schema.length)
  rw [valueBody, encodingEncode, length_append, length_append]
  split_ifs at hid ⊢
  · rw [sliceEncode, length_append]
    omega
  · rw [length_nil]
    omega

theorem exists_extensions {msg : MsgQuery} (h : msg.Sized) :
    ∃ extensions : List Extension, extensions.map Extension.toMsgExt = msg.extensions := by
  have hinfo : (sourceInfoEncode msg.extInfo).length < 2 ^ 64 :=
    (length_sourceInfoEncode_le msg.extInfo).trans_lt (by decide)
  have hattachment : msg.extAttachment.length < 2 ^ 64 := h.attachment.trans (by decide)
  refine ⟨(if msg.extValue.present then [sliceExtension 0x43 (valueBody msg.extValue) (by decide)
      (by decide) (length_valueBody_lt h)] else []) ++
    ((if msg.extInfo.present then [sliceExtension 0x41 (sourceInfoEncode msg.extInfo) (by decide)
      (by decide) hinfo] else []) ++
    if msg.extAttachment ≠ [] then [sliceExtension 0x45 msg.extAttachment (by decide) (by decide)
      hattachment] else []), ?_⟩
  rw [MsgQuery.extensions, map_append, map_append]
  congr 1
  · split_ifs <;> rfl
  · congr 1 <;> split_ifs <;> rfl

theorem Value.eq_null (h : value.present = false) : value = ⟨[], .null⟩ := by
  obtain ⟨payload, encoding⟩ := value
  simp only [Value.present, Bool.or_eq_false_iff, decide_eq_false_iff_not, ne_eq, not_not] at h
  rw [h.1, Encoding.eq_null h.2]

section Extensions

variable (msg : MsgQuery)

theorem queryDecodeExt_value (h : value.encoding.schema.length < 2 ^ 64) :
    queryDecodeExt ⟨0x43, .zbuf (valueBody value)⟩ msg = .ok { msg with extValue := value } := by
  have hinfo : ¬ (extFullId 0x43 = 0x41) := by decide
  have hid : extFullId 0x43 = 0x43 := by decide
  rw [queryDecodeExt, if_neg hinfo, if_pos hid, MsgExtBody.bytes, valueDecode_body h]
  rfl

theorem queryDecodeExt_info {info : SourceInfo} (hpos : 0 < idLen info.sourceId.zid) :
    queryDecodeExt ⟨0x41, .zbuf (sourceInfoEncode info)⟩ msg =
      .ok { msg with extInfo := info } := by
  have hread := sourceInfoDecode_encode hpos []
  have hid : extFullId 0x41 = 0x41 := by decide
  rw [append_nil] at hread
  rw [queryDecodeExt, if_pos hid, MsgExtBody.bytes, hread]
  rfl

theorem queryDecodeExt_attachment (attachment : List UInt8) :
    queryDecodeExt ⟨0x45, .zbuf attachment⟩ msg = .ok { msg with extAttachment := attachment } := by
  have hinfo : ¬ (extFullId 0x45 = 0x41) := by decide
  have hvalue : ¬ (extFullId 0x45 = 0x43) := by decide
  have hid : extFullId 0x45 = 0x45 := by decide
  rw [queryDecodeExt, if_neg hinfo, if_neg hvalue, if_pos hid, MsgExtBody.bytes]

end Extensions

/-- The extensions of a query are read into one that has none of them yet. -/
theorem foldlM_extensions {msg : MsgQuery} (h : msg.Sized)
    (hinfo : msg.extInfo.present = true → 0 < idLen msg.extInfo.sourceId.zid)
    (parameters : List UInt8) (consolidation : Option UInt8) :
    msg.extensions.foldlM (fun context extension ↦ queryDecodeExt extension context)
        (⟨parameters, false, consolidation, .null, ⟨[], .null⟩, []⟩ : MsgQuery) =
      .ok ⟨parameters, false, consolidation, msg.extInfo, msg.extValue, msg.extAttachment⟩ := by
  have hschema : msg.extValue.encoding.schema.length < 2 ^ 64 := by
    have := h.value
    omega
  have hfirst : (if msg.extValue.present then [(⟨0x43, .zbuf (valueBody msg.extValue)⟩ : MsgExt)]
      else []).foldlM (fun context extension ↦ queryDecodeExt extension context)
        (⟨parameters, false, consolidation, .null, ⟨[], .null⟩, []⟩ : MsgQuery) =
      .ok ⟨parameters, false, consolidation, .null, msg.extValue, []⟩ := by
    cases hpresent : msg.extValue.present with
    | true =>
      rw [if_pos rfl, foldlM_cons, queryDecodeExt_value _ hschema]
      rfl
    | false =>
      rw [Value.eq_null hpresent]
      rfl
  have hsecond : (if msg.extInfo.present then
      [(⟨0x41, .zbuf (sourceInfoEncode msg.extInfo)⟩ : MsgExt)] else []).foldlM
        (fun context extension ↦ queryDecodeExt extension context)
        (⟨parameters, false, consolidation, .null, msg.extValue, []⟩ : MsgQuery) =
      .ok ⟨parameters, false, consolidation, msg.extInfo, msg.extValue, []⟩ := by
    cases hpresent : msg.extInfo.present with
    | true =>
      rw [if_pos rfl, foldlM_cons, queryDecodeExt_info _ (hinfo hpresent)]
      rfl
    | false =>
      rw [SourceInfo.eq_null hpresent]
      rfl
  rw [MsgQuery.extensions, foldlM_append, hfirst]
  change (List.foldlM _ _ _ : Except ZError MsgQuery) = _
  rw [foldlM_append, hsecond]
  change (List.foldlM _ _ _ : Except ZError MsgQuery) = _
  by_cases hnil : msg.extAttachment = []
  · rw [if_neg (not_not.mpr hnil), hnil]
    rfl
  · rw [if_pos hnil, foldlM_cons, queryDecodeExt_attachment]
    rfl

/-- What is read of a query: its option is one of the parameters. -/
def MsgQuery.received (msg : MsgQuery) : MsgQuery :=
  { msg with parameters := msg.sentParameters, implicitAnyke := false }

/-- A query is read back as what is received of it, if its source information has an id. -/
theorem queryDecode_received {msg : MsgQuery} (h : msg.Sized)
    (hinfo : msg.extInfo.present = true → 0 < idLen msg.extInfo.sourceId.zid) (zbf : List UInt8) :
    queryDecode msg.header (msg.fields ++ zbf) = .ok (msg.received, zbf) := by
  have hfold := foldlM_extensions h hinfo msg.sentParameters msg.consolidation
  obtain ⟨extensions, hextensions⟩ := exists_extensions h
  rw [queryDecode_fields h.parameters, fieldDecode, ← hextensions]
  rw [← hextensions] at hfold
  cases extensions with
  | nil =>
    have hsame : (⟨msg.sentParameters, false, msg.consolidation, .null, ⟨[], .null⟩, []⟩ :
        MsgQuery) = msg.received := Except.ok.inj hfold
    rw [hsame]
    rfl
  | cons ext extensions =>
    have hchain := @msgExtDecodeIter_chain _ queryDecodeExt ext extensions
      ⟨msg.sentParameters, false, msg.consolidation, .null, ⟨[], .null⟩, []⟩ zbf
    rw [hfold] at hchain
    rw [if_pos (by simp)]
    exact hchain

theorem requestQueryDecode_received {msg : MsgQuery} (h : msg.Sized)
    (hinfo : msg.extInfo.present = true → 0 < idLen msg.extInfo.sourceId.zid) :
    requestQueryDecode (queryEncode msg) = .ok (msg.received, []) := by
  have hread := queryDecode_received h hinfo []
  rw [append_nil] at hread
  rw [queryEncode_eq, requestQueryDecode, Decoder.bind_of_ok (uint8Decode_cons _ _),
    if_pos (queryHeader_mid msg)]
  exact hread

/-! ### The option on its ways -/

/-- The key behind the parameters is one of the parameters. -/
theorem hasAnyke_sentParameters (msg : MsgQuery) : parametersHasAnyke msg.sentParameters =
      (msg.implicitAnyke || parametersHasAnyke msg.parameters) := by
  unfold MsgQuery.sentParameters
  cases hflag : msg.implicitAnyke with
  | false => rfl
  | true =>
    rw [Bool.true_or, if_pos rfl, parametersHasAnyke_iff]
    split_ifs with hnil
    · have hkey : keyAnyke.splitOn listSeparator = [keyAnyke] := by decide
      rw [splitOn_append_cons_self, hkey]
      exact mem_append_right _ (mem_singleton_self _)
    · decide

/-- What a caller asks with lies in memory. -/
structure QueryOptions.Sized (options : QueryOptions) : Prop where
  parameters : options.parameters.length < 2 ^ 63
  value : options.value.payload.length + options.value.encoding.schema.length < 2 ^ 63
  attachment : options.attachment.length < 2 ^ 63

variable {options : QueryOptions}

theorem queryMessage_sized (h : options.Sized) :
    (queryMessage options).Sized := ⟨h.parameters, h.value, h.attachment⟩

theorem servedLocally_anyke (options : QueryOptions) : (servedLocally options).anyke =
      (decide (options.acceptReplies = .any) || parametersHasAnyke options.parameters) := by
  change ((decide (options.acceptReplies = .any) && !parametersHasAnyke options.parameters) ||
    parametersHasAnyke options.parameters) = _
  cases decide (options.acceptReplies = .any) <;> cases parametersHasAnyke options.parameters <;> rfl

/-- A query that is read on the other side of the wire has the value of the own side. -/
theorem servedRemotely_anyke (hsize : options.parameters.length < 2 ^ 63) {query : QueryData}
    (h : servedRemotely options = .ok query) : query.anyke = (servedLocally options).anyke := by
  rw [servedRemotely] at h
  cases hread : requestQueryDecode (queryEncode (queryMessage options)) with
  | error e =>
    rw [hread] at h
    cases h
  | ok read =>
    obtain ⟨msg, rest⟩ := read
    rw [hread] at h
    cases h
    obtain ⟨hparameters, hflag⟩ := received_parameters hsize hread
    change (msg.implicitAnyke || parametersHasAnyke msg.parameters) = _
    rw [hparameters, hflag, Bool.false_or, hasAnyke_sentParameters]
    rfl

/-- The key is found if and only if it is one of the parameters. A queryable sees the option of the
sender or the key of the parameters, on both ways of a query; and a query whose source information
is absent or has an id is read on the other side of the wire. -/
theorem anyke_served : (∀ parameters : List UInt8, parametersHasAnyke parameters = true ↔
      keyAnyke ∈ parameters.splitOn listSeparator) ∧ ∀ options : QueryOptions, options.Sized →
      ((servedLocally options).anyke = true ↔ options.acceptReplies = .any ∨
        keyAnyke ∈ options.parameters.splitOn listSeparator) ∧
      (∀ query, servedRemotely options = .ok query → query.anyke = (servedLocally options).anyke) ∧
      ((options.sourceInfo.present = true → 0 < idLen options.sourceInfo.sourceId.zid) →
        ∃ query, servedRemotely options = .ok query) := by
  refine ⟨parametersHasAnyke_iff, fun options hsized ↦ ⟨?_, ?_, ?_⟩⟩
  · rw [servedLocally_anyke, Bool.or_eq_true, decide_eq_true_eq, parametersHasAnyke_iff]
  · exact fun query hquery ↦ servedRemotely_anyke hsized.parameters hquery
  · intro hinfo
    have hread := requestQueryDecode_received (queryMessage_sized hsized) hinfo
    rw [servedRemotely, hread]
    exact ⟨_, rfl⟩

/-- A key that only starts with the word, and the option -/
theorem anyke_served_option :
    let options : QueryOptions := ⟨keyAnyke ++ [0x73], none, ⟨[], .null⟩, [], .null, .any⟩
    ∃ query, servedRemotely options = .ok query ∧ query.anyke = true ∧
      query.parameters = keyAnyke ++ [0x73, 0x3B] ++ keyAnyke := by
  intro options
  have hsized : options.Sized := ⟨by decide, by decide, by decide⟩
  obtain ⟨hlocal, hremote, hread⟩ := anyke_served.2 options hsized
  obtain ⟨query, hquery⟩ := hread (by decide)
  refine ⟨query, hquery, ?_, ?_⟩
  · rw [hremote query hquery, hlocal]
    exact .inl rfl
  · have hreceived := requestQueryDecode_received (queryMessage_sized hsized) (by decide)
    rw [servedRemotely, hreceived] at hquery
    cases hquery
    have hfirst : parametersHasAnyke options.parameters = false := by
      rw [← Bool.not_eq_true, parametersHasAnyke_iff]
      decide
    change (queryMessage options).sentParameters = _
    rw [MsgQuery.sentParameters, queryMessage, hfirst]
    rfl

end ZenohPico.Session
