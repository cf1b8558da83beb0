import ZenohPico.Protocol.ExtensionList
import ZenohPico.Session.ResponseMessage

/-!
What becomes of a response on the wire.

A response is read back with the mapping of its sender, except for what a DEL carries beyond its
timestamp and source information (`responseDecode_encode`). A timestamp without an id is not
encoded. Source information with a number but without an id is encoded, and never decoded.
-/

namespace ZenohPico.Session

open Protocol Transport List

/-! ### Integers and ids -/

@[simp]
theorem zint16Decode_encode (v : UInt16) (zbf : List UInt8) :
    zint16Decode (zint64Encode v.toUInt64 ++ zbf) = .ok (v, zbf) := by
  have hlt := v.toNat_lt
  have hsmall : ¬ (0xFFFF : UInt64) < v.toUInt64 := by
    rw [UInt64.lt_iff_toNat_lt, UInt16.toNat_toUInt64]
    simp only [UInt64.reduceToNat]
    omega
  rw [zint16Decode, Decoder.bind_of_ok (zint64Decode_encode _ _), if_neg hsmall, Decoder.pure_apply]
  simp

@[simp]
theorem zint32Decode_encode (v : UInt32) (zbf : List UInt8) :
    zint32Decode (zint64Encode v.toUInt64 ++ zbf) = .ok (v, zbf) := by
  have hlt := v.toNat_lt
  have hsmall : ¬ (0xFFFFFFFF : UInt64) < v.toUInt64 := by
    rw [UInt64.lt_iff_toNat_lt, UInt32.toNat_toUInt64]
    simp only [UInt64.reduceToNat]
    omega
  rw [zint32Decode, Decoder.bind_of_ok (zint64Decode_encode _ _), if_neg hsmall, Decoder.pure_apply]
  simp

theorem zint64Encode_of_lt {n : ℕ} (h : n < 128) : zint64Encode (.ofNat n) = [UInt8.ofNat n] := by
  have hn : (UInt64.ofNat n).toNat = n := by
    rw [UInt64.toNat_ofNat']
    omega
  rw [zint64Encode, zint64EncodeFrom_of_lt (by rwa [hn]), if_pos (by decide)]
  congr 1
  apply UInt8.toNat_inj.mp
  rw [toNat_last (by omega), hn, UInt8.toNat_ofNat']
  omega

/-- A number of 32 bits takes five bytes at most. -/
theorem zintLen_le_five (v : UInt32) : zintLen v.toUInt64 ≤ 5 := by
  have hv : v.toUInt64 &&& vleLenMask 5 = 0 := by
    rw [and_vleLenMask_eq_zero_iff _ (by decide), UInt32.toNat_toUInt64]
    exact v.toNat_lt.trans (by decide)
  simp only [zintLen, zintLenFrom]
  split_ifs <;> omega

variable {zid : ZenohId}

theorem idLen_pos_iff : 0 < idLen zid ↔ idCheck zid = true := by
  have hzero : idLen (.ofBytes []) = 0 := rfl
  rw [idCheck, decide_eq_true_eq]
  refine ⟨fun hpos heq ↦ ?_, fun hne ↦ Nat.pos_of_ne_zero fun hlen ↦ hne ?_⟩
  · rw [heq, hzero] at hpos
    exact absurd hpos (lt_irrefl 0)
  · rw [← ofBytes_take_idLen zid, hlen, take_zero]

theorem length_take_idLen (zid : ZenohId) : (zid.id.take (idLen zid)).length = idLen zid := by
  have hle := idLen_le zid
  rw [length_take, zid.length_id]
  omega

/-- The length of an id is read back from the half of its byte. -/
theorem readBytes_zid (hpos : 0 < idLen zid) (zbf : List UInt8) :
    readBytes ((zidlenByte zid >>> 4) + 1).toNat (zid.id.take (idLen zid) ++ zbf) =
      .ok (zid.id.take (idLen zid), zbf) := by
  have hlen : ((zidlenByte zid >>> 4) + 1).toNat = (zid.id.take (idLen zid)).length := by
    have hle := idLen_le zid
    rw [length_take_idLen, zidlenByte]
    generalize idLen zid = len at hpos hle
    interval_cases len <;> decide
  rw [hlen, readBytes_append]

@[simp]
theorem idDecodeAsSlice_encode (id : ZenohId) (zbf : List UInt8) :
    idDecodeAsSlice (sliceEncode (id.id.take (idLen id)) ++ zbf) = .ok (id, zbf) := by
  have hle := idLen_le id
  have hlen : (UInt8.ofNat (idLen id)).toNat = (id.id.take (idLen id)).length := by
    rw [length_take_idLen, UInt8.toNat_ofNat']
    omega
  rw [sliceEncode, length_take_idLen, zint64Encode_of_lt (by omega), singleton_append,
    cons_append, idDecodeAsSlice, Decoder.bind_of_ok (uint8Decode_cons _ _), hlen,
    Decoder.bind_of_ok (readBytes_append _ _), ofBytes_take_idLen, Decoder.pure_apply]

/-! ### Timestamps, source information, encodings -/

/-- What is read of a timestamp -/
def Timestamp.received (ts : Timestamp) : Timestamp := if ts.valid then ts else .null

/-- The field of a timestamp, which is left out of a timestamp that is not valid -/
def timestampField (ts : Timestamp) : List UInt8 :=
  if ts.valid then zint64Encode ts.time ++ sliceEncode (ts.id.id.take (idLen ts.id)) else []

theorem timestampEncode_of_pos {ts : Timestamp} (h : ts.valid = true → 0 < idLen ts.id) :
    fieldEncode ts.valid (timestampEncode ts) = .ok (timestampField ts) := by
  unfold timestampField fieldEncode
  split_ifs with hvalid
  · rw [timestampEncode, idEncodeAsSlice, if_pos (h hvalid).ne']
    rfl
  · rfl

theorem timestampEncode_of_zero {ts : Timestamp} (h : idLen ts.id = 0) :
    timestampEncode ts = .error .messageZenohUnknown := by
  rw [timestampEncode, idEncodeAsSlice, if_neg (not_not.mpr h)]
  rfl

theorem timestampDecode_field (ts : Timestamp) (zbf : List UInt8) :
    fieldDecode ts.valid timestampDecode .null (timestampField ts ++ zbf) =
      .ok (ts.received, zbf) := by
  unfold fieldDecode timestampField Timestamp.received
  split_ifs with hvalid
  · rw [timestampDecode, append_assoc, Decoder.bind_of_ok (zint64Decode_encode _ _),
      Decoder.bind_of_ok (idDecodeAsSlice_encode _ _), Decoder.pure_apply, ← hvalid]
  · rfl

theorem sourceInfoEncodeExt_eq (info : SourceInfo) :
    sourceInfoEncodeExt info = sliceEncode (sourceInfoEncode info) := by
  have hlen : (sourceInfoEncode info).length = 1 + idLen info.sourceId.zid +
      zintLen info.sourceId.eid.toUInt64 + zintLen info.sourceSn.toUInt64 := by
    rw [sourceInfoEncode, length_cons, length_append, length_append,
      length_take_idLen, length_zint64Encode, length_zint64Encode]
    omega
  rw [sourceInfoEncodeExt, sliceEncode, hlen]

theorem length_sourceInfoEncode_le (info : SourceInfo) : (sourceInfoEncode info).length ≤ 27 := by
  have hle := idLen_le info.sourceId.zid
  have heid := zintLen_le_five info.sourceId.eid
  have hsn := zintLen_le_five info.sourceSn
  rw [sourceInfoEncode, length_cons, length_append, length_append,
    length_take_idLen, length_zint64Encode, length_zint64Encode]
  omega

variable {info : SourceInfo}

theorem sourceInfoDecode_encode (hpos : 0 < idLen info.sourceId.zid) (zbf : List UInt8) :
    sourceInfoDecode (sourceInfoEncode info ++ zbf) = .ok (info, zbf) := by
  rw [sourceInfoDecode, sourceInfoEncode, cons_append, append_assoc, append_assoc,
    Decoder.bind_of_ok (uint8Decode_cons _ _), Decoder.bind_of_ok (readBytes_zid hpos _),
    Decoder.bind_of_ok (zint32Decode_encode _ _), Decoder.bind_of_ok (zint32Decode_encode _ _),
    Decoder.pure_apply, ofBytes_take_idLen]

theorem toNat_zidlenByte_of_zero (hzero : idLen zid = 0) :
    ((zidlenByte zid >>> 4) + 1).toNat = 16 := by
  rw [zidlenByte, hzero]
  rfl

/-- Without an id, sixteen bytes of one are looked for. -/
theorem sourceInfoDecode_of_zero (hzero : idLen info.sourceId.zid = 0) :
    sourceInfoDecode (sourceInfoEncode info) = .error .messageDeserializationFailed := by
  have hread : readBytes ((zidlenByte info.sourceId.zid >>> 4) + 1).toNat
      (info.sourceId.zid.id.take 0 ++ zint64Encode info.sourceId.eid.toUInt64 ++
        zint64Encode info.sourceSn.toUInt64) = .error .messageDeserializationFailed := by
    refine readBytes_of_lt ?_
    have hbyte := toNat_zidlenByte_of_zero hzero
    have heid := zintLen_le_five info.sourceId.eid
    have hsn := zintLen_le_five info.sourceSn
    rw [hbyte, take_zero, nil_append, length_append, length_zint64Encode, length_zint64Encode]
    omega
  rw [sourceInfoDecode, sourceInfoEncode, hzero, Decoder.bind_of_ok (uint8Decode_cons _ _),
    Decoder.bind_of_error hread]

/-- Source information that is not sent is that of a message of zeros. -/
theorem SourceInfo.eq_null (h : info.present = false) : info = .null := by
  obtain ⟨⟨zid, eid⟩, sourceSn⟩ := info
  simp only [SourceInfo.present, idCheck, Bool.or_eq_false_iff, decide_eq_false_iff_not, not_not,
    bne_eq_false_iff_eq] at h
  obtain ⟨⟨hzid, hsn⟩, heid⟩ := h
  rw [hzid, hsn, heid]
  rfl

variable {en : Encoding}

theorem Encoding.eq_null (h : en.check = false) : en = .null := by
  obtain ⟨id, schema⟩ := en
  simp only [Encoding.check, ne_eq, decide_eq_false_iff_not, not_or, not_not] at h
  rw [h.1, h.2]
  rfl

theorem toNat_encodingId (id : UInt16) {flag : UInt32} (h : flag.toNat < 2) :
    ((id.toUInt32 <<< 1) ||| flag).toNat = 2 * id.toNat + flag.toNat := by
  have hlt := id.toNat_lt
  have hshift : (id.toUInt32 <<< 1).toNat = 2 ^ 1 * id.toNat := by
    have hpow : (2 : ℕ) ^ (1 % 32) = 2 := rfl
    rw [UInt32.toNat_shiftLeft, UInt16.toNat_toUInt32, Nat.shiftLeft_eq]
    simp only [UInt32.reduceToNat, hpow]
    omega
  rw [UInt32.toNat_or, hshift, ← Nat.two_pow_add_eq_or_of_lt (by simpa using h), Nat.pow_one]

/-- The flag and the id are read back from one number. -/
theorem encodingId_read (id : UInt16) {flag : UInt32} (h : flag.toNat < 2) :
    ((id.toUInt32 <<< 1) ||| flag) &&& 0x01 = flag ∧
      (((id.toUInt32 <<< 1) ||| flag) >>> 1).toUInt16 = id := by
  have hlt := id.toNat_lt
  have hnat := toNat_encodingId id h
  constructor
  · apply UInt32.toNat_inj.mp
    rw [UInt32.toNat_and, hnat]
    change (2 * id.toNat + flag.toNat) &&& 1 = flag.toNat
    rw [Nat.and_one_is_mod]
    omega
  · apply UInt16.toNat_inj.mp
    have hpow : (2 : ℕ) ^ (1 % 32) = 2 := rfl
    rw [UInt32.toNat_toUInt16, UInt32.toNat_shiftRight, hnat, Nat.shiftRight_eq_div_pow]
    simp only [UInt32.reduceToNat, hpow]
    omega

theorem encodingDecode_encode (h : en.schema.length < 2 ^ 64) (zbf : List UInt8) :
    encodingDecode (encodingEncode en ++ zbf) = .ok (en, zbf) := by
  obtain ⟨id, schema⟩ := en
  rw [encodingDecode, encodingEncode, append_assoc, Decoder.bind_of_ok (zint32Decode_encode _ _)]
  by_cases hschema : schema = []
  · have hid := encodingId_read id (show (0 : UInt32).toNat < 2 by decide)
    rw [if_neg (not_not.mpr hschema), if_neg (not_not.mpr hschema), hid.1, hid.2, hschema]
    rfl
  · have hid := encodingId_read id (show (0x01 : UInt32).toNat < 2 by decide)
    have hflag : decide ((0x01 : UInt32) ≠ 0) = true := by decide
    rw [if_pos hschema, if_pos hschema, hid.1, hid.2, hflag, fieldDecode, if_pos rfl,
      Decoder.bind_of_ok (sliceDecode_encode h _)]
    rfl

theorem encodingDecode_field (h : en.schema.length < 2 ^ 64) (zbf : List UInt8) :
    fieldDecode en.check encodingDecode .null
      ((if en.check then encodingEncode en else []) ++ zbf) = .ok (en, zbf) := by
  rw [fieldDecode]
  cases hcheck : en.check with
  | true => simpa using encodingDecode_encode h zbf
  | false => rw [Encoding.eq_null hcheck]; rfl

/-! ### Extensions -/

section Iteration

variable {σ : Type} {callback : MsgExt → σ → Except ZError σ} {context context' : σ}

/-- A first extension with a slice, that the callback takes -/
theorem msgExtDecodeIter_zbuf {header : UInt8} {body : List UInt8} (henc : header &&& 0x60 = 0x40)
    (hlen : body.length < 2 ^ 64)
    (hcallback : callback ⟨extFullId header, .zbuf body⟩ context = .ok context') (zbf : List UInt8) :
    msgExtDecodeIter callback context (header :: (sliceEncode body ++ zbf)) =
      if (header &&& 0x80) != 0 then msgExtDecodeIter callback context' zbf
      else .ok (context', zbf) :=
  msgExtDecodeIter_of_ok (msgExtDecode_zbuf henc hlen zbf) hcallback

end Iteration

/-! ### Bodies -/

/-- The extension with the source information, behind which another one may follow -/
def sourceInfoField (info : SourceInfo) (more : Bool) : List UInt8 :=
  if info.present then (0x41 ||| flagIf more 0x80) :: sliceEncode (sourceInfoEncode info) else []

/-- The extension with an attachment -/
def attachmentField (attachment : List UInt8) : List UInt8 :=
  if attachment ≠ [] then 0x43 :: sliceEncode attachment else []

/-- What the encoder reads of a body beside its timestamp and source information -/
def PushBody.sent (pshb : PushBody) : MsgPut :=
  if pshb.isPut then pshb.put
  else { MsgPut.null with timestamp := pshb.put.timestamp, sourceInfo := pshb.put.sourceInfo }

/-- What is read of a body -/
def PushBody.received (pshb : PushBody) : PushBody :=
  { pshb with put := { pshb.sent with timestamp := pshb.put.timestamp.received } }

/-- The header of a body -/
def bodyHeader (isPut hasExts hasTimestamp hasEncoding : Bool) : UInt8 :=
  (if isPut then 0x01 else 0x02) ||| flagIf hasExts 0x80 ||| flagIf hasTimestamp 0x20 |||
    flagIf hasEncoding 0x40

theorem bodyHeader_flags (isPut hasExts hasTimestamp hasEncoding : Bool) :
    mid (bodyHeader isPut hasExts hasTimestamp hasEncoding) = (if isPut then 0x01 else 0x02) ∧
      hasFlag (bodyHeader isPut hasExts hasTimestamp hasEncoding) 0x80 = hasExts ∧
      hasFlag (bodyHeader isPut hasExts hasTimestamp hasEncoding) 0x20 = hasTimestamp ∧
      (isPut = true → hasFlag (bodyHeader isPut hasExts hasTimestamp hasEncoding) 0x40 =
        hasEncoding) := by
  cases isPut <;> cases hasExts <;> cases hasTimestamp <;> cases hasEncoding <;> decide

/-- The header that is encoded for a body -/
def PushBody.header (pshb : PushBody) : UInt8 :=
  bodyHeader pshb.isPut (pshb.sent.sourceInfo.present || pshb.sent.attachment ≠ [])
    pshb.put.timestamp.valid pshb.sent.encoding.check

/-- The fields that are encoded for a body -/
def PushBody.fields (pshb : PushBody) : List UInt8 :=
  timestampField pshb.put.timestamp ++
    ((if pshb.sent.encoding.check then encodingEncode pshb.sent.encoding else []) ++
    (sourceInfoField pshb.sent.sourceInfo (pshb.sent.attachment ≠ []) ++
    (attachmentField pshb.sent.attachment ++
    if pshb.isPut then sliceEncode pshb.sent.payload else [])))

variable {pshb : PushBody}

theorem pushBodyEncode_eq (h : pshb.put.timestamp.valid = true → 0 < idLen pshb.put.timestamp.id) :
    pushBodyEncode pshb = .ok (pshb.header :: pshb.fields) := by
  have hts := timestampEncode_of_pos h
  obtain ⟨isPut, put⟩ := pshb
  rw [pushBodyEncode]
  dsimp only at hts ⊢
  rw [hts]
  cases isPut <;>
    simp [PushBody.header, PushBody.fields, PushBody.sent, bodyHeader, sourceInfoField,
      attachmentField, sourceInfoEncodeExt_eq, MsgPut.null, Encoding.null, Encoding.check,
      bind, Except.bind]

theorem pushBodyDecodeExt_sourceInfo (hpos : 0 < idLen info.sourceId.zid) (pshb : PushBody) :
    pushBodyDecodeExt ⟨0x41, .zbuf (sourceInfoEncode info)⟩ pshb =
      .ok { pshb with put := { pshb.put with sourceInfo := info } } := by
  have hread := sourceInfoDecode_encode hpos []
  rw [append_nil] at hread
  have hid : extFullId 0x41 = 0x41 := by decide
  rw [pushBodyDecodeExt, if_pos hid, MsgExtBody.bytes, hread]
  rfl

theorem pushBodyDecodeExt_attachment (attachment : List UInt8) (pshb : PushBody) :
    pushBodyDecodeExt ⟨0x43, .zbuf attachment⟩ pshb =
      .ok { pshb with put := { pshb.put with attachment } } := by
  have hid : extFullId 0x43 = 0x43 := by decide
  have hne : ¬ (extFullId 0x43 = 0x41) := by decide
  rw [pushBodyDecodeExt, if_neg hne, if_pos hid, MsgExtBody.bytes]

/-- The header of the extension with the source information -/
theorem sourceInfoHeader_flags (more : Bool) :
    ((0x41 ||| flagIf more 0x80) &&& 0x60 : UInt8) = 0x40 ∧
      extFullId (0x41 ||| flagIf more 0x80) = 0x41 ∧
      (((0x41 ||| flagIf more 0x80) &&& 0x80 : UInt8) != 0) = more := by
  cases more <;> decide

/-- The extensions are read into a body that has none of them yet. -/
theorem pushBodyExtsDecode_fields {header : UInt8} {attachment : List UInt8}
    (hinfo : info.present = true → 0 < idLen info.sourceId.zid) (hsize : attachment.length < 2 ^ 64)
    (hnull : pshb.put.sourceInfo = .null) (hnone : pshb.put.attachment = [])
    (hflag : hasFlag header 0x80 = (info.present || attachment ≠ [])) (zbf : List UInt8) :
    pushBodyExtsDecode header pshb
        (sourceInfoField info (attachment ≠ []) ++ (attachmentField attachment ++ zbf)) =
      .ok ({ pshb with put := { pshb.put with sourceInfo := info, attachment } }, zbf) := by
  have hlen : (sourceInfoEncode info).length < 2 ^ 64 :=
    (length_sourceInfoEncode_le info).trans_lt (by decide)
  obtain ⟨henc, hid, hmore⟩ := sourceInfoHeader_flags (attachment ≠ [])
  rw [pushBodyExtsDecode, fieldDecode, hflag, sourceInfoField, attachmentField]
  by_cases hattachment : attachment = []
  · -- nothing follows the source information
    rw [if_neg (not_not.mpr hattachment), nil_append]
    cases hpresent : info.present with
    | true =>
      rw [if_pos (by simp), if_pos rfl, cons_append, msgExtDecodeIter_zbuf henc hlen (by
          rw [hid]
          exact pushBodyDecodeExt_sourceInfo (hinfo hpresent) pshb), hmore,
        if_neg (by simp [hattachment])]
      obtain ⟨isPut, put⟩ := pshb
      simp_all
    | false =>
      have hsame : ({ pshb with put := { pshb.put with sourceInfo := info, attachment } } :
          PushBody) = pshb := by
        obtain ⟨isPut, put⟩ := pshb
        cases put
        simp_all [SourceInfo.eq_null hpresent]
      rw [hsame, if_neg (by simp [hattachment])]
      rfl
  · have hread (context : PushBody) :
        msgExtDecodeIter pushBodyDecodeExt context (0x43 :: sliceEncode attachment ++ zbf) =
          .ok ({ context with put := { context.put with attachment } }, zbf) := by
      rw [cons_append, msgExtDecodeIter_zbuf (by decide) hsize
        (pushBodyDecodeExt_attachment attachment context)]
      rfl
    rw [if_pos hattachment, if_pos (by simp [hattachment])]
    cases hpresent : info.present with
    | true =>
      rw [if_pos rfl, cons_append, msgExtDecodeIter_zbuf henc hlen (by
          rw [hid]
          exact pushBodyDecodeExt_sourceInfo (hinfo hpresent) pshb), hmore,
        if_pos (by simp [hattachment]), hread]
    | false =>
      obtain ⟨isPut, put⟩ := pshb
      rw [if_neg (by simp), nil_append, hread, SourceInfo.eq_null hpresent, ← hnull]

/-- The lengths of what a PUT carries are those of slices. -/
structure MsgPut.Sized (put : MsgPut) : Prop where
  payload : put.payload.length < 2 ^ 64
  schema : put.encoding.schema.length < 2 ^ 64
  attachment : put.attachment.length < 2 ^ 64

/-- What is read of a body behind its extensions -/
def pushBodyRestDecode (isPut : Bool) (pshb : PushBody) : Decoder PushBody :=
  if isPut then sliceDecode >>= fun payload ↦ pure { pshb with put := { pshb.put with payload } }
  else pure pshb

/-- A body is read up to its extensions. -/
theorem PushBody.header_exts (pshb : PushBody) : hasFlag pshb.header 0x80 =
    (pshb.sent.sourceInfo.present || pshb.sent.attachment ≠ []) :=
  (bodyHeader_flags _ _ _ _).2.1

theorem PushBody.sent_sourceInfo (pshb : PushBody) :
    pshb.sent.sourceInfo = pshb.put.sourceInfo := by
  obtain ⟨isPut, put⟩ := pshb
  cases isPut <;> rfl

theorem pushBodyDecode_start (hsized : pshb.isPut = true → pshb.put.Sized) (zbf : List UInt8) :
    pushBodyDecode pshb.header (pshb.fields ++ zbf) = (pushBodyExtsDecode pshb.header
          ⟨pshb.isPut, { MsgPut.null with
            timestamp := pshb.put.timestamp.received, encoding := pshb.sent.encoding }⟩ >>=
        pushBodyRestDecode pshb.isPut)
        (sourceInfoField pshb.sent.sourceInfo (pshb.sent.attachment ≠ []) ++
          (attachmentField pshb.sent.attachment ++
            ((if pshb.isPut then sliceEncode pshb.sent.payload else []) ++ zbf))) := by
  obtain ⟨isPut, put⟩ := pshb
  cases isPut with
  | true =>
    have hheader : PushBody.header ⟨true, put⟩ = bodyHeader true
      (put.sourceInfo.present || put.attachment ≠ []) put.timestamp.valid put.encoding.check := rfl
    obtain ⟨hmid, -, hts, hen⟩ := bodyHeader_flags true
      (put.sourceInfo.present || put.attachment ≠ []) put.timestamp.valid put.encoding.check
    rw [← hheader] at hmid hts hen
    rw [if_pos rfl] at hmid
    rw [pushBodyDecode, if_pos hmid, hts, hen rfl]
    simp only [PushBody.fields, PushBody.sent, if_true, append_assoc]
    rw [Decoder.bind_of_ok (timestampDecode_field _ _),
      Decoder.bind_of_ok (encodingDecode_field (hsized rfl).schema _)]
    rfl
  | false =>
    have hheader : PushBody.header ⟨false, put⟩ = bodyHeader false
      (put.sourceInfo.present || ([] : List UInt8) ≠ []) put.timestamp.valid false := rfl
    obtain ⟨hmid, -, hts, -⟩ := bodyHeader_flags false
      (put.sourceInfo.present || ([] : List UInt8) ≠ []) put.timestamp.valid false
    rw [← hheader] at hmid hts
    rw [if_neg Bool.false_ne_true] at hmid
    have hfields : PushBody.fields ⟨false, put⟩ = timestampField put.timestamp ++
        (sourceInfoField put.sourceInfo (([] : List UInt8) ≠ []) ++
        (attachmentField [] ++ [])) := rfl
    rw [pushBodyDecode, if_neg (by rw [hmid]; decide), if_pos hmid, hts, hfields,
      append_assoc, append_assoc, append_assoc, nil_append,
      Decoder.bind_of_ok (timestampDecode_field _ _)]
    have hrest : pushBodyRestDecode false = pure := rfl
    rw [hrest, bind_pure]
    rfl

/-- A body is read back as what is received of it. -/
theorem pushBodyDecode_fields
    (hinfo : pshb.put.sourceInfo.present = true → 0 < idLen pshb.put.sourceInfo.sourceId.zid)
    (hsized : pshb.isPut = true → pshb.put.Sized) (zbf : List UInt8) :
    pushBodyDecode pshb.header (pshb.fields ++ zbf) = .ok (pshb.received, zbf) := by
  have hsent : pshb.sent.sourceInfo = pshb.put.sourceInfo := pshb.sent_sourceInfo
  have hattachment : pshb.sent.attachment.length < 2 ^ 64 := by
    obtain ⟨isPut, put⟩ := pshb
    cases isPut with
    | true => exact (hsized rfl).attachment
    | false =>
      change 0 < 2 ^ 64
      decide
  rw [pushBodyDecode_start hsized, Decoder.bind_of_ok (pushBodyExtsDecode_fields (by rwa [hsent])
    hattachment rfl rfl pshb.header_exts _)]
  obtain ⟨isPut, put⟩ := pshb
  cases isPut with
  | true => exact Decoder.bind_of_ok (sliceDecode_encode (hsized rfl).payload zbf) _
  | false => rfl

/-- Source information without an id ends the reading of a body. -/
theorem pushBodyExtsDecode_refused {header : UInt8} (hpresent : info.present = true)
    (hzero : idLen info.sourceId.zid = 0) (hflag : hasFlag header 0x80 = true) (pshb : PushBody)
    (more : Bool) (zbf : List UInt8) :
    pushBodyExtsDecode header pshb (sourceInfoField info more ++ zbf) =
      .error .messageDeserializationFailed := by
  have hlen : (sourceInfoEncode info).length < 2 ^ 64 :=
    (length_sourceInfoEncode_le info).trans_lt (by decide)
  obtain ⟨henc, hid, -⟩ := sourceInfoHeader_flags more
  rw [pushBodyExtsDecode, fieldDecode, if_pos hflag, sourceInfoField, if_pos hpresent, cons_append]
  refine msgExtDecodeIter_refused (msgExtDecode_zbuf henc hlen zbf) ?_
  have hself : extFullId 0x41 = 0x41 := by decide
  rw [hid, pushBodyDecodeExt, if_pos hself, MsgExtBody.bytes, sourceInfoDecode_of_zero hzero]
  rfl

theorem pushBodyDecode_refused (hpresent : pshb.put.sourceInfo.present = true)
    (hzero : idLen pshb.put.sourceInfo.sourceId.zid = 0)
    (hsized : pshb.isPut = true → pshb.put.Sized) (zbf : List UInt8) :
    pushBodyDecode pshb.header (pshb.fields ++ zbf) = .error .messageDeserializationFailed := by
  rw [← pshb.sent_sourceInfo] at hpresent hzero
  have hflag : hasFlag pshb.header 0x80 = true := by
    rw [pshb.header_exts, hpresent, Bool.true_or]
  rw [pushBodyDecode_start hsized,
    Decoder.bind_of_error (pushBodyExtsDecode_refused hpresent hzero hflag _ _ _)]

/-! ### Replies and errors -/

theorem replyHeader_flags (hasConsolidation : Bool) :
    mid (0x04 ||| flagIf hasConsolidation 0x20) = 0x04 ∧
      hasFlag (0x04 ||| flagIf hasConsolidation 0x20) 0x20 = hasConsolidation ∧
      hasFlag (0x04 ||| flagIf hasConsolidation 0x20) 0x80 = false := by
  cases hasConsolidation <;> decide

/-- A reply is read up to the header of its body. -/
theorem replyDecode_cons (consolidation : Option UInt8) (header : UInt8) (zbf : List UInt8) :
    replyDecode (0x04 ||| flagIf consolidation.isSome 0x20)
        (consolidation.toList ++ header :: zbf) =
      (pushBodyDecode header >>= fun body ↦ pure ⟨consolidation, body⟩) zbf := by
  obtain ⟨-, hflag, hexts⟩ := replyHeader_flags consolidation.isSome
  rw [replyDecode, hflag, hexts]
  cases consolidation <;> rfl

theorem errHeader_flags (hasEncoding hasInfo : Bool) :
    mid (0x05 ||| flagIf hasEncoding 0x40 ||| flagIf hasInfo 0x80) = 0x05 ∧
      hasFlag (0x05 ||| flagIf hasEncoding 0x40 ||| flagIf hasInfo 0x80) 0x40 = hasEncoding ∧
      hasFlag (0x05 ||| flagIf hasEncoding 0x40 ||| flagIf hasInfo 0x80) 0x80 = hasInfo := by
  cases hasEncoding <;> cases hasInfo <;> decide

/-- An error without source information is read back. -/
theorem errDecode_encode {err : MsgErr} (hinfo : err.extSourceInfo = .null)
    (hschema : err.encoding.schema.length < 2 ^ 64) (hpayload : err.payload.length < 2 ^ 64)
    (zbf : List UInt8) : errDecode (0x05 ||| flagIf err.encoding.check 0x40 ||| flagIf false 0x80)
        (((if err.encoding.check then encodingEncode err.encoding else []) ++
          sliceEncode err.payload) ++ zbf) = .ok (err, zbf) := by
  obtain ⟨-, hen, hexts⟩ := errHeader_flags err.encoding.check false
  rw [errDecode, hen, hexts, append_assoc, Decoder.bind_of_ok (encodingDecode_field hschema _),
    fieldDecode, if_neg Bool.false_ne_true, pure_bind,
    Decoder.bind_of_ok (sliceDecode_encode hpayload _), Decoder.pure_apply, ← hinfo]

/-! ### Responses -/

/-- What the constructors of replies fill in the same way for all of them: there is no timestamp of
the response, and the responder is a session. -/
structure ResponseMessage.Made (msg : ResponseMessage) : Prop where
  extTimestamp : msg.extTimestamp = .null
  extResponder : msg.extResponder.eid = 0
  suffix : msg.key.suffix.length < 2 ^ 64

/-- The extension with the quality of service, behind which another one may follow -/
def qosField (qos : UInt8) (more : Bool) : List UInt8 :=
  if qos ≠ 5 then (0x21 ||| flagIf more 0x80) :: zint64Encode qos.toUInt64 else []

/-- The extension with the responder -/
def responderField (responder : EntityGlobalId) : List UInt8 :=
  if idCheck responder.zid then 0x43 :: responderEncodeExt responder else []

/-- The body of the extension with the responder -/
def responderBody (responder : EntityGlobalId) : List UInt8 :=
  zidlenByte responder.zid ::
    (responder.zid.id.take (idLen responder.zid) ++ zint64Encode responder.eid.toUInt64)

theorem length_responderBody (responder : EntityGlobalId) : (responderBody responder).length =
    idLen responder.zid + 1 + zintLen responder.eid.toUInt64 := by
  rw [responderBody, length_cons, length_append, length_take_idLen, length_zint64Encode]
  omega

theorem responderEncodeExt_eq (responder : EntityGlobalId) :
    responderEncodeExt responder = sliceEncode (responderBody responder) := by
  rw [sliceEncode, length_responderBody]
  rfl

variable {responder : EntityGlobalId}

theorem responseDecodeExt_responder (hpos : 0 < idLen responder.zid) (msg : ResponseMessage) :
    responseDecodeExt ⟨0x43, .zbuf (responderBody responder)⟩ msg =
      .ok { msg with extResponder := responder } := by
  have hzid := readBytes_zid hpos (zint64Encode responder.eid.toUInt64)
  have heid := zint32Decode_encode responder.eid []
  have hqos : ¬ (extFullId 0x43 = 0x21) := by decide
  have hts : ¬ (extFullId 0x43 = 0x42) := by decide
  have hid : extFullId 0x43 = 0x43 := by decide
  rw [append_nil] at heid
  rw [responseDecodeExt, if_neg hqos, if_neg hts, if_pos hid, MsgExtBody.bytes, responderBody,
    uint8Decode_cons]
  simp only [bind, Except.bind, hzid, heid, ofBytes_take_idLen]

theorem responseDecodeExt_qos (qos : UInt8) (msg : ResponseMessage) :
    responseDecodeExt ⟨0x21, .zint qos.toUInt64⟩ msg = .ok { msg with extQos := qos } := by
  have hid : extFullId 0x21 = 0x21 := by decide
  rw [responseDecodeExt, if_pos hid, MsgExtBody.val]
  simp

theorem qosHeader_flags (more : Bool) : ((0x21 ||| flagIf more 0x80) &&& 0x60 : UInt8) = 0x20 ∧
      extFullId (0x21 ||| flagIf more 0x80) = 0x21 ∧
      (((0x21 ||| flagIf more 0x80) &&& 0x80 : UInt8) != 0) = more := by
  cases more <;> decide

variable {msg : ResponseMessage}

/-- The extensions are read into a response that has none of them yet. -/
theorem responseExtsDecode_fields {qos : UInt8} (heid : responder.eid = 0) (hqos : msg.extQos = 5)
    (hresponder : msg.extResponder = ⟨.ofBytes [], 0⟩) (zbf : List UInt8) :
    fieldDecode (decide (qos ≠ 5) || idCheck responder.zid)
        (msgExtDecodeIter responseDecodeExt msg) msg
        (qosField qos (idCheck responder.zid) ++ (responderField responder ++ zbf)) =
      .ok ({ msg with extQos := qos, extResponder := responder }, zbf) := by
  obtain ⟨henc, hid, hmore⟩ := qosHeader_flags (idCheck responder.zid)
  have hread (context : ResponseMessage) (hcheck : idCheck responder.zid = true) :
      msgExtDecodeIter responseDecodeExt context (responderField responder ++ zbf) =
        .ok ({ context with extResponder := responder }, zbf) := by
    have hle := idLen_le responder.zid
    have hlen : (responderBody responder).length < 2 ^ 64 := by
      have := zintLen_le_five responder.eid
      rw [length_responderBody]
      omega
    rw [responderField, if_pos hcheck, responderEncodeExt_eq, cons_append,
      msgExtDecodeIter_zbuf (by decide) hlen
        (responseDecodeExt_responder (idLen_pos_iff.mpr hcheck) context)]
    rfl
  -- a responder that is not sent is that of a message of zeros
  have hsame (hcheck : idCheck responder.zid = false) : responder = msg.extResponder := by
    have hzid : responder.zid = .ofBytes [] := by simpa [idCheck] using hcheck
    obtain ⟨zid, eid⟩ := responder
    rw [hresponder, ← heid, ← hzid]
  have hnone (hcheck : idCheck responder.zid = false) : responderField responder = [] := by
    rw [responderField, hcheck, if_neg Bool.false_ne_true]
  have hqosNext : msgExtDecode ((0x21 ||| flagIf (idCheck responder.zid) 0x80) ::
      (zint64Encode qos.toUInt64 ++ (responderField responder ++ zbf))) =
        .ok ((⟨0x21, .zint qos.toUInt64⟩, idCheck responder.zid),
          responderField responder ++ zbf) := by
    rw [msgExtDecode_zint henc, hid, hmore]
  by_cases hdefault : qos = 5
  · have hfield : qosField qos (idCheck responder.zid) = [] := if_neg (not_not.mpr hdefault)
    rw [hfield, nil_append]
    cases hcheck : idCheck responder.zid with
    | true =>
      rw [fieldDecode, if_pos (Bool.or_true _), hread msg hcheck, hdefault, ← hqos]
    | false =>
      rw [hnone hcheck, fieldDecode, if_neg (by simp [hdefault]), hsame hcheck, hdefault, ← hqos]
      rfl
  · rw [qosField, if_pos hdefault, fieldDecode, if_pos (by simp [hdefault]), cons_append,
      msgExtDecodeIter_of_ok hqosNext (responseDecodeExt_qos qos msg)]
    cases hcheck : idCheck responder.zid with
    | true => rw [if_pos rfl, hread _ hcheck]
    | false =>
      rw [if_neg Bool.false_ne_true, hnone hcheck, nil_append]
      conv_rhs => rw [hsame hcheck]

/-- The header of a response -/
def ResponseMessage.header (msg : ResponseMessage) : UInt8 :=
  0x1B ||| flagIf (msg.key.mapping = .session) 0x40 ||| flagIf (msg.key.suffix ≠ []) 0x20 |||
    flagIf (decide (msg.extQos ≠ 5) || idCheck msg.extResponder.zid) 0x80

theorem responseHeader_flags (isLocal hasSuffix hasExts : Bool) :
    mid (0x1B ||| flagIf isLocal 0x40 ||| flagIf hasSuffix 0x20 ||| flagIf hasExts 0x80) = 0x1B ∧
      hasFlag (0x1B ||| flagIf isLocal 0x40 ||| flagIf hasSuffix 0x20 ||| flagIf hasExts 0x80) 0x40 =
        isLocal ∧
      hasFlag (0x1B ||| flagIf isLocal 0x40 ||| flagIf hasSuffix 0x20 ||| flagIf hasExts 0x80) 0x20 =
        hasSuffix ∧
      hasFlag (0x1B ||| flagIf isLocal 0x40 ||| flagIf hasSuffix 0x20 ||| flagIf hasExts 0x80) 0x80 =
        hasExts := by
  cases isLocal <;> cases hasSuffix <;> cases hasExts <;> decide

/-- What is encoded of a response in front of its body -/
def ResponseMessage.fields (msg : ResponseMessage) : List UInt8 :=
  zint64Encode msg.requestId ++ (zint64Encode msg.key.id.toUInt64 ++
    ((if msg.key.suffix ≠ [] then sliceEncode msg.key.suffix else []) ++
    (qosField msg.extQos (idCheck msg.extResponder.zid) ++ responderField msg.extResponder)))

theorem responseEncode_of_ok (h : msg.Made) {body : List UInt8}
    (hbody : responseBodyEncode msg.body = .ok body) :
    responseEncode msg = .ok (msg.header :: (msg.fields ++ body)) := by
  simp [responseEncode, hbody, h.extTimestamp, h.extResponder, Timestamp.null, fieldEncode, bind,
    Except.bind, ResponseMessage.header, ResponseMessage.fields, qosField, responderField]

theorem responseEncode_of_error (h : msg.Made) {e : ZError}
    (hbody : responseBodyEncode msg.body = .error e) : responseEncode msg = .error e := by
  simp [responseEncode, hbody, h.extTimestamp, Timestamp.null, fieldEncode, bind, Except.bind]

/-- The key of a response, as the receiver sees it: the resources of the sender are those of a
peer. -/
def receivedKey (key : WireExpr) : WireExpr :=
  { key with mapping := if key.mapping = .session then .peer else .session }

theorem wireexprDecode_fields {key : WireExpr} (h : key.suffix.length < 2 ^ 64) (zbf : List UInt8) :
    wireexprDecode (key.suffix ≠ []) (key.mapping = .session)
        (zint64Encode key.id.toUInt64 ++
          ((if key.suffix ≠ [] then sliceEncode key.suffix else []) ++ zbf)) =
      .ok (receivedKey key, zbf) := by
  have hsuffix : fieldDecode (key.suffix ≠ []) sliceDecode []
      ((if key.suffix ≠ [] then sliceEncode key.suffix else []) ++ zbf) = .ok (key.suffix, zbf) := by
    unfold fieldDecode
    by_cases hnil : key.suffix = []
    · simp [hnil]
    · simp [hnil, sliceDecode_encode h]
  rw [wireexprDecode, Decoder.bind_of_ok (zint16Decode_encode _ _), Decoder.bind_of_ok hsuffix]
  simp [receivedKey]

/-- A response is read up to its body. -/
theorem responseDecode_fields (h : msg.Made) (body : List UInt8) :
    responseDecode msg.header (msg.fields ++ body) =
      (uint8Decode >>= fun innerHeader ↦ responseBodyDecode innerHeader >>= fun body ↦
        pure { msg with key := receivedKey msg.key, body }) body := by
  obtain ⟨-, hlocal, hsuffix, hexts⟩ := responseHeader_flags (msg.key.mapping = .session)
    (msg.key.suffix ≠ []) (decide (msg.extQos ≠ 5) || idCheck msg.extResponder.zid)
  have hts := h.extTimestamp
  rw [responseDecode, ResponseMessage.header, hlocal, hsuffix, hexts, ResponseMessage.fields]
  simp only [append_assoc]
  rw [Decoder.bind_of_ok (zint64Decode_encode _ _),
    Decoder.bind_of_ok (wireexprDecode_fields h.suffix _),
    Decoder.bind_of_ok (responseExtsDecode_fields h.extResponder rfl rfl _)]
  obtain ⟨requestId, key, extQos, extTimestamp, extResponder, msgBody⟩ := msg
  obtain rfl : extTimestamp = .null := hts
  rfl

/-- What is read of the body of a response -/
def ResponseBody.received : ResponseBody → ResponseBody
  | .reply msg => .reply { msg with body := msg.body.received }
  | .err msg => .err msg

/-- What is read of a response -/
def ResponseMessage.received (msg : ResponseMessage) : ResponseMessage :=
  { msg with key := receivedKey msg.key, body := msg.body.received }

variable {reply : MsgReply}

/-- A reply whose timestamp has an id is sent, and read up to its body. -/
theorem responseDecode_start (h : msg.Made) (hbody : msg.body = .reply reply)
    (hts : reply.body.put.timestamp.valid = true → 0 < idLen reply.body.put.timestamp.id) :
    ∃ bytes, responseEncode msg = .ok (msg.header :: bytes) ∧ responseDecode msg.header bytes =
        (pushBodyDecode reply.body.header >>= fun body ↦ pure { msg with
          key := receivedKey msg.key, body := .reply ⟨reply.consolidation, body⟩ })
          reply.body.fields := by
  have hencode : responseBodyEncode msg.body =
      .ok ((0x04 ||| flagIf reply.consolidation.isSome 0x20) ::
        (reply.consolidation.toList ++ reply.body.header :: reply.body.fields)) := by
    rw [hbody, responseBodyEncode, replyEncode, pushBodyEncode_eq hts]
    rfl
  refine ⟨_, responseEncode_of_ok h hencode, ?_⟩
  have hmonad : (ResponseBody.reply <$> (pushBodyDecode reply.body.header >>= fun body ↦
      pure (⟨reply.consolidation, body⟩ : MsgReply)) >>= fun body ↦
        pure { msg with key := receivedKey msg.key, body }) =
      (pushBodyDecode reply.body.header >>= fun body ↦ pure { msg with
        key := receivedKey msg.key, body := .reply ⟨reply.consolidation, body⟩ }) := by
    simp only [map_eq_pure_bind, bind_assoc, pure_bind]
  rw [responseDecode_fields h, Decoder.bind_of_ok (uint8Decode_cons _ _), responseBodyDecode,
    if_pos (replyHeader_flags _).1, ← hmonad, map_eq_pure_bind, map_eq_pure_bind, bind_assoc,
    bind_assoc, Decoder.bind_apply, replyDecode_cons]
  rfl

/-- A reply is read back as what is received of it, if its timestamp and its source information
have an id. -/
theorem responseDecode_reply (h : msg.Made) (hbody : msg.body = .reply reply)
    (hts : reply.body.put.timestamp.valid = true → 0 < idLen reply.body.put.timestamp.id)
    (hinfo : reply.body.put.sourceInfo.present = true →
      0 < idLen reply.body.put.sourceInfo.sourceId.zid)
    (hsized : reply.body.isPut = true → reply.body.put.Sized) :
    ∃ bytes, responseEncode msg = .ok (msg.header :: bytes) ∧
      responseDecode msg.header bytes = .ok (msg.received, []) := by
  obtain ⟨bytes, hencode, hdecode⟩ := responseDecode_start h hbody hts
  have hread := pushBodyDecode_fields hinfo hsized []
  rw [append_nil] at hread
  refine ⟨bytes, hencode, ?_⟩
  rw [hdecode, Decoder.bind_of_ok hread, Decoder.pure_apply, ResponseMessage.received, hbody]
  rfl

/-- A timestamp without an id is not sent. -/
theorem responseEncode_refused {msg : ResponseMessage} (h : msg.Made) {reply : MsgReply}
    (hbody : msg.body = .reply reply) (hvalid : reply.body.put.timestamp.valid = true)
    (hzero : idLen reply.body.put.timestamp.id = 0) :
    responseEncode msg = .error .messageZenohUnknown := by
  refine responseEncode_of_error h ?_
  rw [hbody, responseBodyEncode, replyEncode, pushBodyEncode, fieldEncode, hvalid, if_pos rfl,
    timestampEncode_of_zero hzero]
  rfl

/-- Source information without an id is sent, and cannot be read. -/
theorem responseDecode_refused (h : msg.Made) (hbody : msg.body = .reply reply)
    (hts : reply.body.put.timestamp.valid = true → 0 < idLen reply.body.put.timestamp.id)
    (hpresent : reply.body.put.sourceInfo.present = true)
    (hzero : idLen reply.body.put.sourceInfo.sourceId.zid = 0)
    (hsized : reply.body.isPut = true → reply.body.put.Sized) :
    ∃ bytes, responseEncode msg = .ok (msg.header :: bytes) ∧
      responseDecode msg.header bytes = .error .messageDeserializationFailed := by
  obtain ⟨bytes, hencode, hdecode⟩ := responseDecode_start h hbody hts
  have hread := pushBodyDecode_refused hpresent hzero hsized []
  rw [append_nil] at hread
  exact ⟨bytes, hencode, by rw [hdecode, Decoder.bind_of_error hread]⟩

/-- An error is read back. -/
theorem responseDecode_err (h : msg.Made) {err : MsgErr} (hbody : msg.body = .err err)
    (hinfo : err.extSourceInfo = .null) (hschema : err.encoding.schema.length < 2 ^ 64)
    (hpayload : err.payload.length < 2 ^ 64) :
    ∃ bytes, responseEncode msg = .ok (msg.header :: bytes) ∧
      responseDecode msg.header bytes = .ok (msg.received, []) := by
  have hencode : responseBodyEncode msg.body =
      .ok ((0x05 ||| flagIf err.encoding.check 0x40 ||| flagIf false 0x80) ::
        ((if err.encoding.check then encodingEncode err.encoding else []) ++
          sliceEncode err.payload)) := by
    have habsent : SourceInfo.null.present = false := by decide
    rw [hbody, responseBodyEncode, errEncode, hinfo, habsent]
    simp
  refine ⟨_, responseEncode_of_ok h hencode, ?_⟩
  have hread := errDecode_encode hinfo hschema hpayload []
  rw [append_nil] at hread
  have hmid := (errHeader_flags err.encoding.check false).1
  rw [responseDecode_fields h, Decoder.bind_of_ok (uint8Decode_cons _ _), responseBodyDecode,
    if_neg (by rw [hmid]; decide), if_pos hmid]
  have herr : (ResponseBody.err <$> errDecode
      (0x05 ||| flagIf err.encoding.check 0x40 ||| flagIf false 0x80))
      ((if err.encoding.check then encodingEncode err.encoding else []) ++
        sliceEncode err.payload) = .ok (.err err, []) := by
    rw [map_eq_pure_bind, Decoder.bind_of_ok hread]
    rfl
  rw [Decoder.bind_of_ok herr, Decoder.pure_apply, ResponseMessage.received, hbody]
  rfl

end ZenohPico.Session
