import ZenohPico.Session.ResponseCodec

/-!
The fields that carry an id (`src/protocol/codec/message.c`, `src/protocol/codec/network.c`):
timestamps, source information and the responder of a response.

The length of an id is that of the array without its trailing zeros. A timestamp carries it as a
plain length, and its encoder refuses an id of length zero. Source information and responders
carry the length minus one in four bits, which for an id of length zero is the fifteen of a full
one: the decoder looks for sixteen bytes that were not written. `ZidField.roundTrips_iff` says
for every field when it is read back.
-/

namespace ZenohPico.Session

open Protocol Transport List

/-! ### The fields -/

/-- A field with an id, in each of the ways it is written -/
inductive ZidField
  | timestamp (ts : Timestamp)
  | timestampExt (ts : Timestamp)
  | sourceInfo (info : SourceInfo)
  | sourceInfoExt (info : SourceInfo)
  | responder (id : EntityGlobalId)
deriving DecidableEq, Repr

/-- The responder is worth an extension. -/
def EntityGlobalId.present (id : EntityGlobalId) : Bool := idCheck id.zid || id.eid != 0

/-- What is written of a field. That of a responder is its whole extension in a response. -/
def ZidField.encode : ZidField → Except ZError (List UInt8)
  | .timestamp ts => timestampEncode ts
  | .timestampExt ts => timestampEncodeExt ts
  | .sourceInfo info => .ok (sourceInfoEncode info)
  | .sourceInfoExt info => .ok (sourceInfoEncodeExt info)
  | .responder id => fieldEncode id.present (.ok (0x43 :: responderEncodeExt id))

/-- The body of an extension is read from a buffer of its own. -/
def extBodyDecode {α : Type} (field : Decoder α) : Decoder α := do
  let body ← sliceDecode
  let (value, _) ← field body
  pure value

/-- The responder of a response of zeros, after the extension was read -/
def responderDecodeExt : Decoder EntityGlobalId := do
  let (extension, _) ← msgExtDecode
  let msg ← responseDecodeExt extension
    ⟨0, ⟨0, [], .session⟩, 5, .null, ⟨.ofBytes [], 0⟩, .err ⟨.null, .null, []⟩⟩
  pure msg.extResponder

/-- The decoder of a field. Whether there is a responder is known from the header before it. -/
def ZidField.decode : ZidField → Decoder ZidField
  | .timestamp _ => .timestamp <$> timestampDecode
  | .timestampExt _ => .timestampExt <$> extBodyDecode timestampDecode
  | .sourceInfo _ => .sourceInfo <$> sourceInfoDecode
  | .sourceInfoExt _ => .sourceInfoExt <$> extBodyDecode sourceInfoDecode
  | .responder id => .responder <$> fieldDecode id.present responderDecodeExt ⟨.ofBytes [], 0⟩

/-- The field with its id and its numbers as they were. A timestamp that was read is valid. -/
def ZidField.received : ZidField → ZidField
  | .timestamp ts => .timestamp { ts with valid := true }
  | .timestampExt ts => .timestampExt { ts with valid := true }
  | field => field

/-- If the field is encoded, then the bytes written are read back as the field, and nothing else
is consumed, whatever follows them. -/
def ZidField.RoundTrips (field : ZidField) : Prop :=
  ∀ bytes, field.encode = .ok bytes → ∀ zbf, field.decode (bytes ++ zbf) = .ok (field.received, zbf)

/-- The id of source information is not all zeros, and that of a responder only where its entity
id is zero too. -/
def ZidField.HasZid : ZidField → Prop
  | .timestamp _ => True
  | .timestampExt _ => True
  | .sourceInfo info => idCheck info.sourceId.zid = true
  | .sourceInfoExt info => idCheck info.sourceId.zid = true
  | .responder id => idCheck id.zid = true ∨ id.eid = 0

/-! ### Timestamps -/

theorem timestampEncode_eq_ok {ts : Timestamp} {bytes : List UInt8}
    (h : timestampEncode ts = .ok bytes) :
    bytes = zint64Encode ts.time ++ sliceEncode (ts.id.id.take (idLen ts.id)) := by
  unfold timestampEncode idEncodeAsSlice at h
  split_ifs at h
  · cases h
    rfl
  · cases h

theorem timestampDecode_bytes (ts : Timestamp) (zbf : List UInt8) :
    timestampDecode (zint64Encode ts.time ++ sliceEncode (ts.id.id.take (idLen ts.id)) ++ zbf) =
      .ok ({ ts with valid := true }, zbf) := by
  rw [timestampDecode, append_assoc, Decoder.bind_of_ok (zint64Decode_encode _ _),
    Decoder.bind_of_ok (idDecodeAsSlice_encode _ _), Decoder.pure_apply]

/-- A field in a buffer of its own -/
theorem extBodyDecode_of_ok {α : Type} {field : Decoder α} {body rest : List UInt8} {value : α}
    (hlen : body.length < 2 ^ 64) (hfield : field body = .ok (value, rest)) (zbf : List UInt8) :
    extBodyDecode field (sliceEncode body ++ zbf) = .ok (value, zbf) := by
  rw [extBodyDecode, Decoder.bind_of_ok (sliceDecode_encode hlen zbf), hfield]
  rfl

theorem extBodyDecode_of_error {α : Type} {field : Decoder α} {body : List UInt8} {e : ZError}
    (hlen : body.length < 2 ^ 64) (hfield : field body = .error e) (zbf : List UInt8) :
    extBodyDecode field (sliceEncode body ++ zbf) = .error e := by
  rw [extBodyDecode, Decoder.bind_of_ok (sliceDecode_encode hlen zbf), hfield]
  rfl

theorem timestampEncodeExt_eq_ok {ts : Timestamp} {bytes : List UInt8}
    (h : timestampEncodeExt ts = .ok bytes) :
    bytes = sliceEncode (zint64Encode ts.time ++ sliceEncode (ts.id.id.take (idLen ts.id))) := by
  have hle := idLen_le ts.id
  have hlen : (zint64Encode ts.time ++ sliceEncode (ts.id.id.take (idLen ts.id))).length =
      zintLen ts.time + 1 + idLen ts.id := by
    rw [length_append, length_zint64Encode, sliceEncode, length_take_idLen,
      zint64Encode_of_lt (by omega), length_append, length_singleton, length_take_idLen]
    omega
  unfold timestampEncodeExt at h
  cases hbody : timestampEncode ts with
  | error e =>
    rw [hbody] at h
    cases h
  | ok body =>
    rw [hbody] at h
    cases h
    rw [sliceEncode, hlen, ← timestampEncode_eq_ok hbody]

theorem roundTrips_timestamp (ts : Timestamp) : (ZidField.timestamp ts).RoundTrips := by
  intro bytes hbytes zbf
  rw [timestampEncode_eq_ok hbytes]
  exact Decoder.map_of_ok (timestampDecode_bytes ts zbf) _

theorem roundTrips_timestampExt (ts : Timestamp) : (ZidField.timestampExt ts).RoundTrips := by
  intro bytes hbytes zbf
  have hle := idLen_le ts.id
  have htime := length_zint64Encode_le ts.time
  have hlen : (zint64Encode ts.time ++ sliceEncode (ts.id.id.take (idLen ts.id))).length <
      2 ^ 64 := by
    rw [length_append, sliceEncode, length_take_idLen, zint64Encode_of_lt (by omega),
      length_append, length_singleton, length_take_idLen]
    omega
  have hread := timestampDecode_bytes ts []
  rw [append_nil] at hread
  rw [timestampEncodeExt_eq_ok hbytes]
  exact Decoder.map_of_ok (extBodyDecode_of_ok hlen hread zbf) _

/-! ### Source information -/

/-- Whoever reads source information takes its header, the id that the header announces and a
byte at least for each number. -/
theorem sourceInfoDecode_length {header : UInt8} {zbf rest : List UInt8} {info : SourceInfo}
    (h : sourceInfoDecode (header :: zbf) = .ok (info, rest)) :
    rest.length + ((header >>> 4) + 1).toNat + 2 ≤ zbf.length := by
  rw [sourceInfoDecode, Decoder.bind_of_ok (uint8Decode_cons _ _)] at h
  obtain ⟨zid, zbf₁, hzid, h⟩ := Decoder.exists_of_bind h
  obtain ⟨eid, zbf₂, heid, h⟩ := Decoder.exists_of_bind h
  obtain ⟨sourceSn, zbf₃, hsn, h⟩ := Decoder.exists_of_bind h
  cases h
  have hnumber {v : UInt32} {before after : List UInt8}
      (hv : zint32Decode before = .ok (v, after)) : after.length < before.length := by
    obtain ⟨buf, left, hbuf, hv⟩ := Decoder.exists_of_bind hv
    have hlt := zint64DecodeFrom_length hbuf
    split_ifs at hv
    · cases hv
    · cases hv
      exact hlt
  have h₂ := hnumber heid
  have h₃ := hnumber hsn
  simp only [readBytes] at hzid
  split_ifs at hzid
  cases hzid
  rw [length_drop] at h₂
  omega

/-- The sixteen bytes looked for are more than what was written. -/
theorem sourceInfoDecode_zero_ne {info : SourceInfo} (hzero : idLen info.sourceId.zid = 0)
    (zbf : List UInt8) : sourceInfoDecode (sourceInfoEncode info ++ zbf) ≠ .ok (info, zbf) := by
  intro h
  rw [sourceInfoEncode, cons_append] at h
  have hread := sourceInfoDecode_length h
  have hbyte := toNat_zidlenByte_of_zero hzero
  have heid := zintLen_le_five info.sourceId.eid
  have hsn := zintLen_le_five info.sourceSn
  rw [hbyte, hzero, take_zero, nil_append, length_append, length_append,
    length_zint64Encode, length_zint64Encode] at hread
  omega

theorem idLen_eq_zero {zid : ZenohId} (h : ¬ idCheck zid = true) : idLen zid = 0 :=
  Nat.eq_zero_of_not_pos fun hpos ↦ h (idLen_pos_iff.mp hpos)

theorem roundTrips_sourceInfo_iff (info : SourceInfo) :
    (ZidField.sourceInfo info).RoundTrips ↔ idCheck info.sourceId.zid = true := by
  constructor
  · intro h
    by_contra hcheck
    obtain ⟨info', hread, hvalue⟩ := Decoder.exists_of_map (h _ rfl [])
    cases hvalue
    exact sourceInfoDecode_zero_ne (idLen_eq_zero hcheck) [] hread
  · intro hcheck bytes hbytes zbf
    cases hbytes
    exact Decoder.map_of_ok (sourceInfoDecode_encode (idLen_pos_iff.mpr hcheck) zbf) _

theorem roundTrips_sourceInfoExt_iff (info : SourceInfo) :
    (ZidField.sourceInfoExt info).RoundTrips ↔ idCheck info.sourceId.zid = true := by
  have hlen : (sourceInfoEncode info).length < 2 ^ 64 :=
    (length_sourceInfoEncode_le info).trans_lt (by decide)
  constructor
  · intro h
    by_contra hcheck
    have hread := h _ rfl []
    rw [sourceInfoEncodeExt_eq, ZidField.decode, Decoder.map_of_error
      (extBodyDecode_of_error hlen (sourceInfoDecode_of_zero (idLen_eq_zero hcheck)) [])] at hread
    cases hread
  · intro hcheck bytes hbytes zbf
    cases hbytes
    have hread := sourceInfoDecode_encode (idLen_pos_iff.mpr hcheck) []
    rw [append_nil] at hread
    rw [sourceInfoEncodeExt_eq]
    exact Decoder.map_of_ok (extBodyDecode_of_ok hlen hread zbf) _

/-! ### Responders -/

/-- The extension of a responder, read without a look at what is in it -/
theorem msgExtDecode_responder (id : EntityGlobalId) (zbf : List UInt8) :
    msgExtDecode (0x43 :: responderEncodeExt id ++ zbf) =
      .ok ((⟨0x43, .zbuf (responderBody id)⟩, false), zbf) := by
  have hle := idLen_le id.zid
  have heid := zintLen_le_five id.eid
  have hlen : ∀ val, MsgExtBody.zbuf (responderBody id) = .zbuf val → val.length < 2 ^ 64 := by
    intro val hval
    cases hval
    rw [length_responderBody]
    omega
  have henc : (0x43 &&& 0x60 : UInt8) = 0x40 := by decide
  have hmore : (0x43 &&& 0x80 : UInt8) = 0 := by decide
  have hdecode := msgExtDecode_encode
    ⟨⟨0x43, .zbuf (responderBody id)⟩, henc, hmore, hlen⟩ false zbf
  have hheader : extFullId 0x43 ||| (if false = true then 0x80 else 0) = 0x43 := by decide
  rw [msgExtEncode, hheader] at hdecode
  rw [responderEncodeExt_eq]
  exact hdecode

theorem responderDecodeExt_of_ok {id : EntityGlobalId} (hcheck : idCheck id.zid = true)
    (zbf : List UInt8) :
    responderDecodeExt (0x43 :: responderEncodeExt id ++ zbf) = .ok (id, zbf) := by
  rw [responderDecodeExt, Decoder.bind_of_ok (msgExtDecode_responder id zbf)]
  dsimp only
  rw [responseDecodeExt_responder (idLen_pos_iff.mpr hcheck)]
  rfl

/-- Without an id, sixteen bytes of one are looked for in an extension of six at most. -/
theorem responderDecodeExt_of_zero {id : EntityGlobalId} (hzero : idLen id.zid = 0)
    (zbf : List UInt8) : responderDecodeExt (0x43 :: responderEncodeExt id ++ zbf) =
      .error .messageDeserializationFailed := by
  have heid := zintLen_le_five id.eid
  have hbyte := toNat_zidlenByte_of_zero hzero
  have hread : readBytes ((zidlenByte id.zid >>> 4) + 1).toNat
      (id.zid.id.take (idLen id.zid) ++ zint64Encode id.eid.toUInt64) =
        .error .messageDeserializationFailed := by
    refine readBytes_of_lt ?_
    rw [hbyte, hzero, take_zero, nil_append, length_zint64Encode]
    omega
  have hqos : ¬ (extFullId 0x43 = 0x21) := by decide
  have hts : ¬ (extFullId 0x43 = 0x42) := by decide
  have hid : extFullId 0x43 = 0x43 := by decide
  have hext (msg : ResponseMessage) : responseDecodeExt ⟨0x43, .zbuf (responderBody id)⟩ msg =
        .error .messageDeserializationFailed := by
    rw [responseDecodeExt, if_neg hqos, if_neg hts, if_pos hid, MsgExtBody.bytes, responderBody,
      uint8Decode_cons]
    simp only [bind, Except.bind, hread]
  rw [responderDecodeExt, Decoder.bind_of_ok (msgExtDecode_responder id zbf)]
  dsimp only
  rw [hext]
  rfl

theorem roundTrips_responder_iff (id : EntityGlobalId) :
    (ZidField.responder id).RoundTrips ↔ idCheck id.zid = true ∨ id.eid = 0 := by
  cases hpresent : id.present with
  | false =>
    -- no extension: what is read is the responder of a message of zeros
    simp only [EntityGlobalId.present, Bool.or_eq_false_iff, bne_eq_false_iff_eq] at hpresent
    have hzid : id.zid = .ofBytes [] := by simpa [idCheck] using hpresent.1
    refine iff_of_true (fun bytes hbytes zbf ↦ ?_) (.inr hpresent.2)
    obtain ⟨zid, eid⟩ := id
    obtain ⟨rfl, rfl⟩ : zid = .ofBytes [] ∧ eid = 0 := ⟨hzid, hpresent.2⟩
    cases hbytes
    rfl
  | true =>
    have hencode : (ZidField.responder id).encode = .ok (0x43 :: responderEncodeExt id) := by
      rw [ZidField.encode, hpresent]
      rfl
    have hdecode : (ZidField.responder id).decode = .responder <$> responderDecodeExt := by
      rw [ZidField.decode, hpresent]
      rfl
    constructor
    · intro h
      by_contra hcondition
      have hread := h _ hencode []
      rw [hdecode, Decoder.map_of_error (responderDecodeExt_of_zero
        (idLen_eq_zero fun hcheck ↦ hcondition (.inl hcheck)) [])] at hread
      cases hread
    · intro hcondition bytes hbytes zbf
      have hcheck : idCheck id.zid = true := by
        rcases hcondition with hcheck | heid
        · exact hcheck
        · simpa [EntityGlobalId.present, heid] using hpresent
      rw [hencode] at hbytes
      cases hbytes
      rw [hdecode]
      exact Decoder.map_of_ok (responderDecodeExt_of_ok hcheck zbf) _

/-! ### Every field -/

/-- A field is read back as it was exactly when it has an id, which timestamps need to be
encoded at all and responders may lack together with their entity id. -/
theorem ZidField.roundTrips_iff (field : ZidField) : field.RoundTrips ↔ field.HasZid := by
  cases field with
  | timestamp ts => exact iff_of_true (roundTrips_timestamp ts) trivial
  | timestampExt ts => exact iff_of_true (roundTrips_timestampExt ts) trivial
  | sourceInfo info => exact roundTrips_sourceInfo_iff info
  | sourceInfoExt info => exact roundTrips_sourceInfoExt_iff info
  | responder id => exact roundTrips_responder_iff id

/-- Source information and a responder that have an entity id and no zid: both are written, and
their bytes are refused. -/
theorem ZidField.not_roundTrips_zero : ¬ (ZidField.sourceInfoExt ⟨⟨.ofBytes [], 1⟩, 0⟩).RoundTrips ∧
      ¬ (ZidField.responder ⟨.ofBytes [], 1⟩).RoundTrips := by
  constructor
  · intro h
    have hzero : idCheck (ZenohId.ofBytes []) = true := (roundTrips_sourceInfoExt_iff _).mp h
    exact absurd hzero (by decide)
  · intro h
    have hzero : idCheck (ZenohId.ofBytes []) = true ∨ (1 : UInt32) = 0 :=
      (roundTrips_responder_iff _).mp h
    exact absurd hzero (by decide)

end ZenohPico.Session
