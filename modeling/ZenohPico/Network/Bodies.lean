import ZenohPico.Network.Fields

/-!
The bodies of network messages on the wire: pushes, queries, replies, errors and declarations.

A body is encoded behind a header, and decoded by the id in its header. `ReadBack` is what every
one of them satisfies; a body whose decoder is chosen among others is then read from its bytes
(`ReadBack.reads`).
-/

namespace ZenohPico.Network

open Protocol Transport Session List

/-! ### What is behind a header -/

/-- The bytes encoded are read back as `received`, and nothing of what follows them is. -/
def Reads {α : Type} (encoded : Except ZError (List UInt8)) (decode : Decoder α) (received : α) :
    Prop :=
  ∃ bytes, encoded = .ok bytes ∧ ∀ zbf, decode (bytes ++ zbf) = .ok (received, zbf)

/-- The bytes encoded start with a header of the id `id`, and those behind it are read back. -/
def ReadBack {α : Type} (encoded : Except ZError (List UInt8)) (id : UInt8)
    (decode : UInt8 → Decoder α) (received : α) : Prop :=
  ∃ header bytes, encoded = .ok (header :: bytes) ∧ mid header = id ∧
    ∀ zbf, decode header (bytes ++ zbf) = .ok (received, zbf)

section ReadBack

variable {α β : Type} {encoded : Except ZError (List UInt8)} {id : UInt8}
  {decode : UInt8 → Decoder α} {received : α}

theorem ReadBack.map (h : ReadBack encoded id decode received) (f : α → β) :
    ReadBack encoded id (fun header ↦ f <$> decode header) (f received) := by
  obtain ⟨header, bytes, hencode, hmid, hdecode⟩ := h
  exact ⟨header, bytes, hencode, hmid, fun zbf ↦ Decoder.map_of_ok (hdecode zbf) f⟩

/-- A decoder that goes by the id in the header -/
theorem ReadBack.reads (whole : Decoder α) (h : ReadBack encoded id decode received)
    (hwhole : ∀ header, mid header = id → ∀ zbf, whole (header :: zbf) = decode header zbf) :
    Reads encoded whole received := by
  obtain ⟨header, bytes, hencode, hmid, hdecode⟩ := h
  refine ⟨header :: bytes, hencode, fun zbf ↦ ?_⟩
  rw [cons_append, hwhole header hmid, hdecode]

end ReadBack

/-! ### Pushes, queries, replies and errors -/

/-- Source information that is there has an id. -/
def SourceInfoFormed (info : SourceInfo) : Prop :=
  info.present = true → 0 < idLen info.sourceId.zid

/-- A body whose timestamp and source information have ids, and whose members are slices -/
structure PushBodyFormed (pshb : PushBody) : Prop where
  timestamp : TimestampFormed pshb.put.timestamp
  sourceInfo : SourceInfoFormed pshb.put.sourceInfo
  sized : pshb.isPut = true → pshb.put.Sized

theorem pushBody_readBack {pshb : PushBody} (h : PushBodyFormed pshb) :
    ReadBack (pushBodyEncode pshb) (if pshb.isPut then 0x01 else 0x02) pushBodyDecode
      pshb.received :=
  ⟨pshb.header, pshb.fields, pushBodyEncode_eq h.timestamp, (bodyHeader_flags _ _ _ _).1,
    pushBodyDecode_fields h.sourceInfo h.sized⟩

/-- A query whose source information has an id -/
structure QueryFormed (msg : MsgQuery) : Prop where
  sized : msg.Sized
  extInfo : SourceInfoFormed msg.extInfo

theorem query_readBack {msg : MsgQuery} (h : QueryFormed msg) :
    ReadBack (.ok (queryEncode msg)) 0x03 queryDecode msg.received :=
  ⟨msg.header, msg.fields, by rw [queryEncode_eq, MsgQuery.fields], queryHeader_mid msg,
    queryDecode_received h.sized h.extInfo⟩

theorem reply_readBack {reply : MsgReply} (h : PushBodyFormed reply.body) :
    ReadBack (replyEncode reply) 0x04 replyDecode ⟨reply.consolidation, reply.body.received⟩ := by
  refine ⟨0x04 ||| flagIf reply.consolidation.isSome 0x20,
    reply.consolidation.toList ++ reply.body.header :: reply.body.fields, ?_,
    (replyHeader_flags _).1, fun zbf ↦ ?_⟩
  · rw [replyEncode, pushBodyEncode_eq h.timestamp]
    rfl
  · rw [append_assoc, cons_append, replyDecode_cons,
      Decoder.bind_of_ok (pushBodyDecode_fields h.sourceInfo h.sized zbf), Decoder.pure_apply]

/-- An error whose source information has an id, and whose members are slices -/
structure ErrFormed (err : MsgErr) : Prop where
  schema : err.encoding.schema.length < 2 ^ 64
  extSourceInfo : SourceInfoFormed err.extSourceInfo
  payload : err.payload.length < 2 ^ 64

/-- The extension with source information -/
def sourceInfoExt (info : SourceInfo) : MsgExt := ⟨0x41, .zbuf (sourceInfoEncode info)⟩

theorem validExt_sourceInfo (info : SourceInfo) : ValidExt (sourceInfoExt info) :=
  validExt_zbuf (by decide) (by decide) ((length_sourceInfoEncode_le info).trans_lt (by decide))

theorem errDecodeExt_sourceInfo {info : SourceInfo} (hpos : 0 < idLen info.sourceId.zid)
    (err : MsgErr) :
    errDecodeExt (sourceInfoExt info) err = .ok { err with extSourceInfo := info } := by
  have hread := sourceInfoDecode_encode hpos []
  have hid : extFullId 0x41 = 0x41 := by decide
  rw [append_nil] at hread
  rw [errDecodeExt, sourceInfoExt, if_pos hid, MsgExtBody.bytes, hread]
  rfl

theorem err_readBack {err : MsgErr} (h : ErrFormed err) :
    ReadBack (.ok (errEncode err)) 0x05 errDecode err := by
  obtain ⟨hmid, hen, hexts⟩ := errHeader_flags err.encoding.check err.extSourceInfo.present
  have hchain : (if err.extSourceInfo.present then
      0x41 :: sourceInfoEncodeExt err.extSourceInfo else []) =
        extChainEncode (optExt err.extSourceInfo.present (sourceInfoExt err.extSourceInfo)) := by
    rw [sourceInfoEncodeExt_eq, extChainEncode_optExt_last (validExt_sourceInfo _)]
    rfl
  have hfold : (optExt err.extSourceInfo.present (sourceInfoExt err.extSourceInfo)).foldlM
      (fun context ext ↦ errDecodeExt ext context) (⟨err.encoding, .null, []⟩ : MsgErr) =
        .ok ⟨err.encoding, err.extSourceInfo, []⟩ :=
    foldlM_optExt_last (fun hpresent ↦ errDecodeExt_sourceInfo (h.extSourceInfo hpresent) _)
      fun habsent ↦ by rw [SourceInfo.eq_null habsent]
  refine ⟨_, _, rfl, hmid, fun zbf ↦ ?_⟩
  rw [hchain, errDecode, hen, append_assoc, append_assoc,
    Decoder.bind_of_ok (encodingDecode_field h.schema _)]
  refine (Decoder.bind_of_ok (extsDecode_chain (by rw [hexts, optExt_ne_nil])
    (forall_mem_optExt.mpr fun _ ↦ validExt_sourceInfo _) hfold _) _).trans ?_
  rw [Decoder.bind_of_ok (sliceDecode_encode h.payload _), Decoder.pure_apply]

end ZenohPico.Network
