import ZenohPico.Network.Declarations

/-!
What is read back of a network message.

Each message is encoded behind a header with its id and decoded by that id. The receiver sees the
message up to what is not on the wire (`NetworkMessage.received`).
-/

namespace ZenohPico.Network

open Protocol Transport Session List

/-! ### Declarations -/

/-- A declaration with a timestamp that has an id -/
structure DeclareFormed (msg : DeclareMessage) : Prop where
  decl : DeclarationFormed msg.decl
  timestamp : TimestampFormed msg.extTimestamp

/-- A declaration, as the receiver sees it -/
def DeclareMessage.received (msg : DeclareMessage) : DeclareMessage :=
  { msg with decl := msg.decl.received, extTimestamp := msg.extTimestamp.received }

theorem declareHeader_flags (z n : Bool) :
    let header := 0x1E ||| flagIf z 0x80 ||| flagIf n 0x20
    mid header = 0x1E ∧ hasFlag header 0x20 = n ∧ hasFlag header 0x80 = z := by
  cases z <;> cases n <;> decide

/-- The id of an interest, where there is one -/
def interestIdBytes (interestId : Option UInt32) : List UInt8 :=
  (interestId.map fun id ↦ zint64Encode id.toUInt64).getD []

theorem interestIdDecode (interestId : Option UInt32) (zbf : List UInt8) :
    fieldDecode interestId.isSome (some <$> zint32Decode) none (interestIdBytes interestId ++ zbf) =
      .ok (interestId, zbf) := by
  cases interestId with
  | none => rfl
  | some id => exact Decoder.map_of_ok (zint32Decode_encode id zbf) some

theorem declare_readBack {msg : DeclareMessage} (h : DeclareFormed msg) :
    ReadBack (declareEncode msg) 0x1E declareDecode msg.received := by
  obtain ⟨hmid, hinterest, hexts⟩ := declareHeader_flags
    (decide (msg.extQos ≠ 5) || msg.extTimestamp.valid) msg.interestId.isSome
  obtain ⟨decl, hdecl, hread⟩ := declaration_reads h.decl
  obtain rfl := Except.ok.inj hdecl
  have hfold : (commonExts msg.extQos msg.extTimestamp).foldlM
      (fun context ext ↦ declareDecodeExt ext context)
      (⟨.declFinal, .null, 5, msg.interestId⟩ : DeclareMessage) =
        .ok ⟨.declFinal, msg.extTimestamp.received, msg.extQos, msg.interestId⟩ := by
    rw [declareDecodeExt]
    exact foldlM_common (⟨.declFinal, .null, msg.extQos, msg.interestId⟩ : DeclareMessage)
      (by rw [UInt8.toUInt8_toUInt64]) (fun hdefault ↦ by rw [hdefault]) rfl
  refine ⟨_, interestIdBytes msg.interestId ++
    (extChainEncode (commonExts msg.extQos msg.extTimestamp) ++ declarationEncode msg.decl),
    ?_, hmid, fun zbf ↦ ?_⟩
  · rw [declareEncode, timestampEncodeExt_formed h.timestamp, extChainEncode_common]
    simp only [bind, Except.bind, append_assoc, ite_timestampField]
    rfl
  · rw [declareDecode, hinterest, append_assoc, append_assoc,
      Decoder.bind_of_ok (interestIdDecode _ _),
      Decoder.bind_of_ok (extsDecode_chain (by rw [hexts, commonExts_ne_nil])
        (validExt_common _ _) hfold _), Decoder.bind_of_ok (hread zbf), Decoder.pure_apply]
    rfl

/-! ### Pushes -/

/-- A push whose quality of service is written as a byte with its top bit clear -/
structure PushFormed (msg : PushMessage) : Prop where
  key : KeyFormed msg.key
  timestamp : TimestampFormed msg.timestamp
  qos : msg.qos < 0x80
  body : PushBodyFormed msg.body

/-- A push, as the receiver sees it -/
def PushMessage.received (msg : PushMessage) : PushMessage :=
  ⟨receivedKey msg.key, msg.timestamp.received, msg.qos, msg.body.received⟩

/-- A quality of service does not pass the bound that a callback has for it. -/
theorem not_lt_toUInt64 {bound : UInt64} (h : 0xFF ≤ bound) (qos : UInt8) :
    ¬ bound < qos.toUInt64 := by
  have hbound : 255 ≤ bound.toNat := UInt64.le_iff_toNat_le.mp h
  have hlt := qos.toNat_lt
  rw [UInt64.lt_iff_toNat_lt, UInt8.toNat_toUInt64]
  omega

theorem push_readBack {msg : PushMessage} (h : PushFormed msg) :
    ReadBack (pushEncode msg) 0x1D pushDecode msg.received := by
  obtain ⟨hmid, hexts, hkey⟩ := keyHeader (show (0x1D : UInt8) &&& 0xE0 = 0 by decide) h.key
    (decide (msg.qos ≠ 5) || msg.timestamp.valid)
  obtain ⟨header, body, hbody, hbodyMid, hread⟩ := pushBody_readBack h.body
  have hfold : (commonExts msg.qos msg.timestamp).foldlM
      (fun context ext ↦ pushDecodeExt ext context)
      (⟨receivedKey msg.key, .null, 5, ⟨false, .null⟩⟩ : PushMessage) =
        .ok ⟨receivedKey msg.key, msg.timestamp.received, msg.qos, ⟨false, .null⟩⟩ := by
    rw [pushDecodeExt]
    exact foldlM_common (⟨receivedKey msg.key, .null, msg.qos, ⟨false, .null⟩⟩ : PushMessage)
      (by rw [if_neg (not_lt_toUInt64 (by decide) _), UInt8.toUInt8_toUInt64])
      (fun hdefault ↦ by rw [hdefault]) rfl
  refine ⟨_, wireexprEncode (hasSuffix msg.key) msg.key ++
    (extChainEncode (commonExts msg.qos msg.timestamp) ++ header :: body), ?_, hmid, fun zbf ↦ ?_⟩
  · rw [pushEncode, timestampEncodeExt_formed h.timestamp, extChainEncode_common, hbody,
      zint64Encode_qos h.qos]
    simp only [bind, Except.bind, append_assoc, ite_timestampField]
  · rw [pushDecode, append_assoc, append_assoc, cons_append, Decoder.bind_of_ok (hkey _),
      Decoder.bind_of_ok (extsDecode_chain (by rw [hexts, commonExts_ne_nil])
        (validExt_common _ _) hfold _), Decoder.bind_of_ok (uint8Decode_cons _ _),
      Decoder.bind_of_ok (hread zbf), Decoder.pure_apply]
    rfl

/-! ### Final responses -/

theorem responseFinal_readBack (msg : ResponseFinalMessage) :
    ReadBack (.ok (responseFinalEncode msg)) 0x1A responseFinalDecode msg := by
  refine ⟨_, _, rfl, by decide, fun zbf ↦ ?_⟩
  rw [responseFinalDecode, Decoder.bind_of_ok (zint64Decode_encode _ _),
    Decoder.bind_of_ok (extsDecode_none (by decide) _), Decoder.pure_apply]

/-! ### Interests -/

/-- An interest, as the receiver sees it. One that is neither current nor future is final, and
only its id is sent; the key is sent when the interest is restricted. -/
def InterestMessage.received (msg : InterestMessage) : InterestMessage :=
  if !hasFlag msg.flags 0x20 && !hasFlag msg.flags 0x40 then ⟨wireexprNull, msg.id, 0, false⟩
  else ⟨if hasFlag msg.flags 0x10 then receivedKey msg.keyexpr else wireexprNull, msg.id, msg.flags,
    false⟩

theorem interestHeader_flags (current future : Bool) :
    let header := 0x19 ||| flagIf current 0x20 ||| flagIf future 0x40
    mid header = 0x19 ∧ hasFlag header 0x20 = current ∧ hasFlag header 0x40 = future ∧
      hasFlag header 0x80 = false := by
  cases current <;> cases future <;> decide

/-- The flags of an interest beside those of its key and those in the header -/
theorem interestFlags (flags : UInt8) (m n : Bool) :
    let sent := (flags &&& 0x9F) ||| (flagIf m 0x40 ||| flagIf n 0x20)
    hasFlag (flags &&& 0x9F) 0x10 = hasFlag flags 0x10 ∧ hasFlag sent 0x10 = hasFlag flags 0x10 ∧
      hasFlag sent 0x20 = n ∧ hasFlag sent 0x40 = m ∧
      (flagIf (hasFlag flags 0x20) 0x20 ||| flagIf (hasFlag flags 0x40) 0x40) |||
        (sent &&& 0x9F) = flags := by
  have hall : ∀ (k : Fin 256) (m n : Bool),
      let flags := UInt8.ofNat k.val
      let sent := (flags &&& 0x9F) ||| (flagIf m 0x40 ||| flagIf n 0x20)
      hasFlag (flags &&& 0x9F) 0x10 = hasFlag flags 0x10 ∧
        hasFlag sent 0x10 = hasFlag flags 0x10 ∧ hasFlag sent 0x20 = n ∧ hasFlag sent 0x40 = m ∧
        (flagIf (hasFlag flags 0x20) 0x20 ||| flagIf (hasFlag flags 0x40) 0x40) |||
          (sent &&& 0x9F) = flags := by
    decide +kernel
  have h := hall ⟨flags.toNat, flags.toNat_lt⟩ m n
  rwa [UInt8.ofNat_toNat] at h

/-- A final interest -/
theorem interestBodyDecode_final {header : UInt8} (hexts : hasFlag header 0x80 = false)
    (headerFlags : UInt8) (id : UInt32) (zbf : List UInt8) :
    interestBodyDecode headerFlags true header (zint64Encode id.toUInt64 ++ zbf) =
      .ok (⟨wireexprNull, id, headerFlags, false⟩, zbf) := by
  rw [interestBodyDecode, Decoder.bind_of_ok (zint32Decode_encode _ _), if_pos rfl, pure_bind]
  exact Decoder.bind_of_ok (extsDecode_none hexts _) _

/-- An interest that is not final, behind its id: the flags and the key where it is restricted -/
theorem interestBodyDecode_open {header sent : UInt8} {received : WireExpr}
    {keyBytes : List UInt8} (hexts : hasFlag header 0x80 = false) (headerFlags : UInt8)
    (id : UInt32) (hkey : ∀ zbf, fieldDecode (hasFlag sent 0x10) (keyDecode sent) wireexprNull
      (keyBytes ++ zbf) = .ok (received, zbf)) (zbf : List UInt8) :
    interestBodyDecode headerFlags false header
        (zint64Encode id.toUInt64 ++ sent :: (keyBytes ++ zbf)) =
      .ok (⟨received, id, headerFlags ||| (sent &&& 0x9F), false⟩, zbf) := by
  rw [interestBodyDecode, Decoder.bind_of_ok (zint32Decode_encode _ _),
    if_neg Bool.false_ne_true, Decoder.bind_of_ok (uint8Decode_cons _ _),
    Decoder.bind_of_ok (hkey zbf), pure_bind]
  exact Decoder.bind_of_ok (extsDecode_none hexts _) _

theorem interest_readBack {msg : InterestMessage} (h : KeyFormed msg.keyexpr) :
    ReadBack (.ok (interestEncode msg)) 0x19 interestDecode msg.received := by
  obtain ⟨hmid, hcurrent, hfuture, hexts⟩ :=
    interestHeader_flags (hasFlag msg.flags 0x20) (hasFlag msg.flags 0x40)
  refine ⟨_, _, rfl, hmid, fun zbf ↦ ?_⟩
  rw [interestDecode, hcurrent, hfuture, interestBodyEncode, append_assoc, InterestMessage.received]
  cases hfinal : !hasFlag msg.flags 0x20 && !hasFlag msg.flags 0x40 with
  | true =>
    obtain ⟨hnotCurrent, hnotFuture⟩ : hasFlag msg.flags 0x20 = false ∧
        hasFlag msg.flags 0x40 = false := by simpa using hfinal
    have hnone : flagIf (hasFlag msg.flags 0x20) 0x20 ||| flagIf (hasFlag msg.flags 0x40) 0x40 =
        0 := by
      rw [hnotCurrent, hnotFuture]
      decide
    rw [if_pos rfl, if_pos rfl, nil_append, hnone]
    exact interestBodyDecode_final hexts _ _ _
  | false =>
    rw [if_neg Bool.false_ne_true, if_neg Bool.false_ne_true]
    dsimp only
    cases hrestricted : hasFlag msg.flags 0x10 with
    | true =>
      obtain ⟨hcut, h10, h20, h40, hflags⟩ :=
        interestFlags msg.flags (isLocal msg.keyexpr) (hasSuffix msg.keyexpr)
      have hread := interestBodyDecode_open hexts
        (flagIf (hasFlag msg.flags 0x20) 0x20 ||| flagIf (hasFlag msg.flags 0x40) 0x40) msg.id
        (fun zbf ↦ by
          rw [h10, hrestricted, fieldDecode, if_pos rfl]
          exact keyDecode_encode h h20 h40 zbf) zbf
      rw [if_pos (hcut.trans hrestricted), if_pos rfl, cons_append]
      rw [hflags] at hread
      exact hread
    | false =>
      obtain ⟨hcut, h10, -, -, hflags⟩ := interestFlags msg.flags false false
      have hsame : (msg.flags &&& 0x9F) ||| (flagIf false 0x40 ||| flagIf false 0x20) =
          msg.flags &&& 0x9F := UInt8.or_zero
      rw [hsame] at h10 hflags
      have hread := @interestBodyDecode_open _ _ _ [] hexts
        (flagIf (hasFlag msg.flags 0x20) 0x20 ||| flagIf (hasFlag msg.flags 0x40) 0x40) msg.id
        (fun zbf ↦ by
          rw [h10, hrestricted, fieldDecode, if_neg Bool.false_ne_true, Decoder.pure_apply]
          rfl) zbf
      rw [if_neg (by rw [hcut, hrestricted]; exact Bool.false_ne_true), if_neg Bool.false_ne_true]
      rw [hflags] at hread
      exact hread

/-! ### OAM -/

/-- An OAM message whose quality of service is written as a byte with its top bit clear -/
structure OamFormed (msg : OamMessage) : Prop where
  timestamp : TimestampFormed msg.extTimestamp
  qos : msg.extQos < 0x80
  body : ∀ val, msg.body = .zbuf val → val.length < 2 ^ 64

/-- An OAM message, as the receiver sees it -/
def OamMessage.received (msg : OamMessage) : OamMessage :=
  { msg with extTimestamp := msg.extTimestamp.received }

theorem oamHeader_flags (z : Bool) (body : MsgExtBody) :
    let header := 0x1F ||| flagIf z 0x80 ||| body.enc
    mid header = 0x1F ∧ hasFlag header 0x80 = z ∧ header &&& 0x60 = body.enc := by
  cases z <;> cases body <;> simp only [MsgExtBody.enc] <;> decide

theorem oamBodyDecode_encode {body : MsgExtBody}
    (h : ∀ val, body = .zbuf val → val.length < 2 ^ 64) (zbf : List UInt8) :
    oamBodyDecode body.enc (msgExtBodyEncode body ++ zbf) = .ok (body, zbf) := by
  cases body with
  | unit => rfl
  | zint val => exact Decoder.map_of_ok (zint64Decode_encode val zbf) MsgExtBody.zint
  | zbuf val => exact Decoder.map_of_ok (sliceDecode_encode (h val rfl) zbf) MsgExtBody.zbuf

theorem oam_readBack {msg : OamMessage} (h : OamFormed msg) :
    ReadBack (oamEncode msg) 0x1F oamDecode msg.received := by
  obtain ⟨hmid, hexts, henc⟩ :=
    oamHeader_flags (decide (msg.extQos ≠ 5) || msg.extTimestamp.valid) msg.body
  have hfold : (commonExts msg.extQos msg.extTimestamp).foldlM
      (fun context ext ↦ oamDecodeExt ext context) (⟨msg.id, .null, 5, .unit⟩ : OamMessage) =
        .ok ⟨msg.id, msg.extTimestamp.received, msg.extQos, .unit⟩ := by
    rw [oamDecodeExt]
    exact foldlM_common (⟨msg.id, .null, msg.extQos, .unit⟩ : OamMessage)
      (by rw [UInt8.toUInt8_toUInt64]) (fun hdefault ↦ by rw [hdefault]) rfl
  refine ⟨_, zint64Encode msg.id.toUInt64 ++
    (extChainEncode (commonExts msg.extQos msg.extTimestamp) ++ msgExtBodyEncode msg.body), ?_,
    hmid, fun zbf ↦ ?_⟩
  · rw [oamEncode, timestampEncodeExt_formed h.timestamp, extChainEncode_common,
      zint64Encode_qos h.qos]
    simp only [bind, Except.bind, append_assoc, ite_timestampField]
  · rw [oamDecode, henc, append_assoc, append_assoc, Decoder.bind_of_ok (zint16Decode_encode _ _),
      Decoder.bind_of_ok (extsDecode_chain (by rw [hexts, commonExts_ne_nil])
        (validExt_common _ _) hfold _), Decoder.bind_of_ok (oamBodyDecode_encode h.body zbf),
      Decoder.pure_apply]
    rfl

/-! ### Requests -/

/-- The body of a request, whose parts have their ids and sizes -/
def RequestBodyFormed : RequestBody → Prop
  | .query query => QueryFormed query
  | .put put => PushBodyFormed ⟨true, put⟩
  | .del del => PushBodyFormed ⟨false, del.inUnion⟩

/-- A request with a timestamp that has an id -/
structure RequestFormed (msg : RequestMessage) : Prop where
  key : KeyFormed msg.key
  timestamp : TimestampFormed msg.extTimestamp
  body : RequestBodyFormed msg.body

/-- The body of a request, as the receiver sees it -/
def RequestBody.received : RequestBody → RequestBody
  | .query msg => .query msg.received
  | .put msg => .put (PushBody.received ⟨true, msg⟩).put
  | .del msg => .del ⟨msg.timestamp.received, msg.sourceInfo, []⟩

/-- A request, as the receiver sees it -/
def RequestMessage.received (msg : RequestMessage) : RequestMessage :=
  { msg with
    key := receivedKey msg.key
    extTimestamp := msg.extTimestamp.received
    body := msg.body.received }

theorem requestBody_reads {body : RequestBody} (h : RequestBodyFormed body) :
    Reads (requestBodyEncode body) (uint8Decode >>= requestBodyDecode) body.received := by
  have hwhole (header : UInt8) (zbf : List UInt8) :
      (uint8Decode >>= requestBodyDecode) (header :: zbf) = requestBodyDecode header zbf :=
    Decoder.bind_of_ok (uint8Decode_cons header zbf) _
  cases body with
  | query msg =>
    have hread := ((query_readBack h).map RequestBody.query).reads
      (uint8Decode >>= requestBodyDecode) fun header hmid zbf ↦ by
        rw [hwhole, requestBodyDecode, if_pos hmid]
    exact hread
  | put msg =>
    have hread := ((pushBody_readBack h).map fun body ↦ RequestBody.put body.put).reads
      (uint8Decode >>= requestBodyDecode) fun header hmid zbf ↦ by
        have hput : mid header = 0x01 := hmid
        have hquery : ¬ mid header = 0x03 := by rw [hput]; decide
        rw [hwhole, requestBodyDecode, if_neg hquery, if_pos hput]
    exact hread
  | del msg =>
    have hread := ((pushBody_readBack h).map fun body ↦
      RequestBody.del (.ofUnion body.put)).reads
      (uint8Decode >>= requestBodyDecode) fun header hmid zbf ↦ by
        have hdel : mid header = 0x02 := hmid
        have hquery : ¬ mid header = 0x03 := by rw [hdel]; decide
        have hput : ¬ mid header = 0x01 := by rw [hdel]; decide
        rw [hwhole, requestBodyDecode, if_neg hquery, if_neg hput, if_pos hdel]
    exact hread

/-- The extension with the target of a query -/
def targetExt (target : QueryTarget) : MsgExt := ⟨0x34, .zint target.toUInt64⟩

/-- The extension with the budget of a request -/
def budgetExt (budget : UInt32) : MsgExt := ⟨0x25, .zint budget.toUInt64⟩

/-- The extension with the time-out of a request -/
def timeoutExt (timeoutMs : UInt64) : MsgExt := ⟨0x26, .zint timeoutMs⟩

/-- The extensions of a request, in the order of the encoder -/
def RequestMessage.exts (msg : RequestMessage) : List MsgExt :=
  optExt (msg.extQos ≠ 5) (qosExt msg.extQos) ++
    (optExt msg.extTimestamp.valid (timestampExt msg.extTimestamp) ++
    (optExt (msg.extTarget ≠ .bestMatching) (targetExt msg.extTarget) ++
    (optExt (msg.extBudget ≠ 0) (budgetExt msg.extBudget) ++
    optExt (msg.extTimeoutMs ≠ 0) (timeoutExt msg.extTimeoutMs))))

theorem validExt_target (target : QueryTarget) : ValidExt (targetExt target) :=
  validExt_zint (by decide) (by decide) _

theorem validExt_budget (budget : UInt32) : ValidExt (budgetExt budget) :=
  validExt_zint (by decide) (by decide) _

theorem validExt_timeout (timeoutMs : UInt64) : ValidExt (timeoutExt timeoutMs) :=
  validExt_zint (by decide) (by decide) _

theorem validExt_request (msg : RequestMessage) : ∀ ext ∈ msg.exts, ValidExt ext := by
  simp only [RequestMessage.exts, forall_mem_append, forall_mem_optExt]
  exact ⟨fun _ ↦ validExt_qos _, fun _ ↦ validExt_timestamp _, fun _ ↦ validExt_target _,
    fun _ ↦ validExt_budget _, fun _ ↦ validExt_timeout _⟩

theorem requestDecodeExt_qos (qos : UInt8) (msg : RequestMessage) :
    requestDecodeExt (qosExt qos) msg = .ok { msg with extQos := qos } := by
  rw [requestDecodeExt, commonDecodeExt_qos, if_neg (not_lt_toUInt64 (by decide) qos),
    UInt8.toUInt8_toUInt64]

theorem requestDecodeExt_timestamp {ts : Timestamp} (h : ts.valid = true) (msg : RequestMessage) :
    requestDecodeExt (timestampExt ts) msg = .ok { msg with extTimestamp := ts.received } := by
  rw [requestDecodeExt, commonDecodeExt_timestamp h]

theorem requestDecodeExt_target (target : QueryTarget) (msg : RequestMessage) :
    requestDecodeExt (targetExt target) msg = .ok { msg with extTarget := target } := by
  have hqos : ¬ extFullId 0x34 = 0x21 := by decide
  have hts : ¬ extFullId 0x34 = 0x42 := by decide
  have hid : extFullId 0x34 = 0x34 := by decide
  rw [requestDecodeExt, targetExt, commonDecodeExt_other hqos hts, if_pos hid, MsgExtBody.val]
  cases target <;> rfl

theorem requestDecodeExt_budget (budget : UInt32) (msg : RequestMessage) :
    requestDecodeExt (budgetExt budget) msg = .ok { msg with extBudget := budget } := by
  have hqos : ¬ extFullId 0x25 = 0x21 := by decide
  have hts : ¬ extFullId 0x25 = 0x42 := by decide
  have htarget : ¬ extFullId 0x25 = 0x34 := by decide
  have hid : extFullId 0x25 = 0x25 := by decide
  rw [requestDecodeExt, budgetExt, commonDecodeExt_other hqos hts, if_neg htarget,
    if_pos hid, MsgExtBody.val]
  simp

theorem requestDecodeExt_timeout (timeoutMs : UInt64) (msg : RequestMessage) :
    requestDecodeExt (timeoutExt timeoutMs) msg = .ok { msg with extTimeoutMs := timeoutMs } := by
  have hqos : ¬ extFullId 0x26 = 0x21 := by decide
  have hts : ¬ extFullId 0x26 = 0x42 := by decide
  have htarget : ¬ extFullId 0x26 = 0x34 := by decide
  have hbudget : ¬ extFullId 0x26 = 0x25 := by decide
  have hid : extFullId 0x26 = 0x26 := by decide
  rw [requestDecodeExt, timeoutExt, commonDecodeExt_other hqos hts, if_neg htarget,
    if_neg hbudget, if_pos hid, MsgExtBody.val]

/-- The extensions are read into a request that has none of them yet. -/
theorem foldlM_request (msg : RequestMessage) {start : RequestMessage} (hqos : start.extQos = 5)
    (hts : start.extTimestamp = .null) (htarget : start.extTarget = .bestMatching)
    (hbudget : start.extBudget = 0) (htimeout : start.extTimeoutMs = 0) :
    msg.exts.foldlM (fun context ext ↦ requestDecodeExt ext context) start = .ok { start with
        extQos := msg.extQos
        extTimestamp := msg.extTimestamp.received
        extTarget := msg.extTarget
        extBudget := msg.extBudget
        extTimeoutMs := msg.extTimeoutMs } := by
  obtain ⟨rid, key, ts, qos, target, budget, timeoutMs, body⟩ := start
  subst hqos hts htarget hbudget htimeout
  rw [RequestMessage.exts, foldlM_optExt (fun _ ↦ requestDecodeExt_qos _ _) fun h ↦ by
      rw [show msg.extQos = 5 by simpa using h],
    foldlM_optExt (fun h ↦ requestDecodeExt_timestamp h _) fun h ↦ by
      rw [timestamp_received_of_invalid h],
    foldlM_optExt (fun _ ↦ requestDecodeExt_target _ _) fun h ↦ by
      rw [show msg.extTarget = .bestMatching by simpa using h],
    foldlM_optExt (fun _ ↦ requestDecodeExt_budget _ _) fun h ↦ by
      rw [show msg.extBudget = 0 by simpa using h]]
  exact foldlM_optExt_last (fun _ ↦ requestDecodeExt_timeout _ _) fun h ↦ by
    rw [show msg.extTimeoutMs = 0 by simpa using h]

theorem requestExts_ne_nil (msg : RequestMessage) : decide (msg.exts ≠ []) =
    (decide (msg.extQos ≠ 5) || (msg.extTimestamp.valid ||
      (decide (msg.extTarget ≠ .bestMatching) ||
      (decide (msg.extBudget ≠ 0) || decide (msg.extTimeoutMs ≠ 0))))) := by
  rw [RequestMessage.exts]
  simp only [optExt_append_ne_nil, optExt_ne_nil]

theorem request_readBack {msg : RequestMessage} (h : RequestFormed msg) :
    ReadBack (requestEncode msg) 0x1C requestDecode msg.received := by
  obtain ⟨hmid, hexts, hkey⟩ := keyHeader (show (0x1C : UInt8) &&& 0xE0 = 0 by decide) h.key
    (decide (msg.exts ≠ []))
  obtain ⟨body, hbody, hread⟩ := requestBody_reads h.body
  have hfold := @foldlM_request msg ⟨msg.rid, receivedKey msg.key, .null, 5, .bestMatching, 0, 0,
    .query ⟨[], false, none, .null, ⟨[], .null⟩, []⟩⟩ rfl rfl rfl rfl rfl
  refine ⟨_, zint64Encode msg.rid ++ (wireexprEncode (hasSuffix msg.key) msg.key ++
    (extChainEncode msg.exts ++ body)), ?_, hmid, fun zbf ↦ ?_⟩
  · rw [requestEncode, timestampEncodeExt_formed h.timestamp, hbody, requestExts_ne_nil,
      RequestMessage.exts, extChainEncode_optExt (validExt_qos _),
      extChainEncode_optExt (validExt_timestamp _), extChainEncode_optExt (validExt_target _),
      extChainEncode_optExt (validExt_budget _), extChainEncode_optExt_last (validExt_timeout _)]
    simp only [bind, Except.bind, optExt_append_ne_nil, optExt_ne_nil, append_assoc,
      decide_eq_true_eq, ite_timestampField, Bool.or_assoc]
    rfl
  · have hchain := extsDecode_chain hexts (validExt_request msg) hfold (body ++ zbf)
    have hrest (msg : RequestMessage) : (uint8Decode >>= fun zheader ↦ requestBodyDecode zheader >>=
        fun body ↦ pure { msg with body }) =
        ((uint8Decode >>= requestBodyDecode) >>= fun body ↦ pure { msg with body }) :=
      (bind_assoc _ _ _).symm
    rw [requestDecode, append_assoc, append_assoc, append_assoc,
      Decoder.bind_of_ok (zint64Decode_encode _ _), Decoder.bind_of_ok (hkey _),
      Decoder.bind_of_ok hchain, hrest, Decoder.bind_of_ok (hread zbf), Decoder.pure_apply]
    rfl

/-! ### Responses -/

/-- The body of a response, whose parts have their ids and sizes -/
def ResponseBodyFormed : ResponseBody → Prop
  | .reply reply => PushBodyFormed reply.body
  | .err err => ErrFormed err

/-- The responder is there. -/
def hasResponder (responder : EntityGlobalId) : Bool := idCheck responder.zid || responder.eid != 0

/-- A response with a timestamp and a responder that have ids -/
structure ResponseFormed (msg : ResponseMessage) : Prop where
  key : KeyFormed msg.key
  timestamp : TimestampFormed msg.extTimestamp
  responder : hasResponder msg.extResponder = true → 0 < idLen msg.extResponder.zid
  body : ResponseBodyFormed msg.body

/-- A response, as the receiver sees it -/
def receivedResponse (msg : ResponseMessage) : ResponseMessage :=
  { msg with
    key := receivedKey msg.key
    extTimestamp := msg.extTimestamp.received
    body := msg.body.received }

theorem responseBody_reads {body : ResponseBody} (h : ResponseBodyFormed body) :
    Reads (responseBodyEncode body) (uint8Decode >>= responseBodyDecode) body.received := by
  have hwhole (header : UInt8) (zbf : List UInt8) :
      (uint8Decode >>= responseBodyDecode) (header :: zbf) = responseBodyDecode header zbf :=
    Decoder.bind_of_ok (uint8Decode_cons header zbf) _
  cases body with
  | reply reply =>
    have hread := ((reply_readBack h).map ResponseBody.reply).reads
      (uint8Decode >>= responseBodyDecode) fun header hmid zbf ↦ by
        rw [hwhole, responseBodyDecode, if_pos hmid]
    exact hread
  | err err =>
    have hread := ((err_readBack h).map ResponseBody.err).reads
      (uint8Decode >>= responseBodyDecode) fun header hmid zbf ↦ by
        have hreply : ¬ mid header = 0x04 := by rw [hmid]; decide
        rw [hwhole, responseBodyDecode, if_neg hreply, if_pos hmid]
    exact hread

/-- The extension with the responder -/
def responderExt (responder : EntityGlobalId) : MsgExt := ⟨0x43, .zbuf (responderBody responder)⟩

theorem validExt_responder (responder : EntityGlobalId) : ValidExt (responderExt responder) := by
  refine validExt_zbuf (by decide) (by decide) ?_
  have hzid := idLen_le responder.zid
  have heid := zintLen_le_five responder.eid
  rw [length_responderBody]
  omega

/-- The extensions of a response -/
def responseExts (msg : ResponseMessage) : List MsgExt :=
  optExt (msg.extQos ≠ 5) (qosExt msg.extQos) ++
    (optExt msg.extTimestamp.valid (timestampExt msg.extTimestamp) ++
    optExt (hasResponder msg.extResponder) (responderExt msg.extResponder))

theorem validExt_response (msg : ResponseMessage) : ∀ ext ∈ responseExts msg, ValidExt ext := by
  simp only [responseExts, forall_mem_append, forall_mem_optExt]
  exact ⟨fun _ ↦ validExt_qos _, fun _ ↦ validExt_timestamp _, fun _ ↦ validExt_responder _⟩

theorem responseExts_ne_nil (msg : ResponseMessage) : decide (responseExts msg ≠ []) =
    (decide (msg.extQos ≠ 5) || (msg.extTimestamp.valid || hasResponder msg.extResponder)) := by
  rw [responseExts]
  simp only [optExt_append_ne_nil, optExt_ne_nil]

theorem responseDecodeExt_timestamp {ts : Timestamp} (h : ts.valid = true) (msg : ResponseMessage) :
    responseDecodeExt (timestampExt ts) msg = .ok { msg with extTimestamp := ts.received } := by
  have hqos : ¬ extFullId 0x42 = 0x21 := by decide
  have hid : extFullId 0x42 = 0x42 := by decide
  rw [responseDecodeExt, timestampExt, if_neg hqos, if_pos hid, MsgExtBody.bytes,
    timestampDecode_ext h]
  rfl

/-- A responder that is not there is one of zeros. -/
theorem eq_of_not_hasResponder {responder : EntityGlobalId} (h : hasResponder responder = false) :
    responder = ⟨.ofBytes [], 0⟩ := by
  obtain ⟨zid, eid⟩ := responder
  obtain ⟨hzid, heid⟩ := Bool.or_eq_false_iff.mp h
  have hzero : zid = .ofBytes [] := by simpa [idCheck] using hzid
  have hnone : eid = 0 := by simpa using heid
  rw [hzero, hnone]

theorem foldlM_response {msg start : ResponseMessage} (h : ResponseFormed msg)
    (hqos : start.extQos = 5) (hts : start.extTimestamp = .null)
    (hresponder : start.extResponder = ⟨.ofBytes [], 0⟩) :
    (responseExts msg).foldlM (fun context ext ↦ responseDecodeExt ext context) start =
      .ok { start with
        extQos := msg.extQos
        extTimestamp := msg.extTimestamp.received
        extResponder := msg.extResponder } := by
  obtain ⟨requestId, key, qos, ts, responder, body⟩ := start
  subst hqos hts hresponder
  have hqos (start : ResponseMessage) : responseDecodeExt (qosExt msg.extQos) start =
      .ok { start with extQos := msg.extQos } := responseDecodeExt_qos _ _
  rw [responseExts, foldlM_optExt (fun _ ↦ hqos _) fun h ↦ by
      rw [show msg.extQos = 5 by simpa using h],
    foldlM_optExt (fun h ↦ responseDecodeExt_timestamp h _) fun h ↦ by
      rw [timestamp_received_of_invalid h]]
  exact foldlM_optExt_last (fun hthere ↦ responseDecodeExt_responder (h.responder hthere) _)
    fun habsent ↦ by rw [eq_of_not_hasResponder habsent]

theorem response_readBack {msg : ResponseMessage} (h : ResponseFormed msg) :
    ReadBack (responseEncode msg) 0x1B responseDecode (receivedResponse msg) := by
  obtain ⟨hmid, hlocal, hsuffix, hexts⟩ := responseHeader_flags (isLocal msg.key)
    (hasSuffix msg.key) (decide (responseExts msg ≠ []))
  obtain ⟨body, hbody, hread⟩ := responseBody_reads h.body
  refine ⟨_, zint64Encode msg.requestId ++ (wireexprEncode (hasSuffix msg.key) msg.key ++
    (extChainEncode (responseExts msg) ++ body)), ?_, hmid, fun zbf ↦ ?_⟩
  · rw [responseEncode, timestampEncodeExt_formed h.timestamp, hbody, responseExts_ne_nil,
      responseExts, extChainEncode_optExt (validExt_qos _),
      extChainEncode_optExt (validExt_timestamp _),
      extChainEncode_optExt_last (validExt_responder _), responderEncodeExt_eq]
    simp only [bind, Except.bind, optExt_append_ne_nil, optExt_ne_nil, append_assoc,
      decide_eq_true_eq, ite_timestampField, Bool.or_assoc, wireexprEncode, hasSuffix]
    rfl
  · have hfold := @foldlM_response msg ⟨msg.requestId, receivedKey msg.key, 5, .null,
      ⟨.ofBytes [], 0⟩, .err ⟨.null, .null, []⟩⟩ h rfl rfl rfl
    have hchain := extsDecode_chain hexts (validExt_response msg) hfold (body ++ zbf)
    have hrest (msg : ResponseMessage) : (uint8Decode >>= fun innerHeader ↦
        responseBodyDecode innerHeader >>= fun body ↦ pure { msg with body }) =
        ((uint8Decode >>= responseBodyDecode) >>= fun body ↦ pure { msg with body }) :=
      (bind_assoc _ _ _).symm
    have hkey := keyDecode_encode h.key hsuffix hlocal (extChainEncode (responseExts msg) ++
      (body ++ zbf))
    rw [responseDecode, append_assoc, append_assoc, append_assoc,
      Decoder.bind_of_ok (zint64Decode_encode _ _)]
    rw [keyDecode] at hkey
    rw [Decoder.bind_of_ok hkey]
    rw [extsDecode] at hchain
    rw [Decoder.bind_of_ok hchain, hrest, Decoder.bind_of_ok (hread zbf), Decoder.pure_apply]
    rfl

/-! ### All messages -/

/-- A network message whose ids are there where they are written, whose parts have the sizes of
their codecs, and whose quality of service, where it is written as a byte, has its top bit clear -/
def NetworkMessageFormed : NetworkMessage → Prop
  | .declare msg => DeclareFormed msg
  | .push msg => PushFormed msg
  | .request msg => RequestFormed msg
  | .response msg => ResponseFormed msg
  | .responseFinal _ => True
  | .interest msg => KeyFormed msg.keyexpr
  | .oam msg => OamFormed msg

/-- A network message, as the receiver sees it -/
def NetworkMessage.received : NetworkMessage → NetworkMessage
  | .declare msg => .declare msg.received
  | .push msg => .push msg.received
  | .request msg => .request msg.received
  | .response msg => .response (receivedResponse msg)
  | .responseFinal msg => .responseFinal msg
  | .interest msg => .interest msg.received
  | .oam msg => .oam msg.received

theorem networkMessage_reads {msg : NetworkMessage} (h : NetworkMessageFormed msg) :
    Reads (networkMessageEncode msg) networkMessageDecode msg.received := by
  have hwhole (header : UInt8) (zbf : List UInt8) : networkMessageDecode (header :: zbf) = _ :=
    Decoder.bind_of_ok (uint8Decode_cons header zbf) _
  cases msg with
  | declare msg =>
    refine ((declare_readBack h).map NetworkMessage.declare).reads _ fun header hmid zbf ↦ ?_
    simp [hwhole, hmid]
  | push msg =>
    refine ((push_readBack h).map NetworkMessage.push).reads _ fun header hmid zbf ↦ ?_
    simp [hwhole, hmid]
  | request msg =>
    refine ((request_readBack h).map NetworkMessage.request).reads _ fun header hmid zbf ↦ ?_
    simp [hwhole, hmid]
  | response msg =>
    refine ((response_readBack h).map NetworkMessage.response).reads _ fun header hmid zbf ↦ ?_
    simp [hwhole, hmid]
  | responseFinal msg =>
    refine ((responseFinal_readBack msg).map NetworkMessage.responseFinal).reads _
      fun header hmid zbf ↦ ?_
    simp [hwhole, hmid]
  | interest msg =>
    refine ((interest_readBack h).map NetworkMessage.interest).reads _ fun header hmid zbf ↦ ?_
    simp [hwhole, hmid]
  | oam msg =>
    refine ((oam_readBack h).map NetworkMessage.oam).reads _ fun header hmid zbf ↦ ?_
    simp [hwhole, hmid]

/-- What is encoded of a network message is read back, and nothing behind it: each field is the
one that was sent, as the receiver sees it. -/
theorem networkMessage_roundTrip {msg : NetworkMessage} (h : NetworkMessageFormed msg) :
    ∃ bytes, networkMessageEncode msg = .ok bytes ∧
      ∀ zbf, networkMessageDecode (bytes ++ zbf) = .ok (msg.received, zbf) :=
  networkMessage_reads h

/-- A push of one byte with another quality of service than the default one -/
theorem networkMessage_roundTrip_push : ∃ bytes,
    networkMessageEncode (.push ⟨⟨3, [0x61], .session⟩, .null, 7, ⟨true, { MsgPut.null with
      payload := [1] }⟩⟩) = .ok bytes ∧ ∀ zbf, networkMessageDecode (bytes ++ zbf) =
        .ok (.push ⟨⟨3, [0x61], .peer⟩, .null, 7, ⟨true, { MsgPut.null with payload := [1] }⟩⟩,
          zbf) := by
  refine @networkMessage_roundTrip (.push ⟨⟨3, [0x61], .session⟩, .null, 7, ⟨true,
    { MsgPut.null with payload := [1] }⟩⟩) ⟨?_, fun h ↦ ?_, by decide, fun h ↦ ?_, fun h ↦ ?_,
      fun _ ↦ ⟨?_, ?_, ?_⟩⟩
  · exact (by decide : 1 < 2 ^ 64)
  · exact absurd h Bool.false_ne_true
  · exact absurd h Bool.false_ne_true
  · exact absurd h (by decide)
  · exact (by decide : 1 < 2 ^ 64)
  · exact (by decide : 0 < 2 ^ 64)
  · exact (by decide : 0 < 2 ^ 64)

/-- The flags of a final interest are not sent. -/
theorem finalInterest_loses_flags : ¬ ∃ bytes key,
    networkMessageEncode (.interest ⟨wireexprNull, 7, 0x01, false⟩) = .ok bytes ∧
      networkMessageDecode bytes = .ok (.interest ⟨key, 7, 0x01, false⟩, []) := by
  rintro ⟨bytes, key, hencode, hdecode⟩
  have hformed : KeyFormed wireexprNull := (by decide : 0 < 2 ^ 64)
  obtain ⟨bytes', hencode', hread⟩ :=
    @networkMessage_reads (.interest ⟨wireexprNull, 7, 0x01, false⟩) hformed
  obtain rfl := Except.ok.inj (hencode.symm.trans hencode')
  have hwhole := hread []
  rw [append_nil, hdecode] at hwhole
  have hsame := (Prod.mk.inj (Except.ok.inj hwhole)).1
  have hflags := congrArg InterestMessage.flags (NetworkMessage.interest.inj hsame)
  have hone : (0x01 : UInt8) ≠ 0 := by decide
  exact hone hflags

end ZenohPico.Network
