import ZenohPico.Session.DeclaredKeyexpr
import ZenohPico.Session.PendingQueries
import ZenohPico.Session.RemoteTokens
import ZenohPico.Session.ResponseCodec

/-!
Replies of a queryable (`_z_send_reply` and `_z_send_reply_err` of `src/net/primitives.c`,
`src/session/loopback.c`, `src/session/reply.c`, `src/session/query.c`).

A reply to a query of the own session is made and handled as a message that was never encoded. The
memory it is made in is that of the stack: a DEL leaves the encoding and the attachment of a PUT in
it as they are, and its own attachment is where a PUT has its payload. The reply is handled as a PUT
whatever its kind, and this is what the callback of the query then sees of a deletion. A deletion
that comes from the network has no attachment at all.
-/

namespace ZenohPico.Session

open Foundations Protocol Transport

/-! ### What is replied -/

/-- A key expression of a session: its wire expression stands for its text. -/
structure SessionKey (tables : ResourceTables) where
  key : DeclaredKeyexpr
  expr : WireExpr
  wire : aliasToWire key = some expr
  denotes : getKeyexprFromWireexpr tables expr .session = some key.inner
  length_inner : key.inner.length < 2 ^ 64

/-- The arguments of `_z_send_reply`. What is not given is null, and all lengths are those of
slices. -/
structure ReplyData where
  payload : List UInt8
  encoding : Encoding
  timestamp : Timestamp
  attachment : List UInt8
  sourceInfo : SourceInfo
  length_payload : payload.length < 2 ^ 64
  length_schema : encoding.schema.length < 2 ^ 64
  length_attachment : attachment.length < 2 ^ 64

/-- The arguments of `_z_send_reply_err` -/
structure ReplyErrData where
  payload : List UInt8
  encoding : Encoding
  length_payload : payload.length < 2 ^ 64
  length_schema : encoding.schema.length < 2 ^ 64

/-- What a queryable answers with -/
inductive QueryableReply (tables : ResourceTables)
  | ok (key : SessionKey tables) (kind : SampleKind) (data : ReplyData)
  | err (data : ReplyErrData)

/-- `_z_query_t`, with the quality of service of its replies -/
structure AnsweredQuery where
  requestId : UInt32
  key : List UInt8
  anyke : Bool
  qos : UInt8
deriving DecidableEq, Repr

/-- `_z_n_msg_make_reply_ok_put` -/
def makeReplyOkPut (zid : ZenohId) (rid : UInt64) (key : WireExpr) (qos : UInt8)
    (timestamp : Timestamp) (sourceInfo : SourceInfo) (payload : List UInt8) (encoding : Encoding)
    (attachment : List UInt8) : ResponseMessage where
  requestId := rid
  key := key
  extQos := qos
  extTimestamp := .null
  extResponder := ⟨zid, 0⟩
  body := .reply ⟨none, ⟨true, ⟨timestamp, sourceInfo, payload, encoding, attachment⟩⟩⟩

/-- `_z_n_msg_make_reply_ok_del`, in a memory that holds something else -/
def makeReplyOkDel (memory : MsgPut) (zid : ZenohId) (rid : UInt64) (key : WireExpr) (qos : UInt8)
    (timestamp : Timestamp) (sourceInfo : SourceInfo) (attachment : List UInt8) :
    ResponseMessage where
  requestId := rid
  key := key
  extQos := qos
  extTimestamp := .null
  extResponder := ⟨zid, 0⟩
  body := .reply ⟨none, ⟨false, { memory with timestamp, sourceInfo }.setDelAttachment attachment⟩⟩

/-- `_z_n_msg_make_reply_err`, without source information -/
def makeReplyErr (zid : ZenohId) (rid : UInt64) (qos : UInt8) (payload : List UInt8)
    (encoding : Encoding) : ResponseMessage where
  requestId := rid
  key := ⟨0, [], .session⟩
  extQos := qos
  extTimestamp := .null
  extResponder := ⟨zid, 0⟩
  body := .err ⟨encoding, .null, payload⟩

section Sending

variable (intersects : List UInt8 → List UInt8 → Bool) (memory : MsgPut) (zid : ZenohId)
  (query : AnsweredQuery) {tables : ResourceTables}

/-- The reply is for a key of the query. -/
def AnsweredQuery.accepts (key : List UInt8) : Bool := query.anyke || intersects query.key key

/-- The message of a reply, if there is one: `_z_send_reply`, `_z_session_deliver_reply_locally`,
`_z_send_reply_err`, `_z_session_deliver_reply_err_locally` -/
def replyMessage : QueryableReply tables → Option ResponseMessage
  | .ok key kind data =>
    if query.accepts intersects key.key.inner then
      match kind with
      | .put => some (makeReplyOkPut zid query.requestId.toUInt64 key.expr query.qos data.timestamp
          data.sourceInfo data.payload data.encoding data.attachment)
      | .delete => some (makeReplyOkDel memory zid query.requestId.toUInt64 key.expr query.qos
          data.timestamp data.sourceInfo data.attachment)
    else none
  -- neither express nor dropped, of the default priority
  | .err data => some (makeReplyErr zid query.requestId.toUInt64 13 data.payload data.encoding)

end Sending

/-! ### What the querier sees -/

/-- `_z_sample_t`, as far as it can be read: a timestamp and source information only if they
check -/
structure ReplySample where
  keyexpr : List UInt8
  kind : SampleKind
  payload : List UInt8
  encoding : Encoding
  timestamp : Option (UInt64 × ZenohId)
  attachment : List UInt8
  sourceInfo : Option SourceInfo
deriving DecidableEq, Repr

/-- `z_sample_timestamp` -/
def Timestamp.seen (ts : Timestamp) : Option (UInt64 × ZenohId) :=
  if ts.valid then some (ts.time, ts.id) else none

/-- `z_sample_source_info` -/
def SourceInfo.seen (info : SourceInfo) : Option SourceInfo :=
  if info.check then some info else none

/-- `_z_reply_steal_data` -/
def replyStealData (keyexpr : List UInt8) (put : MsgPut) (kind : SampleKind) : ReplySample where
  keyexpr := keyexpr
  kind := kind
  payload := put.payload
  encoding := put.encoding
  timestamp := put.timestamp.seen
  attachment := put.attachment
  sourceInfo := put.sourceInfo.seen

/-- `_z_pending_reply_t`, of which the monotonic mode stores the key only -/
structure StoredReply where
  keyexpr : List UInt8
  time : UInt64
  sample : Option ReplySample
deriving DecidableEq, Repr

/-- `_z_pending_query_t` -/
structure AwaitingQuery where
  id : UInt64
  key : List UInt8
  anyke : Bool
  consolidation : ConsolidationMode
  pendingReplies : List StoredReply
deriving DecidableEq, Repr

/-- The pending queries of a session -/
structure Querier where
  isClosed : Bool
  pendingQueries : List AwaitingQuery
deriving DecidableEq, Repr

/-- A callback is run for the query of a number. -/
inductive ReplySeen
  | sample (id : UInt64) (sample : ReplySample)
  | error (id : UInt64) (payload : List UInt8) (encoding : Encoding)
deriving DecidableEq, Repr

/-- The replies that are stored after a new one, whose key is compared with theirs -/
def storeSample (consolidation : ConsolidationMode) (pendingReplies : List StoredReply)
    (time : UInt64) (sample : ReplySample) : List StoredReply :=
  let stored : StoredReply :=
    ⟨sample.keyexpr, time, if consolidation = .monotonic then none else some sample⟩
  match pendingReplies.find? (Keyexpr.sameKeyexpr ·.keyexpr sample.keyexpr) with
  | none => stored :: pendingReplies
  | some same =>
    if time ≤ same.time then pendingReplies
    else stored :: pendingReplies.eraseP (·.time = same.time)

namespace Querier

variable (intersects : List UInt8 → List UInt8 → Bool) (zn : Querier)

/-- `_z_trigger_query_reply_partial_inner` -/
def replyPartial (id : UInt64) (keyexpr : List UInt8) (put : MsgPut) (kind : SampleKind) :
    Querier × List ReplySeen :=
  if zn.isClosed then (zn, [])
  else
    match zn.pendingQueries.find? (·.id = id) with
    | none => (zn, [])
    | some pq =>
      if !pq.anyke && !intersects pq.key keyexpr then (zn, [])
      else
        let reply := replyStealData keyexpr put kind
        let pendingReplies :=
          if pq.consolidation = .none then pq.pendingReplies
          else storeSample pq.consolidation pq.pendingReplies put.timestamp.time reply
        ({ zn with
            pendingQueries := updateFirst (·.id = id) ({ · with pendingReplies })
              zn.pendingQueries },
          if pq.consolidation ≠ .latest then [.sample id reply] else [])

/-- `_z_trigger_query_reply_err` -/
def replyErr (id : UInt64) (err : MsgErr) : Querier × List ReplySeen :=
  if zn.isClosed then (zn, [])
  else
    match zn.pendingQueries.find? (·.id = id) with
    | none => (zn, [])
    | some _ => (zn, [.error id err.payload err.encoding])

/-- `_z_handle_response`, `_z_trigger_reply_partial` and `_z_trigger_query_reply_partial`. The owner
is that of the resources that are not local. -/
def handleResponse (tables : ResourceTables) (owner : ResourceOwner) (msg : ResponseMessage) :
    Querier × List ReplySeen :=
  match msg.body with
  | .reply reply =>
    match getKeyexprFromWireexpr tables msg.key owner with
    | none => (zn, [])
    | some keyexpr =>
      zn.replyPartial intersects msg.requestId keyexpr reply.body.put
        (if reply.body.isPut then .put else .delete)
  | .err err => zn.replyErr msg.requestId err

/-- The querier handles what was encoded for it, if it can be decoded. -/
def receive (tables : ResourceTables) : Except ZError (List UInt8) → Querier × List ReplySeen
  | .ok (header :: bytes) =>
    match responseDecode header bytes with
    | .ok (msg, _) => zn.handleResponse intersects tables .peer msg
    | .error _ => (zn, [])
  | _ => (zn, [])

end Querier

section Delivery

variable (intersects : List UInt8 → List UInt8 → Bool) (memory : MsgPut) (zid : ZenohId)
  (query : AnsweredQuery) {tables : ResourceTables} (querierTables : ResourceTables)
  (reply : QueryableReply tables)

/-- The reply to a query of the own session -/
def deliverLocally (zn : Querier) : Querier × List ReplySeen :=
  match replyMessage intersects memory zid query reply with
  | none => (zn, [])
  | some msg => zn.handleResponse intersects tables .session msg

/-- The reply to a query of a peer -/
def deliverRemotely (zn : Querier) : Querier × List ReplySeen :=
  match replyMessage intersects memory zid query reply with
  | none => (zn, [])
  | some msg => zn.receive intersects querierTables (responseEncode msg)

/-- A querier with the same pending queries sees the same of a reply, whether it is the session of
the queryable or a peer of it. -/
def RepliesAgree : Prop :=
  ∀ zn : Querier, deliverLocally intersects memory zid query reply zn =
    deliverRemotely intersects memory zid query querierTables reply zn

/-- What a reply carries gets to a peer as it is. -/
structure Carried (key : SessionKey tables) (kind : SampleKind) (data : ReplyData) : Prop where
  /-- The peer knows the resource of the key. -/
  key : getKeyexprFromWireexpr querierTables (receivedKey key.expr) .peer = some key.key.inner
  /-- A timestamp has an id. -/
  timestamp : data.timestamp.valid = true → idCheck data.timestamp.id = true
  /-- A timestamp that is not valid is null. -/
  noTimestamp : data.timestamp.valid = false → data.timestamp.time = 0
  /-- Source information has an id. -/
  sourceInfo : data.sourceInfo.present = true → idCheck data.sourceInfo.sourceId.zid = true
  /-- A deletion has no attachment, and the memory for its message is clean. -/
  deleted : kind = .delete → data.attachment = [] ∧ memory.encoding = .null ∧ memory.attachment = []

variable {intersects memory zid query querierTables reply}

/-! ### Sending -/

theorem suffix_of_aliasToWire {key : DeclaredKeyexpr} {expr : WireExpr}
    (h : aliasToWire key = some expr) : expr.suffix.length ≤ key.inner.length := by
  unfold aliasToWire at h
  split at h
  · cases h
    exact le_rfl
  · split_ifs at h
    cases h
    simp

/-- The body of the message of a reply -/
def replyBody (memory : MsgPut) (kind : SampleKind) (data : ReplyData) : PushBody :=
  match kind with
  | .put => ⟨true, ⟨data.timestamp, data.sourceInfo, data.payload, data.encoding, data.attachment⟩⟩
  | .delete => ⟨false, { memory with
      timestamp := data.timestamp, sourceInfo := data.sourceInfo, payload := data.attachment }⟩

/-- The message of a reply that is for a key of the query -/
def okMessage (memory : MsgPut) (zid : ZenohId) (query : AnsweredQuery) (key : SessionKey tables)
    (kind : SampleKind) (data : ReplyData) : ResponseMessage :=
  ⟨query.requestId.toUInt64, key.expr, query.qos, .null, ⟨zid, 0⟩,
    .reply ⟨none, replyBody memory kind data⟩⟩

theorem replyMessage_ok {key : SessionKey tables} {kind : SampleKind} {data : ReplyData}
    (h : query.accepts intersects key.key.inner = true) :
    replyMessage intersects memory zid query (.ok key kind data) =
      some (okMessage memory zid query key kind data) := by
  cases kind <;> simp only [replyMessage, if_pos h] <;> rfl

variable (memory zid query) in
theorem okMessage_made (key : SessionKey tables) (kind : SampleKind) (data : ReplyData) :
    (okMessage memory zid query key kind data).Made :=
  ⟨rfl, rfl, (suffix_of_aliasToWire key.wire).trans_lt key.length_inner⟩

variable (memory) in
@[simp]
theorem replyBody_timestamp (kind : SampleKind) (data : ReplyData) :
    (replyBody memory kind data).put.timestamp = data.timestamp := by cases kind <;> rfl

@[simp]
theorem replyBody_sourceInfo (kind : SampleKind) (data : ReplyData) :
    (replyBody memory kind data).put.sourceInfo = data.sourceInfo := by cases kind <;> rfl

theorem replyBody_sized (kind : SampleKind) (data : ReplyData)
    (h : (replyBody memory kind data).isPut = true) : (replyBody memory kind data).put.Sized := by
  cases kind with
  | put => exact ⟨data.length_payload, data.length_schema, data.length_attachment⟩
  | delete => cases h

/-- Where timestamp and source information have an id, the querier handles the received message. -/
theorem receive_okMessage {key : SessionKey tables} {kind : SampleKind} {data : ReplyData}
    (hts : data.timestamp.valid = true → idCheck data.timestamp.id = true)
    (hinfo : data.sourceInfo.present = true → idCheck data.sourceInfo.sourceId.zid = true)
    (zn : Querier) :
    zn.receive intersects querierTables (responseEncode (okMessage memory zid query key kind data)) =
      zn.handleResponse intersects querierTables .peer
        (okMessage memory zid query key kind data).received := by
  obtain ⟨bytes, hencode, hdecode⟩ := responseDecode_reply
    (okMessage_made memory zid query key kind data) rfl
    (by simpa [idLen_pos_iff] using hts) (by simpa [idLen_pos_iff] using hinfo)
    (replyBody_sized kind data)
  rw [hencode, Querier.receive, hdecode]

/-- A reply of which an id is missing does not get through. -/
theorem receive_refused {key : SessionKey tables} {kind : SampleKind} {data : ReplyData}
    (h : data.timestamp.valid = true ∧ idCheck data.timestamp.id = false ∨
      data.sourceInfo.present = true ∧ idCheck data.sourceInfo.sourceId.zid = false)
    (zn : Querier) : zn.receive intersects querierTables
      (responseEncode (okMessage memory zid query key kind data)) = (zn, []) := by
  have hzero {id : ZenohId} (hid : idCheck id = false) : idLen id = 0 := by
    by_contra hne
    rw [idLen_pos_iff.mp (Nat.pos_of_ne_zero hne)] at hid
    cases hid
  have hmade := okMessage_made memory zid query key kind data
  by_cases hts : data.timestamp.valid = true → idCheck data.timestamp.id = true
  · obtain ⟨hvalid, hid⟩ | ⟨hpresent, hid⟩ := h
    · rw [hts hvalid] at hid
      cases hid
    · obtain ⟨bytes, hencode, hdecode⟩ := responseDecode_refused hmade rfl
        (by simpa [idLen_pos_iff] using hts) (by simpa using hpresent) (by simpa using hzero hid)
        (replyBody_sized kind data)
      rw [hencode, Querier.receive, hdecode]
  · obtain ⟨hvalid, hid⟩ := Classical.not_imp.mp hts
    have hid : idCheck data.timestamp.id = false := by simpa using hid
    rw [responseEncode_refused hmade rfl (by simpa using hvalid) (by simpa using hzero hid)]
    rfl

theorem receive_err (data : ReplyErrData) (rid : UInt64) (qos : UInt8) (zn : Querier) :
    zn.receive intersects querierTables
        (responseEncode (makeReplyErr zid rid qos data.payload data.encoding)) =
      zn.replyErr rid ⟨data.encoding, .null, data.payload⟩ := by
  have hmade : (makeReplyErr zid rid qos data.payload data.encoding).Made :=
    ⟨rfl, rfl, Nat.two_pow_pos 64⟩
  obtain ⟨bytes, hencode, hdecode⟩ := responseDecode_err hmade rfl rfl data.length_schema
    data.length_payload
  rw [hencode, Querier.receive, hdecode]
  rfl

/-! ### What is seen -/

variable (memory zid query) in
theorem handleResponse_locally {key : SessionKey tables} {kind : SampleKind} {data : ReplyData}
    (zn : Querier) :
    zn.handleResponse intersects tables .session (okMessage memory zid query key kind data) =
      zn.replyPartial intersects query.requestId.toUInt64 key.key.inner
        (replyBody memory kind data).put kind := by
  have hkind : (if (replyBody memory kind data).isPut then SampleKind.put else .delete) = kind := by
    cases kind <;> rfl
  rw [Querier.handleResponse, okMessage]
  dsimp only
  rw [key.denotes, hkind]

/-- What a peer handles in the place of the body of a reply -/
def receivedPut (kind : SampleKind) (data : ReplyData) : MsgPut :=
  match kind with
  | .put => ⟨data.timestamp.received, data.sourceInfo, data.payload, data.encoding, data.attachment⟩
  | .delete => { MsgPut.null with
      timestamp := data.timestamp.received, sourceInfo := data.sourceInfo }

theorem handleResponse_remotely {key : SessionKey tables} {kind : SampleKind} {data : ReplyData}
    (zn : Querier) : zn.handleResponse intersects querierTables .peer
        (okMessage memory zid query key kind data).received =
      match getKeyexprFromWireexpr querierTables (receivedKey key.expr) .peer with
      | none => (zn, [])
      | some keyexpr => zn.replyPartial intersects query.requestId.toUInt64 keyexpr
          (receivedPut kind data) kind := by
  cases kind <;> rfl

/-- A querier with one query, for any key and with a mode of consolidation -/
def oneQuery (id : UInt64) (consolidation : ConsolidationMode) : Querier :=
  ⟨false, [⟨id, [], true, consolidation, []⟩]⟩

theorem replyPartial_oneQuery (id : UInt64) (keyexpr : List UInt8) (put : MsgPut)
    (kind : SampleKind) : (oneQuery id .none).replyPartial intersects id keyexpr put kind =
      (oneQuery id .none, [.sample id (replyStealData keyexpr put kind)]) := by
  simp [Querier.replyPartial, oneQuery, updateFirst]

theorem replyPartial_latest (id : UInt64) (keyexpr : List UInt8) (put : MsgPut)
    (kind : SampleKind) : (oneQuery id .latest).replyPartial intersects id keyexpr put kind =
      (⟨false, [⟨id, [], true, .latest, [⟨keyexpr, put.timestamp.time,
        some (replyStealData keyexpr put kind)⟩]⟩]⟩, []) := by
  simp [Querier.replyPartial, oneQuery, updateFirst, storeSample, replyStealData]

/-- What a query does with a reply depends on the sample and on the time only. -/
theorem replyPartial_congr {put put' : MsgPut} {keyexpr : List UInt8} {kind : SampleKind}
    (hsample : replyStealData keyexpr put kind = replyStealData keyexpr put' kind)
    (htime : put.timestamp.time = put'.timestamp.time) (zn : Querier) (id : UInt64) :
    zn.replyPartial intersects id keyexpr put kind =
      zn.replyPartial intersects id keyexpr put' kind := by
  simp only [Querier.replyPartial, hsample, htime]

theorem Timestamp.seen_received (ts : Timestamp) : ts.received.seen = ts.seen := by
  unfold Timestamp.received
  split_ifs with hvalid
  · rfl
  · simp [Timestamp.seen, Timestamp.null, hvalid]

theorem Carried.agree {key : SessionKey tables} {kind : SampleKind} {data : ReplyData}
    (h : Carried memory querierTables key kind data)
    (haccepts : query.accepts intersects key.key.inner = true) :
    RepliesAgree intersects memory zid query querierTables (.ok key kind data) := by
  intro zn
  rw [deliverLocally, deliverRemotely, replyMessage_ok haccepts]
  dsimp only
  rw [receive_okMessage h.timestamp h.sourceInfo, handleResponse_locally, handleResponse_remotely,
    h.key]
  have htime : data.timestamp.time = data.timestamp.received.time := by
    unfold Timestamp.received
    split_ifs with hvalid
    · rfl
    · exact h.noTimestamp (Bool.eq_false_iff.mpr hvalid)
  cases kind with
  | put =>
    refine replyPartial_congr ?_ htime _ _
    simp only [replyStealData, replyBody, receivedPut, Timestamp.seen_received]
  | delete =>
    obtain ⟨hattachment, hencoding, hmemory⟩ := h.deleted rfl
    refine replyPartial_congr ?_ htime _ _
    simp only [replyStealData, replyBody, receivedPut, Timestamp.seen_received, hattachment,
      hencoding, hmemory, MsgPut.null]

/-- Two queries, one of which shows a reply at once, tell what was carried. -/
theorem RepliesAgree.carried {key : SessionKey tables} {kind : SampleKind} {data : ReplyData}
    (h : RepliesAgree intersects memory zid query querierTables (.ok key kind data))
    (haccepts : query.accepts intersects key.key.inner = true) :
    Carried memory querierTables key kind data := by
  have hdeliver (zn : Querier) : zn.replyPartial intersects query.requestId.toUInt64 key.key.inner
        (replyBody memory kind data).put kind = zn.receive intersects querierTables
        (responseEncode (okMessage memory zid query key kind data)) := by
    have hzn := h zn
    rw [deliverLocally, deliverRemotely, replyMessage_ok haccepts] at hzn
    rwa [← handleResponse_locally memory zid query]
  have hone := hdeliver (oneQuery query.requestId.toUInt64 .none)
  rw [replyPartial_oneQuery] at hone
  have hids : (data.timestamp.valid = true → idCheck data.timestamp.id = true) ∧
      (data.sourceInfo.present = true → idCheck data.sourceInfo.sourceId.zid = true) := by
    by_contra hmissing
    rw [receive_refused (by
      rw [not_and_or, Classical.not_imp, Classical.not_imp] at hmissing
      simpa using hmissing)] at hone
    simpa using congrArg Prod.snd hone
  have hremote (zn : Querier) : zn.receive intersects querierTables
          (responseEncode (okMessage memory zid query key kind data)) =
        zn.handleResponse intersects querierTables .peer
          (okMessage memory zid query key kind data).received :=
    receive_okMessage hids.1 hids.2 zn
  rw [hremote, handleResponse_remotely] at hone
  cases hkey : getKeyexprFromWireexpr querierTables (receivedKey key.expr) .peer with
  | none =>
    rw [hkey] at hone
    simpa using congrArg Prod.snd hone
  | some keyexpr =>
    rw [hkey] at hone
    dsimp only at hone
    rw [replyPartial_oneQuery] at hone
    have hsample : replyStealData key.key.inner (replyBody memory kind data).put kind =
        replyStealData keyexpr (receivedPut kind data) kind := by simpa using hone
    have hlatest := hdeliver (oneQuery query.requestId.toUInt64 .latest)
    rw [hremote, handleResponse_remotely, hkey] at hlatest
    dsimp only at hlatest
    rw [replyPartial_latest, replyPartial_latest] at hlatest
    have htime : data.timestamp.time = (receivedPut kind data).timestamp.time := by
      rw [← replyBody_timestamp memory kind data]
      simpa using (congrArg (fun r ↦ r.1.pendingQueries.map fun pq ↦
        pq.pendingReplies.map StoredReply.time) hlatest)
    have hreceived : (receivedPut kind data).timestamp = data.timestamp.received := by
      cases kind <;> rfl
    have hkeyexpr : key.key.inner = keyexpr := congrArg ReplySample.keyexpr hsample
    refine ⟨by rw [hkey, ← hkeyexpr], hids.1, fun hvalid ↦ ?_, hids.2, ?_⟩
    · rw [htime, hreceived, Timestamp.received, hvalid]
      rfl
    · rintro rfl
      exact ⟨congrArg ReplySample.payload hsample, congrArg ReplySample.encoding hsample,
        congrArg ReplySample.attachment hsample⟩

variable (intersects memory zid query querierTables reply) in
/-- A querier sees the same of a reply, whether the queryable is in its session or in a peer, exactly
if what the reply carries gets to a peer as it is. An error always does. -/
theorem repliesAgree_iff : RepliesAgree intersects memory zid query querierTables reply ↔
      ∀ key kind data, reply = .ok key kind data → query.accepts intersects key.key.inner = true →
          Carried memory querierTables key kind data := by
  constructor
  · rintro h key kind data rfl haccepts
    exact h.carried haccepts
  · intro h
    cases reply with
    | ok key kind data =>
      by_cases haccepts : query.accepts intersects key.key.inner = true
      · exact (h key kind data rfl haccepts).agree haccepts
      · have hnone : replyMessage intersects memory zid query (.ok key kind data) = none := by
          simp only [replyMessage, if_neg haccepts]
        intro zn
        rw [deliverLocally, deliverRemotely, hnone]
    | err data =>
      intro zn
      rw [deliverLocally, deliverRemotely]
      exact (receive_err data _ _ zn).symm

end Delivery

/-- A deletion of the key `k`, with one byte as its attachment -/
def deletionWithAttachment : QueryableReply ⟨[], [], 1⟩ :=
  .ok ⟨⟨[107], none⟩, ⟨0, [107], .session⟩, rfl, rfl, by decide⟩ .delete
    ⟨[], .null, .null, [1], .null, by decide, by decide, by decide⟩

/-- In the own session, the attachment of a deletion is seen as its payload. -/
theorem deletionWithAttachment_seen :
    ¬RepliesAgree (fun _ _ ↦ true) .null (.ofBytes [1]) ⟨1, [107], false, 13⟩ ⟨[], [], 1⟩
      deletionWithAttachment := by
  intro h
  have hcarried := RepliesAgree.carried h rfl
  exact absurd (hcarried.deleted rfl).1 (by decide)

end ZenohPico.Session
