import ZenohPico.Foundations.FuelLoop
import ZenohPico.Transport.MessageCodec
import ZenohPico.Transport.UnicastRead

/-!
Sending network messages (`src/transport/common/tx.c`).

All destinations of a transport share one buffer and one pair of counters, and where to send is an
argument of each call. While batching is on, a message that is not express stays in the buffer, and
goes wherever the call that empties the buffer sends it. Writing to the sockets always works here,
and the mutex is always free.

A message that does not fit in a batch is cut into fragments. Where the headers leave no room for a
byte of it, the loop that does this need not end, so it runs with a budget of passes.
-/

open List

namespace ZenohPico.Transport

open Foundations Protocol

/-! ### The buffer -/

/-- The writes of an encoder: each goes in the buffer as a whole or not at all. -/
abbrev Writes := List (List UInt8)

/-- Writes in a buffer that does not expand, up to the first that finds no room -/
def wbufWrite (capacity : ℕ) : Writes → List UInt8 → List UInt8 × Except ZError Unit
  | [], buf => (buf, .ok ())
  | bs :: rest, buf =>
    if buf.length + bs.length ≤ capacity then wbufWrite capacity rest (buf ++ bs)
    else (buf, .error .transportNoSpace)

theorem wbufWrite_fits {capacity : ℕ} {writes : Writes} {buf : List UInt8}
    (h : buf.length + writes.flatten.length ≤ capacity) :
    wbufWrite capacity writes buf = (buf ++ writes.flatten, .ok ()) := by
  induction writes generalizing buf with
  | nil => simp [wbufWrite]
  | cons bs rest ih =>
    rw [flatten_cons, length_append] at h
    rw [wbufWrite, if_pos (by omega), ih (by rw [length_append]; omega), flatten_cons, append_assoc]

/-- A write without room fails, and what was in the buffer before is still there. -/
theorem wbufWrite_full {capacity : ℕ} {writes : Writes} {buf : List UInt8}
    (hbuf : buf.length ≤ capacity) (h : capacity < buf.length + writes.flatten.length) :
    ∃ part, wbufWrite capacity writes buf = (buf ++ part, .error .transportNoSpace) := by
  induction writes generalizing buf with
  | nil =>
    rw [flatten_nil, length_nil] at h
    omega
  | cons bs rest ih =>
    rw [flatten_cons, length_append] at h
    rw [wbufWrite]
    split_ifs with hroom
    · obtain ⟨part, hpart⟩ := @ih (buf ++ bs) (by rw [length_append]; omega)
        (by rw [length_append]; omega)
      exact ⟨bs ++ part, by rw [hpart, append_assoc]⟩
    · exact ⟨[], by rw [append_nil]⟩

theorem wbufWrite_ok {capacity : ℕ} {writes : Writes} {buf wbuf : List UInt8}
    (h : wbufWrite capacity writes buf = (wbuf, .ok ())) : wbuf = buf ++ writes.flatten := by
  induction writes generalizing buf with
  | nil =>
    rw [wbufWrite] at h
    rw [(Prod.mk.inj h).1, flatten_nil, append_nil]
  | cons bs rest ih =>
    rw [wbufWrite] at h
    split_ifs at h with hroom
    · rw [ih h, flatten_cons, append_assoc]
    · cases h

/-- The codec of network messages, as sending and receiving rely on it: the writes of
`_z_network_message_encode`, what `_z_network_message_decode` reads, and whether a message is
express. A message is read back, and its header is none of a transport message. -/
structure NetworkCodec (Msg : Type) where
  writes : Msg → Writes
  decode : Decoder Msg
  express : Msg → Bool
  decode_writes : ∀ msg zbf, decode ((writes msg).flatten ++ zbf) = .ok (msg, zbf)
  mid_writes : ∀ msg, ∃ header body, (writes msg).flatten = header :: body ∧ 0x07 < mid header

/-- The bytes of a message -/
def NetworkCodec.encode {Msg : Type} (codec : NetworkCodec Msg) (msg : Msg) : List UInt8 :=
  (codec.writes msg).flatten

/-! ### The transport -/

/-- What a transport is created with: the resolution of its numbers, its link and the size of its
buffer, in a build with or without `Z_FEATURE_FRAGMENTATION`. On a stream the length of a batch is
put in the buffer unchecked. -/
structure TxConfig where
  bits : ℕ
  resolution : IsResolution bits
  link : LinkKind
  capacity : ℕ
  fragmentation : Bool
  framed : link.datagram = false → msgLenEncSize ≤ capacity

/-- `_sn_res` -/
def TxConfig.snRes (cfg : TxConfig) : UInt64 := snMax cfg.bits

/-- `_z_transport_common_t`, with what was written to each socket. Without batching, a build is one
in which batching is never started. -/
structure TxCommon (Sock : Type) where
  snTxReliable : UInt64
  snTxBestEffort : UInt64
  wbuf : List UInt8
  batchActive : Bool
  batchCount : ℕ
  sent : List (Sock × List UInt8)
deriving DecidableEq

/-- A transport that was just created. Its first number is a random one, masked by
`!_z_sn_modulo_mask`, which is 0. -/
def TxCommon.init (Sock : Type) : TxCommon Sock := ⟨0, 0, [], false, 0, []⟩

variable {Sock Msg : Type} (cfg : TxConfig)

namespace TxCommon

/-- The next number of a channel -/
def counter (tx : TxCommon Sock) : Reliability → UInt64
  | .reliable => tx.snTxReliable
  | .bestEffort => tx.snTxBestEffort

/-- `_z_transport_tx_get_sn` -/
def getSn (tx : TxCommon Sock) : Reliability → UInt64 × TxCommon Sock
  | .reliable =>
    (tx.snTxReliable, { tx with snTxReliable := snIncrement cfg.snRes tx.snTxReliable })
  | .bestEffort =>
    (tx.snTxBestEffort, { tx with snTxBestEffort := snIncrement cfg.snRes tx.snTxBestEffort })

/-- `_z_transport_tx_batch_has_data` -/
def batchHasData (tx : TxCommon Sock) : Bool := tx.batchActive && decide (0 < tx.batchCount)

end TxCommon

/-- `__unsafe_z_prepare_wbuf`: a stream has the length of a batch in front of it. -/
def prepareWbuf : List UInt8 := if cfg.link.datagram then [] else [0, 0]

/-- `__unsafe_z_finalize_wbuf` -/
def finalizeWbuf (wbuf : List UInt8) : List UInt8 :=
  if cfg.link.datagram then wbuf
  else batchFraming.encode (wbuf.length - msgLenEncSize) ++ wbuf.drop msgLenEncSize

/-- The buffer is finalized, and `_z_link_send_wbuf` writes it to the socket of each peer. Without a
list of peers it is the socket of the link. -/
def finalizeAndSend (peers : List Sock) (tx : TxCommon Sock) : TxCommon Sock :=
  { tx with
    wbuf := finalizeWbuf cfg tx.wbuf
    sent := tx.sent ++ peers.map (·, finalizeWbuf cfg tx.wbuf) }

/-- `_z_transport_tx_flush_buffer` -/
def flushBuffer (peers : List Sock) (tx : TxCommon Sock) : TxCommon Sock :=
  { finalizeAndSend cfg peers tx with batchCount := 0 }

/-- `_z_transport_tx_flush_or_incr_batch` -/
def flushOrIncrBatch (peers : List Sock) (tx : TxCommon Sock) : TxCommon Sock :=
  if tx.batchActive then { tx with batchCount := tx.batchCount + 1 } else flushBuffer cfg peers tx

/-- The writes of `_z_transport_message_encode` for `_z_t_msg_make_frame_header` -/
def frameHeaderWrites (sn : UInt64) (reliability : Reliability) : Writes :=
  [[(makeFrameHeader sn reliability).header], zint64Encode sn]

/-- The length of the header of a frame message -/
def frameHeaderLength (sn : UInt64) : ℕ := 1 + zintLen sn

theorem length_frameHeaderWrites (r : Reliability) (sn : UInt64) :
    (frameHeaderWrites sn r).flatten.length = frameHeaderLength sn := by
  simp only [frameHeaderWrites, frameHeaderLength, flatten_cons, flatten_nil,
    append_nil, length_append, length_cons, length_nil, length_zint64Encode]

/-- The writes of `_z_transport_message_encode` for `_z_t_msg_make_fragment_header`, of a fragment
that does not drop the message -/
def fragmentHeaderWrites (sn : UInt64) (reliability : Reliability) (isLast first : Bool) : Writes :=
  [[(makeFragmentHeader sn reliability isLast first false).header], zint64Encode sn] ++
    if first then [[0x02]] else []

/-! ### Fragments -/

/-- `__unsafe_z_serialize_zenoh_fragment`: the buffer with the fragment, and what is left of the
message -/
def serializeZenohFragment (reliability : Reliability) (sn : UInt64) (first : Bool)
    (dst src : List UInt8) : List UInt8 × List UInt8 × Except ZError Unit :=
  match wbufWrite cfg.capacity (fragmentHeaderWrites sn reliability false first) dst with
  | (buf, .error e) => (buf, src, .error e)
  | (buf, .ok ()) =>
    if src.length ≤ cfg.capacity - buf.length then
      -- it is really the final fragment: the header is written again
      match wbufWrite cfg.capacity (fragmentHeaderWrites sn reliability true first) dst with
      | (buf, .error e) => (buf, src, .error e)
      | (buf, .ok ()) =>
        let toCopy := min src.length (cfg.capacity - buf.length)
        (buf ++ src.take toCopy, src.drop toCopy, .ok ())
    else
      let toCopy := cfg.capacity - buf.length
      (buf ++ src.take toCopy, src.drop toCopy, .ok ())

/-- The variables of the loop of `_z_transport_tx_send_fragment_inner` -/
structure FragmentState (Sock : Type) where
  isFirst : Bool
  sn : UInt64
  fragBuff : List UInt8
  tx : TxCommon Sock

/-- A pass of the loop of `_z_transport_tx_send_fragment_inner` -/
def fragmentPass (reliability : Reliability) (peers : List Sock) (s : FragmentState Sock) :
    Pass (FragmentState Sock) (TxCommon Sock × Except ZError Unit) :=
  if s.fragBuff = [] then .done (s.tx, .ok ())
  else
    let (sn, tx) := if s.isFirst then (s.sn, s.tx) else s.tx.getSn cfg reliability
    match serializeZenohFragment cfg reliability sn s.isFirst (prepareWbuf cfg) s.fragBuff with
    | (wbuf, _, .error e) => .done ({ tx with wbuf }, .error e)
    | (wbuf, rest, .ok ()) =>
      .next ⟨false, sn, rest, finalizeAndSend cfg peers { tx with wbuf }⟩

/-- `_z_transport_tx_send_fragment_inner`, with so many passes at most -/
def sendFragmentInner (n : ℕ) (encoding : List UInt8) (reliability : Reliability) (firstSn : UInt64)
    (peers : List Sock) (tx : TxCommon Sock) : Option (TxCommon Sock × Except ZError Unit) :=
  runLoop (fun s ↦ some (fragmentPass cfg reliability peers s)) n ⟨true, firstSn, encoding, tx⟩

/-- `_z_transport_tx_send_fragment`. A build without fragmentation does not send the message. -/
def sendFragment (n : ℕ) (encoding : List UInt8) (reliability : Reliability) (firstSn : UInt64)
    (peers : List Sock) (tx : TxCommon Sock) : Option (TxCommon Sock × Except ZError Unit) :=
  if cfg.fragmentation then sendFragmentInner cfg n encoding reliability firstSn peers tx
  else some (tx, .ok ())

/-! ### Messages -/

/-- `Init buffer`: the header of a new frame, with its number -/
def initBuffer (reliability : Reliability) (tx : TxCommon Sock) :
    UInt64 × TxCommon Sock × Except ZError Unit :=
  let (sn, tx) := tx.getSn cfg reliability
  let (wbuf, ret) := wbufWrite cfg.capacity (frameHeaderWrites sn reliability) (prepareWbuf cfg)
  (sn, { tx with wbuf }, ret)

section Messages

variable (codec : NetworkCodec Msg) (n : ℕ) (msg : Msg) (reliability : Reliability)
  (peers : List Sock)

/-- `_z_transport_tx_batch_overflow` -/
def batchOverflow (prevWpos : ℕ) (tx : TxCommon Sock) :
    Option (TxCommon Sock × Except ZError Unit) :=
  -- the partly encoded message is removed, and the batch sent
  let tx := flushBuffer cfg peers { tx with wbuf := tx.wbuf.take prevWpos }
  match initBuffer cfg reliability tx with
  | (_, tx, .error e) => some (tx, .error e)
  | (sn, tx, .ok ()) =>
    match wbufWrite cfg.capacity (codec.writes msg) tx.wbuf with
    | (wbuf, .error _) =>
      sendFragment cfg n (codec.encode msg) reliability sn peers { tx with wbuf }
    | (wbuf, .ok ()) =>
      if codec.express msg then some (flushBuffer cfg peers { tx with wbuf }, .ok ())
      else some ({ tx with wbuf, batchCount := tx.batchCount + 1 }, .ok ())

/-- `_z_transport_tx_send_n_msg_inner`, on a link with one channel -/
def sendNMsgInner (tx : TxCommon Sock) : Option (TxCommon Sock × Except ZError Unit) :=
  let hasData := tx.batchHasData
  match if hasData then (0, tx, .ok ()) else initBuffer cfg reliability tx with
  | (_, tx, .error e) => some (tx, .error e)
  | (sn, tx, .ok ()) =>
    match wbufWrite cfg.capacity (codec.writes msg) tx.wbuf with
    | (wbuf, .ok ()) =>
      if codec.express msg then some (flushBuffer cfg peers { tx with wbuf }, .ok ())
      else some (flushOrIncrBatch cfg peers { tx with wbuf }, .ok ())
    | (wbuf, .error _) =>
      if hasData then batchOverflow cfg codec n msg reliability peers tx.wbuf.length { tx with wbuf }
      else sendFragment cfg n (codec.encode msg) reliability sn peers { tx with wbuf }

end Messages

/-- `_z_transport_tx_send_t_msg_inner`, of a message whose encoder writes so -/
def sendTMsgInner (tMsg : Writes) (peers : List Sock) (tx : TxCommon Sock) :
    TxCommon Sock × Except ZError Unit :=
  let tx := if tx.batchHasData then flushBuffer cfg peers tx else tx
  match wbufWrite cfg.capacity tMsg (prepareWbuf cfg) with
  | (wbuf, .error e) => ({ tx with wbuf }, .error e)
  | (wbuf, .ok ()) => (flushBuffer cfg peers { tx with wbuf }, .ok ())

/-- `_z_transport_tx_send_n_batch` -/
def txSendNBatch (peers : List Sock) (tx : TxCommon Sock) : TxCommon Sock :=
  if 0 < tx.batchCount then flushBuffer cfg peers tx else tx

/-- `_z_transport_start_batching` -/
def startBatching (tx : TxCommon Sock) : TxCommon Sock × Except ZError Unit :=
  if tx.batchActive then (tx, .error .generic)
  else ({ tx with batchCount := 0, batchActive := true }, .ok ())

/-- `_z_transport_stop_batching` -/
def stopBatching (tx : TxCommon Sock) : TxCommon Sock := { tx with batchActive := false }

/-! ### A codec -/

/-- The encoder and the decoder of a PUSH that puts so many zero bytes on a key of one character -/
def putCodec : NetworkCodec (Fin 64) where
  writes n := [[0x7D], [0x00], [0x01], [0x61], [0x01], zint64Encode (.ofNat n), List.replicate n 0]
  decode := do
    let _ ← readBytes 5
    let payload ← sliceDecode
    fun zbf ↦
      if h : payload.length < 64 then .ok (⟨payload.length, h⟩, zbf)
      else .error .messageDeserializationFailed
  express _ := false
  decode_writes n zbf := by
    have hlen : (List.replicate n.val (0 : UInt8)).length = n.val := length_replicate
    have hslice : sliceDecode (zint64Encode (.ofNat n) ++ List.replicate n.val 0 ++ zbf) =
        .ok (List.replicate n.val 0, zbf) := by
      have hshort : (List.replicate n.val (0 : UInt8)).length < 2 ^ 64 := by
        rw [hlen]
        omega
      have hdecode := sliceDecode_encode hshort zbf
      rwa [sliceEncode, hlen] at hdecode
    have hkey : readBytes 5 ([0x7D, 0x00, 0x01, 0x61, 0x01] ++
        (zint64Encode (.ofNat n) ++ List.replicate n.val 0 ++ zbf)) =
        .ok ([0x7D, 0x00, 0x01, 0x61, 0x01],
          zint64Encode (.ofNat n) ++ List.replicate n.val 0 ++ zbf) := readBytes_append _ _
    have hflatten : [[0x7D], [0x00], [0x01], [0x61], [0x01], zint64Encode (.ofNat n),
        List.replicate n.val 0].flatten ++ zbf = [0x7D, 0x00, 0x01, 0x61, 0x01] ++
        (zint64Encode (.ofNat n) ++ List.replicate n.val 0 ++ zbf) := by simp
    rw [hflatten, Decoder.bind_of_ok hkey, Decoder.bind_of_ok hslice,
      dif_pos (by rw [hlen]; exact n.2)]
    simp only [hlen]
  mid_writes n := ⟨0x7D, _, rfl, by decide⟩

end ZenohPico.Transport
