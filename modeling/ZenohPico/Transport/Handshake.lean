import ZenohPico.Protocol.TransportCodec
import ZenohPico.Transport.SequenceNumber

/-!
The handshake of a unicast transport (`src/transport/unicast/transport.c`), on the side that opens
it.

The side is a function of what its link hands it, one batch after the other. It returns the
parameters it establishes, or its error, with the batches it put on the link. What a failed
read leaves of the parameters is not kept: the callers drop them.

A stream reads the length of a batch and the batch into one buffer, and compares the batch with the
size of the whole buffer: a batch that fills it is written behind its end. `unicastHandshakeOpen`
takes any second message: a wrong one is logged and noted in a result that is not returned.
`handshakeOpen_sound_iff` says on which inputs it nevertheless keeps its promise.
-/

namespace ZenohPico.Transport

open Protocol

/-! ### The link -/

/-- `Z_LINK_CAP_FLOW_STREAM`, `Z_LINK_CAP_FLOW_DATAGRAM` -/
inductive LinkFlow
  | stream
  | datagram
deriving DecidableEq, Repr

/-- The number of bytes in front of a message: `_Z_MSG_LEN_ENC_SIZE` on a stream. -/
def LinkFlow.reserved : LinkFlow → ℕ
  | .stream => 2
  | .datagram => 0

/-- The link of a handshake: the largest write, the flow, and which writes succeed. -/
structure Link where
  mtu : ℕ
  flow : LinkFlow
  accepts : ℕ → Bool

/-- The size of the buffer a message is serialized into -/
def Link.capacity (zl : Link) (cfg : BuildConfig) : ℕ := min zl.mtu cfg.batchUnicastSize.toNat

/-- `_z_link_send_t_msg` as the `k`-th write of the handshake: the bytes on the link. -/
def linkSendTMsg (cfg : BuildConfig) (zl : Link) (k : ℕ) (msg : TransportMessage) :
    Except ZError (List UInt8) :=
  match transportMessageEncode cfg.fragmentation msg with
  | .error e => .error e
  | .ok bytes =>
    if zl.capacity cfg < zl.flow.reserved + bytes.length then .error .messageSerializationFailed
    else if zl.accepts k then .ok bytes
    else .error .transportTxFailed

/-- What the link hands to a reader: a batch, or a failed read. -/
inductive LinkRead
  | batch (bytes : List UInt8)
  | failed
deriving DecidableEq, Repr

/-- How a handshake ends without success: with the error of a call, or not at all, after a write
behind the end of the receive buffer. -/
inductive HandshakeError
  | failed (e : ZError)
  | overrun
deriving DecidableEq, Repr

/-- `_z_transport_message_decode` on what was received -/
def decodeReceived (cfg : BuildConfig) (bytes : List UInt8) :
    Except HandshakeError TransportMessage :=
  match transportMessageDecode cfg.fragmentation bytes with
  | .ok (msg, _) => .ok msg
  | .error e => .error (.failed e)

/-- `_z_link_recv_t_msg`, with the reads left for the next call. A stream refuses a batch that
is larger than the buffer, in which the two bytes of its length are already (`writable` counts them
as read, but they are not given back). A datagram is cut. -/
def linkRecvTMsg (cfg : BuildConfig) (zl : Link) :
    List LinkRead → Except HandshakeError TransportMessage × List LinkRead
  | [] => (.error (.failed .transportRxDurationExpired), [])
  | .failed :: reads => (.error (.failed .transportRxFailed), reads)
  | .batch bytes :: reads =>
    match zl.flow with
    | .stream =>
      if cfg.batchUnicastSize.toNat < 2 then (.error .overrun, reads)
      else if cfg.batchUnicastSize.toNat < bytes.length then
        (.error (.failed .transportNoSpace), reads)
      else if cfg.batchUnicastSize.toNat < 2 + bytes.length then (.error .overrun, reads)
      else (decodeReceived cfg bytes, reads)
    | .datagram => (decodeReceived cfg (bytes.take cfg.batchUnicastSize.toNat), reads)

/-- A batch of this length is written behind the end of the receive buffer of a stream. -/
def OverrunsBuffer (cfg : BuildConfig) (length : ℕ) : Prop :=
  cfg.batchUnicastSize.toNat < 2 ∨
    length ≤ cfg.batchUnicastSize.toNat ∧ cfg.batchUnicastSize.toNat < 2 + length

/-- What is read is written behind the end of the receive buffer. -/
def LinkRead.Overruns (cfg : BuildConfig) (zl : Link) : LinkRead → Prop
  | .batch bytes => zl.flow = .stream ∧ OverrunsBuffer cfg bytes.length
  | .failed => False

/-! ### Parameters -/

/-- `_z_transport_unicast_establish_param_t`; the patch of a build without fragmentation is
`_Z_NO_PATCH`. -/
structure EstablishParam where
  remoteZid : ZenohId
  batchSize : UInt16
  initialSnRx : UInt64
  initialSnTx : UInt64
  lease : UInt64
  remoteWhatami : WhatAmI
  keyIdRes : UInt8
  reqIdRes : UInt8
  seqNumRes : UInt8
  patch : UInt8
deriving DecidableEq, Repr

/-- `{0}`; the source's zero of the role is no role of the list, and is overwritten. -/
def EstablishParam.zero : EstablishParam where
  remoteZid := ZenohId.ofBytes []
  batchSize := 0
  initialSnRx := 0
  initialSnTx := 0
  lease := 0
  remoteWhatami := .reserved
  keyIdRes := 0
  reqIdRes := 0
  seqNumRes := 0
  patch := noPatch

/-- `0x08 << res` in a byte: the number of bits of a resolution. -/
def resolutionBits (res : UInt8) : UInt8 := UInt8.ofNat (0x08 <<< res.toNat)

/-- `_z_sn_modulo_mask`, the table of `_z_sn_max` -/
def snModuloMask (bits : ℕ) : UInt64 := snMax bits

/-- How the union of the bodies reads as a member that was not written -/
structure UnionReading where
  asInit : TransportBody → TMsgInit
  asOpen : TransportBody → TMsgOpen
  asInit_init : ∀ msg, asInit (.init msg) = msg
  asOpen_opening : ∀ msg, asOpen (.opening msg) = msg

/-- The smaller of a lease and `Z_TRANSPORT_LEASE` -/
def cappedLease (cfg : BuildConfig) (lease : UInt64) : UInt64 :=
  if lease < cfg.transportLease then lease else cfg.transportLease

/-! ### Opening -/

/-- The result of comparing an InitAck with the proposal: the error noted last. -/
def initAckResult (cfg : BuildConfig) (ism iam : TMsgInit) : Except ZError Unit :=
  if cfg.fragmentation ∧ ¬ iam.patch ≤ ism.patch then .error .generic
  else if ¬ iam.batchSize ≤ ism.batchSize ∨ ¬ iam.reqIdRes ≤ ism.reqIdRes ∨
      ¬ iam.seqNumRes ≤ ism.seqNumRes then
    .error .transportOpenSnResolution
  else .ok ()

/-- The initial number of a side: a client draws it and masks it with `!mask`. -/
def openInitialSn (mode : WhatAmI) (random : UInt64) (seqNumRes : UInt8) (initialSnTx : UInt64) :
    UInt64 :=
  if mode = .client then
    random &&& (if snModuloMask seqNumRes.toNat = 0 then 1 else 0)
  else initialSnTx

/-- The parameters after an InitAck was taken -/
def takeInitAck (cfg : BuildConfig) (mode : WhatAmI) (random : UInt64) (iam : TMsgInit)
    (param : EstablishParam) : EstablishParam :=
  { param with
    remoteWhatami := iam.whatami
    seqNumRes := iam.seqNumRes
    batchSize := iam.batchSize
    patch := if cfg.fragmentation then iam.patch else noPatch
    keyIdRes := resolutionBits param.keyIdRes
    reqIdRes := resolutionBits iam.reqIdRes
    initialSnTx := openInitialSn mode random iam.seqNumRes param.initialSnTx
    remoteZid := iam.zid }

/-- What a handshake returns, with the batches it put on the link -/
structure HandshakeOutcome where
  result : Except HandshakeError EstablishParam
  sent : List (List UInt8)

/-- The second round of `_z_unicast_handshake_open`: the OpenSyn, and any answer to it. A wrong
answer only sets a result that is then dropped. -/
def handshakeOpenSecond (cfg : BuildConfig) (zl : Link) (u : UnionReading) (param : EstablishParam)
    (cookie first : List UInt8) (reads : List LinkRead) : HandshakeOutcome :=
  let osm := makeOpenSyn cfg.transportLease param.initialSnTx cookie
  match linkSendTMsg cfg zl 1 osm with
  | .error e => { result := .error (.failed e), sent := [first] }
  | .ok second =>
    match (linkRecvTMsg cfg zl reads).1 with
    | .error e => { result := .error e, sent := [first, second] }
    | .ok oam =>
      { result := .ok
          { param with
            lease := cappedLease cfg (u.asOpen oam.body).lease
            initialSnRx := (u.asOpen oam.body).initialSn }
        sent := [first, second] }

/-- `_z_unicast_handshake_open` -/
def unicastHandshakeOpen (cfg : BuildConfig) (zl : Link) (u : UnionReading) (localZid : ZenohId)
    (mode : WhatAmI) (random : UInt64) (param : EstablishParam) (reads : List LinkRead) :
    HandshakeOutcome :=
  match linkSendTMsg cfg zl 0 (makeInitSyn cfg mode localZid) with
  | .error e => { result := .error (.failed e), sent := [] }
  | .ok first =>
    match linkRecvTMsg cfg zl reads with
    | (.error e, _) => { result := .error e, sent := [first] }
    | (.ok iam, reads) =>
      if mid iam.header ≠ 0x01 ∨ ¬ hasFlag iam.header 0x20 then
        { result := .error (.failed .messageUnexpected), sent := [first] }
      else
        match initAckResult cfg (initBody cfg mode localZid []) (u.asInit iam.body) with
        | .error e => { result := .error (.failed e), sent := [first] }
        | .ok () =>
          handshakeOpenSecond cfg zl u (takeInitAck cfg mode random (u.asInit iam.body) param)
            (u.asInit iam.body).cookie first reads

/-! ### Soundness of the opening side -/

/-- A call of `_z_unicast_handshake_open` -/
structure OpenRun where
  cfg : BuildConfig
  zl : Link
  u : UnionReading
  localZid : ZenohId
  mode : WhatAmI
  random : UInt64
  param : EstablishParam
  reads : List LinkRead

namespace OpenRun

variable (r : OpenRun)

/-- The run -/
def outcome : HandshakeOutcome :=
  unicastHandshakeOpen r.cfg r.zl r.u r.localZid r.mode r.random r.param r.reads

/-- The first message received -/
def first : Except HandshakeError TransportMessage := (linkRecvTMsg r.cfg r.zl r.reads).1

/-- The message received after the first one -/
def second : Except HandshakeError TransportMessage :=
  (linkRecvTMsg r.cfg r.zl (linkRecvTMsg r.cfg r.zl r.reads).2).1

end OpenRun

/-- The message is an InitAck. -/
def IsInitAck (msg : TransportMessage) (body : TMsgInit) : Prop :=
  mid msg.header = 0x01 ∧ hasFlag msg.header 0x20 = true ∧ msg.body = .init body

/-- The message is an OpenAck. -/
def IsOpenAck (msg : TransportMessage) (body : TMsgOpen) : Prop :=
  mid msg.header = 0x02 ∧ hasFlag msg.header 0x20 = true ∧ msg.body = .opening body

/-- The parameters, but for the lease, are those of an InitAck and an OpenAck; the request-id
resolution is held as its number of bits. -/
structure EstablishParam.Carries (param : EstablishParam) (iam : TMsgInit) (oam : TMsgOpen) :
    Prop where
  remoteZid : param.remoteZid = iam.zid
  remoteWhatami : param.remoteWhatami = iam.whatami
  initialSnRx : param.initialSnRx = oam.initialSn
  seqNumRes : param.seqNumRes = iam.seqNumRes
  reqIdRes : param.reqIdRes = resolutionBits iam.reqIdRes
  batchSize : param.batchSize = iam.batchSize

namespace OpenRun

variable (r : OpenRun)

/-- Success means that an InitAck and then an OpenAck came in and that the parameters are
theirs, the lease being the carried one as `lease` sees it. Where the buffer is overrun nothing is
known of what is returned. -/
def Sound (lease : UInt64 → UInt64) : Prop :=
  r.outcome.result ≠ .error .overrun ∧ ∀ param, r.outcome.result = .ok param →
    ∃ iam iamBody oam oamBody, r.first = .ok iam ∧ IsInitAck iam iamBody ∧ r.second = .ok oam ∧
      IsOpenAck oam oamBody ∧ param.Carries iamBody oamBody ∧ param.lease = lease oamBody.lease

/-- The first message of this side goes out. -/
def SynSent (bytes : List UInt8) : Prop :=
  linkSendTMsg r.cfg r.zl 0 (makeInitSyn r.cfg r.mode r.localZid) = .ok bytes

/-- The second message of this side, the answer to an InitAck, goes out. -/
def OpenSent (iam : TMsgInit) (bytes : List UInt8) : Prop :=
  linkSendTMsg r.cfg r.zl 1 (makeOpenSyn r.cfg.transportLease
    (openInitialSn r.mode r.random iam.seqNumRes r.param.initialSnTx) iam.cookie) = .ok bytes

/-- The link takes both messages of this side, and the first answer is an InitAck within the
proposal. -/
structure Asked (iam : TMsgInit) : Prop where
  synSent : ∃ bytes, r.SynSent bytes
  ack : ∃ msg, r.first = .ok msg ∧ IsInitAck msg iam
  accepted : initAckResult r.cfg (initBody r.cfg r.mode r.localZid []) iam = .ok ()
  openSent : ∃ bytes, r.OpenSent iam bytes

/-- The link takes both messages of this side, the first answer is an InitAck within the
proposal, and `oam` is the second answer. -/
structure Answered (iam : TMsgInit) (oam : TransportMessage) : Prop extends r.Asked iam where
  answer : r.second = .ok oam

/-- No answer that is read fills the receive buffer of a stream. -/
structure Fitting : Prop where
  first : ∀ bytes, r.SynSent bytes → ∀ read, r.reads.head? = some read → ¬read.Overruns r.cfg r.zl
  second : ∀ iam, r.Asked iam → ∀ read, r.reads.tail.head? = some read → ¬read.Overruns r.cfg r.zl

/-- The parameters after both answers -/
def established (iam : TMsgInit) (oam : TransportMessage) : EstablishParam :=
  { takeInitAck r.cfg r.mode r.random iam r.param with
    lease := cappedLease r.cfg (r.u.asOpen oam.body).lease
    initialSnRx := (r.u.asOpen oam.body).initialSn }

end OpenRun

@[simp] theorem linkRecvTMsg_snd (cfg : BuildConfig) (zl : Link) (reads : List LinkRead) :
    (linkRecvTMsg cfg zl reads).2 = reads.tail := by
  cases reads with
  | nil => rfl
  | cons read reads =>
    cases read with
    | failed => rfl
    | batch bytes =>
      rw [linkRecvTMsg]
      split
      · split_ifs <;> rfl
      · rfl

variable {cfg : BuildConfig}

theorem decodeReceived_eq_ok_iff {bytes : List UInt8} {msg : TransportMessage} :
    decodeReceived cfg bytes = .ok msg ↔
      ∃ rest, transportMessageDecode cfg.fragmentation bytes = .ok (msg, rest) := by
  rw [decodeReceived]
  cases transportMessageDecode cfg.fragmentation bytes with
  | error e => simp
  | ok p =>
    constructor
    · intro h
      cases h
      exact ⟨p.2, rfl⟩
    · rintro ⟨rest, h⟩
      cases h
      rfl

theorem decodeReceived_ne_overrun (cfg : BuildConfig) (bytes : List UInt8) :
    decodeReceived cfg bytes ≠ .error .overrun := by
  rw [decodeReceived]
  split <;> simp

variable {reads : List LinkRead}

/-- The buffer is overrun exactly by a batch that fills it. -/
theorem linkRecvTMsg_eq_overrun_iff {zl : Link} : (linkRecvTMsg cfg zl reads).1 = .error .overrun ↔
      ∃ read, reads.head? = some read ∧ read.Overruns cfg zl := by
  cases reads with
  | nil => simp [linkRecvTMsg]
  | cons read reads =>
    simp only [List.head?_cons, Option.some.injEq, exists_eq_left']
    cases read with
    | failed => simp [linkRecvTMsg, LinkRead.Overruns]
    | batch bytes =>
      rw [linkRecvTMsg, LinkRead.Overruns]
      cases hflow : zl.flow with
      | datagram => simp [decodeReceived_ne_overrun]
      | stream =>
        rw [OverrunsBuffer]
        dsimp only
        split_ifs with hsmall hlarge hfull
        · simp [hsmall]
        · simp only [Except.error.injEq, reduceCtorEq, true_and, false_iff]
          omega
        · simp only [true_and, true_iff]
          omega
        · simp only [decodeReceived_ne_overrun, true_and, false_iff]
          omega

/-- A received message that says it is an INIT is one. -/
theorem linkRecvTMsg_body_init {zl : Link} {msg : TransportMessage}
    (h : (linkRecvTMsg cfg zl reads).1 = .ok msg) (hmid : mid msg.header = 0x01) :
    ∃ body, msg.body = .init body := by
  have hdecode : ∀ bytes : List UInt8, decodeReceived cfg bytes = .ok msg →
      ∃ body, msg.body = .init body := by
    intro bytes hbytes
    obtain ⟨rest, hrest⟩ := decodeReceived_eq_ok_iff.mp hbytes
    exact transportMessageDecode_body_init hrest hmid
  cases reads with
  | nil => cases h
  | cons read reads =>
    cases read with
    | failed => cases h
    | batch bytes =>
      cases hflow : zl.flow with
      | stream =>
        simp only [linkRecvTMsg, hflow] at h
        split_ifs at h
        exact hdecode bytes h
      | datagram =>
        simp only [linkRecvTMsg, hflow] at h
        exact hdecode _ h

namespace OpenRun

variable {r : OpenRun} {iam : TMsgInit} {first second : List UInt8}

/-- With its first message out, the run ends where the first answer overruns the buffer. -/
theorem outcome_of_first_overrun (hfirst : r.SynSent first) (h : r.first = .error .overrun) :
    r.outcome = { result := .error .overrun, sent := [first] } := by
  cases hrecv : linkRecvTMsg r.cfg r.zl r.reads with
  | mk answer reads =>
    rw [OpenRun.first, hrecv] at h
    rw [SynSent] at hfirst
    simp only [] at h
    subst h
    simp only [outcome, unicastHandshakeOpen, hfirst, hrecv]

/-- With both its messages out and an InitAck within the proposal, the run is what is read next. -/
theorem outcome_of_asked (h : r.Asked iam) (hfirst : r.SynSent first)
    (hsecond : r.OpenSent iam second) : r.outcome = match r.second with
      | .error e => { result := .error e, sent := [first, second] }
      | .ok oam => { result := .ok (r.established iam oam), sent := [first, second] } := by
  obtain ⟨-, ⟨msg, hmsg, hmid, hack, hbody⟩, hresult, -⟩ := h
  rw [SynSent] at hfirst
  rw [OpenSent] at hsecond
  cases hrecv : linkRecvTMsg r.cfg r.zl r.reads with
  | mk answer reads =>
    rw [OpenRun.first, hrecv] at hmsg
    rw [OpenRun.second, hrecv]
    simp only [] at hmsg ⊢
    subst hmsg
    have hkind : ¬ (mid msg.header ≠ 0x01 ∨ ¬ hasFlag msg.header 0x20 = true) := by
      rintro (hne | hne)
      · exact hne hmid
      · exact hne hack
    have hsn : (takeInitAck r.cfg r.mode r.random iam r.param).initialSnTx =
        openInitialSn r.mode r.random iam.seqNumRes r.param.initialSnTx := rfl
    simp only [outcome, unicastHandshakeOpen, hfirst, hrecv, if_neg hkind, hbody,
      r.u.asInit_init, hresult, handshakeOpenSecond, established, hsn, hsecond]

/-- With both its messages out, an InitAck within the proposal and any message at all after it,
the handshake succeeds. -/
theorem outcome_of_answered {oam : TransportMessage} (h : r.Answered iam oam)
    (hfirst : r.SynSent first) (hsecond : r.OpenSent iam second) :
    r.outcome = { result := .ok (r.established iam oam), sent := [first, second] } := by
  rw [outcome_of_asked h.toAsked hfirst hsecond, h.answer]

/-- How a run ends: after no message of its own, after the first with the first answer, or after
both with the second answer. -/
inductive Ends (r : OpenRun) : HandshakeOutcome → Prop
  | unsent (e : ZError) : r.Ends { result := .error (.failed e), sent := [] }
  | failed (first : List UInt8) (e : ZError) (hfirst : r.SynSent first) :
      r.Ends { result := .error (.failed e), sent := [first] }
  | overrun (first : List UInt8) (hfirst : r.SynSent first) (h : r.first = .error .overrun) :
      r.Ends { result := .error .overrun, sent := [first] }
  | asked (iam : TMsgInit) (first second : List UInt8) (h : r.Asked iam)
      (hfirst : r.SynSent first) (hsecond : r.OpenSent iam second) : r.Ends r.outcome

theorem outcome_ends (r : OpenRun) : r.Ends r.outcome := by
  cases hfirst : linkSendTMsg r.cfg r.zl 0 (makeInitSyn r.cfg r.mode r.localZid) with
  | error e =>
    have houtcome : r.outcome = { result := .error (.failed e), sent := [] } := by
      simp only [outcome, unicastHandshakeOpen, hfirst]
    rw [houtcome]
    exact .unsent e
  | ok first =>
    cases hrecv : linkRecvTMsg r.cfg r.zl r.reads with
    | mk answer reads =>
      have hread : r.first = answer := by rw [OpenRun.first, hrecv]
      cases answer with
      | error e =>
        have houtcome : r.outcome = { result := .error e, sent := [first] } := by
          simp only [outcome, unicastHandshakeOpen, hfirst, hrecv]
        rw [houtcome]
        cases e with
        | failed e => exact .failed first e hfirst
        | overrun => exact .overrun first hfirst hread
      | ok msg =>
        have houtcome := rfl (a := r.outcome)
        conv at houtcome =>
          rhs
          simp only [outcome, unicastHandshakeOpen, hfirst, hrecv]
        split_ifs at houtcome with hkind
        · rw [houtcome]
          exact .failed first _ hfirst
        · have hmid : mid msg.header = 0x01 := by
            by_contra hne
            exact hkind (.inl hne)
          have hack : hasFlag msg.header 0x20 = true := by
            by_contra hne
            exact hkind (.inr hne)
          obtain ⟨body, hbody⟩ := linkRecvTMsg_body_init hread hmid
          rw [hbody, r.u.asInit_init] at houtcome
          cases hresult : initAckResult r.cfg (initBody r.cfg r.mode r.localZid []) body with
          | error e =>
            rw [hresult] at houtcome
            rw [houtcome]
            exact .failed first _ hfirst
          | ok u =>
            rw [hresult] at houtcome
            cases hsecond : linkSendTMsg r.cfg r.zl 1 (makeOpenSyn r.cfg.transportLease
                (openInitialSn r.mode r.random body.seqNumRes r.param.initialSnTx)
                body.cookie) with
            | error e =>
              have hsn : (takeInitAck r.cfg r.mode r.random body r.param).initialSnTx =
                  openInitialSn r.mode r.random body.seqNumRes r.param.initialSnTx := rfl
              simp only [handshakeOpenSecond, hsn, hsecond] at houtcome
              rw [houtcome]
              exact .failed first _ hfirst
            | ok second =>
              exact .asked body first second ⟨⟨first, hfirst⟩, ⟨msg, hread, hmid, hack, hbody⟩,
                hresult, ⟨second, hsecond⟩⟩ hfirst hsecond

/-- The handshake succeeds exactly when both its messages went out, an InitAck within the
proposal came in, and any message at all after it. -/
theorem result_eq_ok_iff (r : OpenRun) (param : EstablishParam) : r.outcome.result = .ok param ↔
      ∃ iam oam, r.Answered iam oam ∧ param = r.established iam oam := by
  constructor
  · intro h
    have hends := r.outcome_ends
    generalize houtcome : r.outcome = outcome at h hends
    cases hends with
    | unsent e => cases h
    | failed first e => cases h
    | overrun first => cases h
    | asked iam first second hasked hfirst hsecond =>
      rw [outcome_of_asked hasked hfirst hsecond] at h
      cases hanswer : r.second with
      | error e =>
        rw [hanswer] at h
        cases h
      | ok oam =>
        rw [hanswer] at h
        exact ⟨iam, oam, ⟨hasked, hanswer⟩, (Except.ok.inj h).symm⟩
  · rintro ⟨iam, oam, hanswered, rfl⟩
    obtain ⟨first, hfirst⟩ := hanswered.synSent
    obtain ⟨second, hsecond⟩ := hanswered.openSent
    rw [outcome_of_answered hanswered hfirst hsecond]

/-- The buffer is overrun exactly when an answer that is read fills it. -/
theorem result_ne_overrun_iff (r : OpenRun) : r.outcome.result ≠ .error .overrun ↔ r.Fitting := by
  constructor
  · intro hne
    refine ⟨fun first hfirst read hread hoverruns ↦ hne ?_,
      fun iam hasked read hread hoverruns ↦ hne ?_⟩
    · rw [outcome_of_first_overrun hfirst
        (linkRecvTMsg_eq_overrun_iff.mpr ⟨read, hread, hoverruns⟩)]
    · obtain ⟨first, hfirst⟩ := hasked.synSent
      obtain ⟨second, hsecond⟩ := hasked.openSent
      have hanswer : r.second = .error .overrun := by
        rw [OpenRun.second, linkRecvTMsg_snd]
        exact linkRecvTMsg_eq_overrun_iff.mpr ⟨read, hread, hoverruns⟩
      rw [outcome_of_asked hasked hfirst hsecond, hanswer]
  · intro hfitting h
    have hends := r.outcome_ends
    generalize houtcome : r.outcome = outcome at h hends
    cases hends with
    | unsent e => cases h
    | failed first e => cases h
    | overrun first hfirst hread =>
      obtain ⟨read, hmem, hoverruns⟩ := linkRecvTMsg_eq_overrun_iff.mp hread
      exact hfitting.first first hfirst read hmem hoverruns
    | asked iam first second hasked hfirst hsecond =>
      rw [outcome_of_asked hasked hfirst hsecond] at h
      cases hanswer : r.second with
      | ok oam =>
        rw [hanswer] at h
        cases h
      | error e =>
        rw [hanswer] at h
        obtain rfl := Except.error.inj h
        rw [OpenRun.second, linkRecvTMsg_snd] at hanswer
        obtain ⟨read, hmem, hoverruns⟩ := linkRecvTMsg_eq_overrun_iff.mp hanswer
        exact hfitting.second iam hasked read hmem hoverruns

end OpenRun

/-- A lease is not changed by the cap exactly when it is at most the cap. -/
theorem cappedLease_eq_self_iff (cfg : BuildConfig) (lease : UInt64) :
    cappedLease cfg lease = lease ↔ lease ≤ cfg.transportLease := by
  rw [cappedLease]
  split
  · next hlt => exact ⟨fun _ ↦ UInt64.le_of_lt hlt, fun _ ↦ rfl⟩
  · next hge =>
    constructor
    · intro heq
      exact UInt64.le_of_eq heq.symm
    · intro hle
      exact UInt64.le_antisymm (UInt64.not_lt.mp hge) hle

namespace OpenRun

variable {r : OpenRun} {iam : TMsgInit} {oam : TransportMessage}

theorem carries_established {body : TMsgOpen} (hbody : oam.body = .opening body) :
    (r.established iam oam).Carries iam body where
  remoteZid := rfl
  remoteWhatami := rfl
  initialSnRx := by rw [established, hbody, r.u.asOpen_opening]
  seqNumRes := rfl
  reqIdRes := rfl
  batchSize := rfl

theorem lease_established {body : TMsgOpen} (hbody : oam.body = .opening body) :
    (r.established iam oam).lease = cappedLease r.cfg body.lease := by
  rw [established, hbody, r.u.asOpen_opening]

/-- Success is sound when no answer fills the buffer and every answer that is accepted is an
OpenAck with a lease that is returned as `lease` has it, and only then. -/
theorem sound_iff (lease : UInt64 → UInt64) :
    r.Sound lease ↔ r.Fitting ∧ ∀ iam oam, r.Answered iam oam →
      ∃ body, IsOpenAck oam body ∧ cappedLease r.cfg body.lease = lease body.lease := by
  rw [Sound, result_ne_overrun_iff]
  refine and_congr_right fun _ ↦ ?_
  constructor
  · intro hsound iam oam hanswered
    obtain ⟨iam', iamBody, oam', body, -, -, hsecond, hack, -, hlease⟩ :=
      hsound _ ((result_eq_ok_iff r _).mpr ⟨iam, oam, hanswered, rfl⟩)
    rw [hanswered.answer] at hsecond
    cases hsecond
    exact ⟨body, hack, by rw [← hlease, lease_established hack.2.2]⟩
  · intro hall param hparam
    obtain ⟨iam, oam, hanswered, rfl⟩ := (result_eq_ok_iff r param).mp hparam
    obtain ⟨body, hack, hlease⟩ := hall iam oam hanswered
    obtain ⟨msg, hmsg, hinit⟩ := hanswered.ack
    exact ⟨msg, iam, oam, body, hmsg, hinit, hanswered.answer, hack,
      carries_established hack.2.2, by rw [lease_established hack.2.2, hlease]⟩

end OpenRun

/-- The handshake of the opening side returns success only after an InitAck and an OpenAck and
with their parameters exactly when no answer that it reads fills the buffer and the second answer,
where one is reached, is an OpenAck whose lease is at most the side's own. The cap on the lease
apart, it is enough that the second answer is an OpenAck. -/
theorem handshakeOpen_sound_iff (r : OpenRun) :
    (r.Sound id ↔ r.Fitting ∧ ∀ iam oam, r.Answered iam oam →
      ∃ body, IsOpenAck oam body ∧ body.lease ≤ r.cfg.transportLease) ∧
    (r.Sound (cappedLease r.cfg) ↔ r.Fitting ∧ ∀ iam oam, r.Answered iam oam →
      ∃ body, IsOpenAck oam body) := by
  constructor
  · simp only [OpenRun.sound_iff, id_eq, cappedLease_eq_self_iff]
  · simp only [OpenRun.sound_iff, and_true]

/-- A build with the default settings -/
def sampleConfig : BuildConfig where
  protoVersion := 0x09
  snResolution := 2
  snResolution_le := by decide
  reqResolution := 2
  reqResolution_le := by decide
  batchUnicastSize := 2048
  transportLease := 10000
  fragmentation := false

/-- A reading of the union that finds zeros in the members that were not written -/
def zeroReading : UnionReading where
  asInit
    | .init msg => msg
    | _ =>
      { zid := ZenohId.ofBytes [], cookie := [], batchSize := 0, whatami := .router
        reqIdRes := 0, seqNumRes := 0, version := 0, patch := 0 }
  asOpen
    | .opening msg => msg
    | _ => { lease := 0, initialSn := 0, cookie := [] }
  asInit_init _ := rfl
  asOpen_opening _ := rfl

/-- An InitAck answered by a keep-alive message instead of an OpenAck -/
def keepAliveRun : OpenRun where
  cfg := sampleConfig
  zl := { mtu := 65535, flow := .stream, accepts := fun _ ↦ true }
  u := zeroReading
  localZid := ZenohId.ofBytes [1]
  mode := .client
  random := 0
  param := EstablishParam.zero
  reads := [.batch [0x61, 0x09, 0x01, 0x07, 0x0A, 0x00, 0x08, 0x00], .batch [0x04]]

theorem keepAliveRun_unsound (lease : UInt64 → UInt64) : ¬ keepAliveRun.Sound lease := by
  intro hsound
  have hsecond : keepAliveRun.second = .ok { header := 0x04, body := .keepAlive } := by
    decide +kernel
  obtain ⟨param, hparam⟩ : ∃ param, keepAliveRun.outcome.result = .ok param := by
    have hok : keepAliveRun.outcome.result.toBool = true := by decide +kernel
    cases hresult : keepAliveRun.outcome.result with
    | error e =>
      rw [hresult] at hok
      cases hok
    | ok param => exact ⟨param, rfl⟩
  obtain ⟨iam, iamBody, oam, oamBody, -, -, hoam, hack, -, -⟩ := hsound.2 param hparam
  rw [hsecond] at hoam
  cases hoam
  exact absurd hack.1 (by decide)

/-- A keep-alive message in the place of the OpenAck opens the transport. -/
theorem keepAliveRun_not_sound :
    ¬ keepAliveRun.Sound id ∧ ¬ keepAliveRun.Sound (cappedLease keepAliveRun.cfg) :=
  ⟨keepAliveRun_unsound id, keepAliveRun_unsound _⟩

end ZenohPico.Transport
