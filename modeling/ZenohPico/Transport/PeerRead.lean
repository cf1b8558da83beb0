import ZenohPico.Transport.UnicastRead

/-!
Reading from the peers of a peer (`_z_unicast_peer_read`, `_z_unicast_handle_remaining_data` and
`_zp_unicast_process_peer_event` of `src/transport/unicast/read.c`).

The main buffer is shared by all peers and reset after each of them, so what is left of a batch
waits in the flow state of its peer: a first length byte, or the batch so far in a buffer of its
own. The readers of a streamed link are modelled, with buffers that can always be allocated.

A read that completes a batch after the first byte of its length leaves the flow state as it
was when nothing follows, and the next length is then misread (`peerRead_delivers`,
`boundaryRead_not_delivered`).
-/

namespace ZenohPico.Transport

open Protocol List

/-! ### The reader -/

/-- `_Z_UNICAST_PEER_READ_STATUS_...`, with the size of the batch to read -/
inductive PeerReadStatus
  | ok (toRead : ℕ)
  | pendingData
  | socketClosed
deriving DecidableEq, Repr

/-- A batch that is not there as a whole goes to the flow buffer of its peer. -/
def pendData (r : UnicastReader) (size : UInt16) : UnicastReader :=
  { r with peer := {
      flowState := .pendingData
      flowCurrSize := size
      flowBuff := (ZBuf.make size.toNat).copyBytes r.zbuf } }

/-- `_z_unicast_handle_remaining_data`, with the size of the next batch when it is all there -/
def unicastHandleRemainingData (r : UnicastReader) (extraSize : ℕ) : Option ℕ × UnicastReader :=
  if extraSize < msgLenEncSize then
    let (b, zbuf) := r.zbuf.read
    (none, { r with
      zbuf, peer := { r.peer with flowState := .pendingSize, flowCurrSize := b.toUInt16 } })
  else
    let (toRead, zbuf) := r.zbuf.readStreamSize
    let r := { r with zbuf }
    if r.zbuf.len < toRead then (none, pendData r (UInt16.ofNat toRead)) else (some toRead, r)

/-- `_z_unicast_peer_read` in flow state `_Z_FLOW_STATE_INACTIVE` -/
def unicastPeerReadInactive (r : UnicastReader) (readiness : Readiness) :
    PeerReadStatus × UnicastReader :=
  let (readSize, socket, zbuf) := linkSocketRecvZbuf r.socket r.zbuf readiness
  let r := { r with socket, zbuf }
  match readSize with
  | none => (.pendingData, r)
  | some 0 => (.socketClosed, r)
  | some _ =>
    if r.zbuf.len < msgLenEncSize then
      let (b, zbuf) := r.zbuf.read
      (.pendingData, { r with
        zbuf, peer := { r.peer with flowState := .pendingSize, flowCurrSize := b.toUInt16 } })
    else
      let (toRead, zbuf) := r.zbuf.readStreamSize
      let r := { r with zbuf }
      if r.zbuf.len < toRead then (.pendingData, pendData r (UInt16.ofNat toRead))
      else (.ok toRead, r)

/-- `_z_unicast_peer_read` in flow state `_Z_FLOW_STATE_PENDING_SIZE` -/
def unicastPeerReadPendingSize (r : UnicastReader) (readiness : Readiness) :
    PeerReadStatus × UnicastReader :=
  let (readSize, socket, zbuf) := linkSocketRecvZbuf r.socket r.zbuf readiness
  let r := { r with socket, zbuf }
  match readSize with
  | none => (.pendingData, r)
  | some 0 => (.socketClosed, r)
  | some _ =>
    let (b, zbuf) := r.zbuf.read
    let size := r.peer.flowCurrSize + b.toUInt16 <<< 8
    let r := { r with zbuf, peer := { r.peer with flowCurrSize := size } }
    if r.zbuf.len < size.toNat then (.pendingData, pendData r size) else (.ok size.toNat, r)

/-- `_z_unicast_peer_read` in flow state `_Z_FLOW_STATE_PENDING_DATA` -/
def unicastPeerReadPendingData (r : UnicastReader) (readiness : Readiness) :
    PeerReadStatus × UnicastReader :=
  let (readSize, socket, flowBuff) := linkSocketRecvZbuf r.socket r.peer.flowBuff readiness
  let r := { r with socket, peer := { r.peer with flowBuff } }
  match readSize with
  | none => (.pendingData, r)
  | some 0 => (.socketClosed, r)
  | some _ =>
    let toRead := r.peer.flowCurrSize.toNat
    if flowBuff.len < toRead then (.pendingData, r)
    else (.ok toRead, { r with peer := { r.peer with flowState := .ready } })

/-- `_z_unicast_peer_read` -/
def unicastPeerRead (r : UnicastReader) (readiness : Readiness) : PeerReadStatus × UnicastReader :=
  match r.peer.flowState with
  | .ready =>
    unicastPeerReadInactive
      { r with peer := { flowState := .inactive, flowCurrSize := 0, flowBuff := .null } } readiness
  | .inactive => unicastPeerReadInactive r readiness
  | .pendingSize => unicastPeerReadPendingSize r readiness
  | .pendingData => unicastPeerReadPendingData r readiness

theorem len_unicastUpdateRxBuffer (zbf : ZBuf) (result : Processed) :
    (unicastUpdateRxBuffer zbf result).len = zbf.len := by
  rw [← ZBuf.length_readable, readable_unicastUpdateRxBuffer, ZBuf.length_readable]

theorem len_unicastProcessMessages_le (session : Session) (r : UnicastReader) (toRead : ℕ) :
    (unicastProcessMessages session r toRead).zbuf.len ≤ r.zbuf.len := by
  simp only [unicastProcessMessages]
  split_ifs <;> simp [len_unicastUpdateRxBuffer]

variable {r' : UnicastReader}

theorem len_unicastHandleRemainingData {r : UnicastReader} {toRead : ℕ}
    (h : unicastHandleRemainingData r r.zbuf.len = (some toRead, r')) :
    r'.zbuf.len < r.zbuf.len := by
  simp only [unicastHandleRemainingData] at h
  split_ifs at h with hextra hshort
  · cases h
  · cases h
  · obtain ⟨-, rfl⟩ := Prod.mk.injEq .. ▸ h
    simp only [ZBuf.readStreamSize_snd, ZBuf.len_skip]
    simp only [msgLenEncSize] at hextra
    omega

/-- The loop of `_zp_unicast_process_peer_event` over the batches in the buffer -/
def processLoop (session : Session) (toRead : ℕ) (r : UnicastReader) : UnicastReader :=
  let r' := unicastProcessMessages session r toRead
  if r'.delivery.dropped then r'
  else if r'.peer.flowState = .ready then r'
  else if r'.zbuf.len = 0 then r'
  else
    match _h : unicastHandleRemainingData r' r'.zbuf.len with
    | (some toRead', r'') => processLoop session toRead' r''
    | (none, r'') => r''
termination_by r.zbuf.len
decreasing_by
  exact (len_unicastHandleRemainingData _h).trans_le (len_unicastProcessMessages_le session r toRead)

/-- `_zp_unicast_process_peer_event` for one peer whose socket is ready. A peer that is dropped
is no longer read from. -/
def processPeerEvent (session : Session) (r : UnicastReader) (readiness : Readiness) :
    UnicastReader :=
  if r.delivery.dropped then r
  else
    let r :=
      match unicastPeerRead r readiness with
      | (.ok toRead, r) => processLoop session toRead r
      | (.pendingData, r) => r
      | (.socketClosed, r) => { r with delivery := { r.delivery with dropped := true } }
    { r with zbuf := r.zbuf.reset }

/-- The room for a read: in the flow buffer of a batch that is waited for, or in the main buffer -/
def UnicastReader.room (r : UnicastReader) : ℕ :=
  match r.peer.flowState with
  | .pendingData => r.peer.flowBuff.spaceLeft
  | _ => r.zbuf.spaceLeft

/-- Reading a stream of batches from a peer, each read as the socket happens to be -/
def runPeerReads (session : Session) (capacity : ℕ) (batches : List (List UInt8))
    (reads : List Readiness) : UnicastReader :=
  reads.foldl (processPeerEvent session) (.init capacity batches)

/-! ### The socket of a peer -/

theorem linkSocketRecvZbuf_socket (socket : Socket) (zbf : ZBuf) (readiness : Readiness) :
    (linkSocketRecvZbuf socket zbf readiness).2.1 = (socket.recv zbf.spaceLeft readiness).2 := by
  rw [linkSocketRecvZbuf]
  split
  · next h => rw [h]
  · next h => rw [h]

theorem unicastHandleRemainingData_socket (r : UnicastReader) (extraSize : ℕ) :
    (unicastHandleRemainingData r extraSize).2.socket = r.socket := by
  simp only [unicastHandleRemainingData]
  split_ifs <;> rfl

/-- The loop over the batches in the buffer does not read. -/
theorem processLoop_socket (session : Session) (toRead : ℕ) (r : UnicastReader) :
    (processLoop session toRead r).socket = r.socket := by
  induction toRead, r using processLoop.induct session with
  | case1 toRead r r' hdropped =>
    rw [processLoop, if_pos hdropped]
    exact socket_unicastProcessMessages
  | case2 toRead r r' hdropped hready =>
    rw [processLoop, if_neg hdropped, if_pos hready]
    exact socket_unicastProcessMessages
  | case3 toRead r r' hdropped hready hempty =>
    rw [processLoop, if_neg hdropped, if_neg hready, if_pos hempty]
    exact socket_unicastProcessMessages
  | case4 toRead r r' hdropped hready hempty toRead' r'' heq ih =>
    have hsocket := unicastHandleRemainingData_socket r' r'.zbuf.len
    rw [heq] at hsocket
    rw [processLoop, if_neg hdropped, if_neg hready, if_neg hempty]
    split
    · next toRead₁ r₁ heq₁ =>
      rw [heq] at heq₁
      cases heq₁
      exact ih.trans (hsocket.trans socket_unicastProcessMessages)
    · next r₁ heq₁ =>
      rw [heq] at heq₁
      cases heq₁
  | case5 toRead r r' hdropped hready hempty r'' heq =>
    have hsocket := unicastHandleRemainingData_socket r' r'.zbuf.len
    rw [heq] at hsocket
    rw [processLoop, if_neg hdropped, if_neg hready, if_neg hempty]
    split
    · next toRead₁ r₁ heq₁ =>
      rw [heq] at heq₁
      cases heq₁
    · next r₁ heq₁ =>
      rw [heq] at heq₁
      cases heq₁
      exact hsocket.trans socket_unicastProcessMessages

/-- A read takes from the socket what has arrived, as far as there is room. -/
theorem unicastPeerRead_socket (r : UnicastReader) (readiness : Readiness) :
    (unicastPeerRead r readiness).2.socket = (r.socket.recv r.room readiness).2 := by
  rw [unicastPeerRead, UnicastReader.room]
  cases hstate : r.peer.flowState with
  | inactive =>
    rw [← linkSocketRecvZbuf_socket]
    simp only [unicastPeerReadInactive]
    split
    · rfl
    · rfl
    · split_ifs <;> rfl
  | pendingSize =>
    rw [← linkSocketRecvZbuf_socket]
    simp only [unicastPeerReadPendingSize]
    split
    · rfl
    · rfl
    · split_ifs <;> rfl
  | pendingData =>
    rw [← linkSocketRecvZbuf_socket]
    simp only [unicastPeerReadPendingData]
    split
    · rfl
    · rfl
    · split_ifs <;> rfl
  | ready =>
    rw [← linkSocketRecvZbuf_socket]
    simp only [unicastPeerReadInactive]
    split
    · rfl
    · rfl
    · split_ifs <;> rfl

theorem processPeerEvent_socket (session : Session) {r : UnicastReader}
    (halive : r.delivery.dropped = false) (readiness : Readiness) :
    (processPeerEvent session r readiness).socket = (r.socket.recv r.room readiness).2 := by
  have hsocket := unicastPeerRead_socket r readiness
  rw [processPeerEvent, if_neg (by rw [halive]; exact Bool.false_ne_true)]
  dsimp only
  rw [← hsocket]
  rcases unicastPeerRead r readiness with ⟨_ | _ | _, r'⟩
  · exact processLoop_socket session _ r'
  · rfl
  · rfl

/-! ### The flow state of a peer -/

/-- The flow state of a peer holds the bytes of a batch that was received in part. -/
inductive Flow (peer : TransportPeerUnicast) : List UInt8 → Prop
  | inactive (hstate : peer.flowState = .inactive) : Flow peer []
  | ready (hstate : peer.flowState = .ready) : Flow peer []
  | pendingSize (hstate : peer.flowState = .pendingSize) (b : UInt8)
      (hsize : peer.flowCurrSize = b.toUInt16) : Flow peer [b]
  | pendingData (hstate : peer.flowState = .pendingData) (size : List UInt8)
      (hlength : size.length = msgLenEncSize)
      (hsize : batchFraming.decode size = peer.flowCurrSize.toNat)
      (hshort : peer.flowBuff.readable.length < peer.flowCurrSize.toNat)
      (hcapacity : peer.flowBuff.capacity = peer.flowCurrSize.toNat)
      (hrPos : peer.flowBuff.rPos = 0) : Flow peer (size ++ peer.flowBuff.readable)

variable {peer : TransportPeerUnicast}

theorem Flow.length_of_pendingSize {rest : List UInt8} (h : Flow peer rest)
    (hstate : peer.flowState = .pendingSize) : rest.length = 1 := by
  cases h with
  | inactive hstate' => simp [hstate'] at hstate
  | ready hstate' => simp [hstate'] at hstate
  | pendingSize _ b _ => rfl
  | pendingData hstate' size _ _ _ _ _ => simp [hstate'] at hstate

section Spec

variable {session : Session} {done pending : List (List UInt8)} {rest size tail : List UInt8}
  {r : UnicastReader} {toRead : ℕ}

variable {delivery : Delivery} {socket : Socket}

/-- What the flow state holds is no whole batch. -/
theorem Flow.complete_eq_nil (h : Flow peer rest)
    (hat : StreamAt session done pending rest delivery socket) :
    batchFraming.complete rest.length pending = [] := by
  cases h with
  | inactive _ => exact StreamAt.complete_eq_nil_of_length_lt (by decide)
  | ready _ => exact StreamAt.complete_eq_nil_of_length_lt (by decide)
  | pendingSize _ b _ => exact StreamAt.complete_eq_nil_of_length_lt Nat.one_lt_two
  | pendingData _ size hlength hsize hshort _ _ =>
    exact hat.complete_eq_nil rfl hlength (hsize ▸ hshort)

/-- The length of a batch fits the flow state. -/
theorem StreamAt.decode_lt (hat : StreamAt session done pending rest delivery socket)
    (hrest : rest = size ++ tail) (hlength : size.length = msgLenEncSize) :
    batchFraming.decode size < 2 ^ 16 := by
  obtain ⟨b, pending', hpending, hdecode, -⟩ := hat.head hrest hlength
  rw [hdecode]
  exact hat.length_lt b (hpending ▸ mem_cons_self)

/-- A batch that is not all there is kept in the flow buffer. -/
theorem flow_pendData {n : UInt16} (hlength : size.length = msgLenEncSize)
    (hn : batchFraming.decode size = n.toNat) (hshort : r.zbuf.len < n.toNat) :
    Flow (pendData r n).peer (size ++ r.zbuf.readable) := by
  have hreadable : (pendData r n).peer.flowBuff.readable = r.zbuf.readable := by
    have hspace : r.zbuf.readable.length ≤ (ZBuf.make n.toNat).spaceLeft := by
      rw [ZBuf.length_readable]
      exact hshort.le
    simp only [pendData, ZBuf.copyBytes, ZBuf.readable_write _ hspace, ZBuf.readable_make,
      nil_append]
  rw [← hreadable]
  refine .pendingData rfl size hlength hn ?_ rfl rfl
  rw [hreadable, ZBuf.length_readable]
  exact hshort

/-- What `_z_unicast_handle_remaining_data` makes of the bytes after a batch. -/
theorem unicastHandleRemainingData_spec
    (hat : StreamAt session done pending r.zbuf.readable r.delivery r.socket)
    (hextra : r.zbuf.len ≠ 0) : (unicastHandleRemainingData r r.zbuf.len).2.socket = r.socket ∧
    (unicastHandleRemainingData r r.zbuf.len).2.delivery = r.delivery ∧
    (unicastHandleRemainingData r r.zbuf.len).2.zbuf.capacity = r.zbuf.capacity ∧
    match unicastHandleRemainingData r r.zbuf.len with
    | (none, r') => Flow r'.peer r.zbuf.readable
    | (some toRead, r') => r'.peer = r.peer ∧ toRead ≤ r'.zbuf.readable.length ∧
        ∃ size, size.length = msgLenEncSize ∧ batchFraming.decode size = toRead ∧
          r.zbuf.readable = size ++ r'.zbuf.readable := by
  rw [← ZBuf.length_readable] at hextra ⊢
  rcases hreadable : r.zbuf.readable with _ | ⟨b₀, _ | ⟨b₁, tail⟩⟩
  · rw [hreadable] at hextra
    exact absurd rfl hextra
  · refine ⟨rfl, rfl, rfl, ?_⟩
    exact .pendingSize rfl b₀ (by simp [hreadable])
  · have hextra' : ¬(b₀ :: b₁ :: tail).length < msgLenEncSize := by
      simp [msgLenEncSize]
    have hsize := r.zbuf.readStreamSize_fst hreadable
    have htail : (r.zbuf.skip 2).readable = tail := by
      rw [ZBuf.readable_skip, hreadable]
      rfl
    have hsplit : r.zbuf.readable = [b₀, b₁] ++ tail := hreadable
    have hlt : ZBuf.hostLeLoad16 b₀ b₁ < 2 ^ 16 :=
      StreamAt.decode_lt hat hsplit rfl
    simp only [unicastHandleRemainingData, if_neg hextra', hsize, ZBuf.readStreamSize_snd]
    by_cases hshort : (r.zbuf.skip 2).len < ZBuf.hostLeLoad16 b₀ b₁
    · simp only [if_pos hshort]
      refine ⟨rfl, rfl, rfl, ?_⟩
      have hn : (UInt16.ofNat (ZBuf.hostLeLoad16 b₀ b₁)).toNat = ZBuf.hostLeLoad16 b₀ b₁ :=
        UInt16.toNat_ofNat_of_lt hlt
      have hsize₀ : [b₀, b₁].length = msgLenEncSize := rfl
      have hflow := @flow_pendData _ { r with zbuf := r.zbuf.skip 2 } _ hsize₀ hn.symm
        (hn.symm ▸ hshort)
      rwa [htail] at hflow
    · simp only [if_neg hshort]
      refine ⟨trivial, trivial, rfl, trivial, ?_, [b₀, b₁], rfl, rfl, by rw [htail]; rfl⟩
      rw [ZBuf.length_readable]
      exact Nat.le_of_not_lt hshort

/-- What the loop over the batches in the buffer leaves behind: the peer is dropped, or its flow
state holds what is left, or nothing is left and the flow state is as before the loop. -/
theorem processLoop_spec {done pending : List (List UInt8)} {rest size : List UInt8}
    {r : UnicastReader} {toRead : ℕ}
    (hstate : r.peer.flowState = .inactive ∨ r.peer.flowState = .pendingSize)
    (hat : StreamAt session done pending rest r.delivery r.socket)
    (hrest : rest = size ++ r.zbuf.readable) (hlength : size.length = msgLenEncSize)
    (hsize : batchFraming.decode size = toRead) (hle : toRead ≤ r.zbuf.readable.length) :
    (processLoop session toRead r).socket = r.socket ∧
    (processLoop session toRead r).zbuf.capacity = r.zbuf.capacity ∧
    ∃ done' pending' rest', done' ++ pending' = done ++ pending ∧
      StreamAt session done' pending' rest' (processLoop session toRead r).delivery r.socket ∧
      ((processLoop session toRead r).delivery.dropped = true ∨
        (processLoop session toRead r).delivery.dropped = false ∧
          (Flow (processLoop session toRead r).peer rest' ∨
            r.peer.flowState = .pendingSize ∧ rest' = [])) := by
  have hready : r.peer.flowState ≠ .ready := by
    rcases hstate with h | h <;> simp [h]
  obtain ⟨pending', hpending, hat'⟩ := hat.deliver hrest hlength hsize hle
  have hdelivery : (unicastProcessMessages session r toRead).delivery =
      deliver session r.delivery (r.zbuf.readable.take toRead) := by
    rw [delivery_unicastProcessMessages, if_neg hready]
  have hsocket₀ : (unicastProcessMessages session r toRead).socket = r.socket :=
    socket_unicastProcessMessages
  rw [← hdelivery] at hat'
  have happend : (done ++ [r.zbuf.readable.take toRead]) ++ pending' = done ++ pending := by
    rw [hpending, append_assoc, singleton_append]
  rw [processLoop]
  by_cases hdropped : (unicastProcessMessages session r toRead).delivery.dropped = true
  · simp only [hdropped, if_true]
    exact ⟨hsocket₀, capacity_unicastProcessMessages, _, _, _, happend, hat', .inl trivial⟩
  · rw [Bool.not_eq_true] at hdropped
    obtain ⟨hreadable, hpeer⟩ := readable_unicastProcessMessages hready hdropped
    rw [← hreadable] at hat'
    simp only [hdropped, Bool.false_eq_true, if_false, hpeer, hready]
    by_cases hempty : (unicastProcessMessages session r toRead).zbuf.len = 0
    · simp only [hempty, if_true]
      have hnil : (unicastProcessMessages session r toRead).zbuf.readable = [] := by
        rw [← length_eq_zero_iff, ZBuf.length_readable, hempty]
      rw [hnil] at hat'
      refine ⟨hsocket₀, capacity_unicastProcessMessages, _, _, _, happend,
        hat', .inr ⟨hdropped, ?_⟩⟩
      rcases hstate with h | h
      · exact .inl (.inactive (hpeer ▸ h))
      · exact .inr ⟨h, rfl⟩
    · simp only [hempty, if_false]
      have hat'' := hat'
      rw [← hsocket₀] at hat''
      obtain ⟨hsocket, hsame, hcapacity, hmatch⟩ := unicastHandleRemainingData_spec hat'' hempty
      rw [hsocket₀] at hsocket
      rw [capacity_unicastProcessMessages] at hcapacity
      split
      · next toRead' r' heq =>
        rw [heq] at hsocket hsame hcapacity hmatch
        dsimp only at hsocket hsame hcapacity hmatch
        obtain ⟨hpeer', hle', size', hlength', hsize', hrest'⟩ := hmatch
        have hdecreasing := (len_unicastHandleRemainingData heq).trans_le
          (len_unicastProcessMessages_le session r toRead)
        have ih := processLoop_spec
          (by rw [hpeer', hpeer]; exact hstate)
          (by rw [hsame, hsocket]; exact hat') hrest' hlength' hsize' hle'
        rwa [hsocket, hcapacity, happend, hpeer', hpeer] at ih
      · next r' heq =>
        rw [heq] at hsocket hsame hcapacity hmatch
        dsimp only at hsocket hsame hcapacity hmatch
        refine ⟨hsocket, hcapacity, _, _, _, happend, ?_, .inr ⟨hsame ▸ hdropped, .inl hmatch⟩⟩
        exact hsame ▸ hat'
termination_by r.zbuf.len

/-- A batch from the flow buffer, which is all that is left. -/
theorem processLoop_ready (hstate : r.peer.flowState = .ready)
    (hat : StreamAt session done pending rest r.delivery r.socket)
    (hrest : rest = size ++ r.peer.flowBuff.readable) (hlength : size.length = msgLenEncSize)
    (hsize : batchFraming.decode size = toRead)
    (hall : toRead = r.peer.flowBuff.readable.length) :
    (processLoop session toRead r).socket = r.socket ∧
    (processLoop session toRead r).zbuf.capacity = r.zbuf.capacity ∧
    (processLoop session toRead r).peer.flowState = .ready ∧
    ∃ done' pending', done' ++ pending' = done ++ pending ∧
      StreamAt session done' pending' [] (processLoop session toRead r).delivery r.socket := by
  obtain ⟨pending', hpending, hat'⟩ := hat.deliver hrest hlength hsize hall.le
  have hdelivery : (unicastProcessMessages session r toRead).delivery =
      deliver session r.delivery (r.peer.flowBuff.readable.take toRead) := by
    rw [delivery_unicastProcessMessages, if_pos hstate]
  have hpeer : (unicastProcessMessages session r toRead).peer.flowState = .ready := by
    simp only [unicastProcessMessages]
    split_ifs <;> exact hstate
  have hloop : processLoop session toRead r = unicastProcessMessages session r toRead := by
    rw [processLoop]
    simp only [hpeer, if_true, ite_self]
  rw [hloop]
  refine ⟨socket_unicastProcessMessages, capacity_unicastProcessMessages, hpeer,
    done ++ [r.peer.flowBuff.readable.take toRead], pending', ?_, ?_⟩
  · rw [hpending, append_assoc, singleton_append]
  · rw [← hdelivery, hall, drop_length] at hat'
    rwa [← hall] at hat'

/-- What a read of a peer comes to. -/
inductive ReadOutcome (session : Session) (done pending : List (List UInt8)) (rest : List UInt8)
    (r : UnicastReader) (readiness : Readiness) : PeerReadStatus × UnicastReader → Prop
  | waits {r' : UnicastReader} {rest' : List UInt8}
      (hcapacity : r'.zbuf.capacity = r.zbuf.capacity) (hdelivery : r'.delivery = r.delivery)
      (hat : StreamAt session done pending rest' r'.delivery r'.socket)
      (hflow : Flow r'.peer rest') : ReadOutcome session done pending rest r readiness
        (.pendingData, r')
  | closes {r' : UnicastReader} (hclosed : readiness = .closed)
      (hat : StreamAt session done pending rest r'.delivery r'.socket) :
      ReadOutcome session done pending rest r readiness (.socketClosed, r')
  | batch {r' : UnicastReader} {rest' size : List UInt8} {toRead : ℕ}
      (hcapacity : r'.zbuf.capacity = r.zbuf.capacity)
      (hstate : r'.peer.flowState = .inactive ∨
        r'.peer.flowState = .pendingSize ∧ r.peer.flowState = .pendingSize)
      (hat : StreamAt session done pending rest' r'.delivery r'.socket)
      (hrest : rest' = size ++ r'.zbuf.readable) (hlength : size.length = msgLenEncSize)
      (hsize : batchFraming.decode size = toRead) (hle : toRead ≤ r'.zbuf.readable.length) :
      ReadOutcome session done pending rest r readiness (.ok toRead, r')
  | flowBatch {r' : UnicastReader} {rest' size : List UInt8} {toRead : ℕ}
      (hcapacity : r'.zbuf.capacity = r.zbuf.capacity)
      (hstate : r'.peer.flowState = .ready)
      (hat : StreamAt session done pending rest' r'.delivery r'.socket)
      (hrest : rest' = size ++ r'.peer.flowBuff.readable) (hlength : size.length = msgLenEncSize)
      (hsize : batchFraming.decode size = toRead)
      (hall : toRead = r'.peer.flowBuff.readable.length) :
      ReadOutcome session done pending rest r readiness (.ok toRead, r')

variable {readiness : Readiness}

/-- The outcome does not depend on what the flow state was, but for a length begun. -/
theorem ReadOutcome.of_eq {result : PeerReadStatus × UnicastReader}
    (h : ReadOutcome session done pending rest r readiness result) (hzbuf : r'.zbuf = r.zbuf)
    (hdelivery : r'.delivery = r.delivery) (hstate : r.peer.flowState ≠ .pendingSize) :
    ReadOutcome session done pending rest r' readiness result := by
  cases h with
  | waits hcapacity hsame hat hflow =>
    exact .waits (hzbuf ▸ hcapacity) (hdelivery ▸ hsame) hat hflow
  | closes hclosed hat => exact .closes hclosed hat
  | batch hcapacity hentry hat hrest hlength hsize hle =>
    refine .batch (hzbuf ▸ hcapacity) (.inl ?_) hat hrest hlength hsize hle
    exact hentry.resolve_right fun hpending ↦ hstate hpending.2
  | flowBatch hcapacity hready hat hrest hlength hsize hall =>
    exact .flowBatch (hzbuf ▸ hcapacity) hready hat hrest hlength hsize hall

/-- The bytes of a first read are treated as those after a batch. -/
theorem unicastPeerReadInactive_some {readSize : ℕ} {zbuf : ZBuf}
    (h : linkSocketRecvZbuf r.socket r.zbuf readiness = (some (readSize + 1), socket, zbuf)) :
    unicastPeerReadInactive r readiness =
      match unicastHandleRemainingData { r with socket, zbuf } zbuf.len with
      | (none, r') => (.pendingData, r')
      | (some toRead, r') => (.ok toRead, r') := by
  simp only [unicastPeerReadInactive, h, unicastHandleRemainingData]
  split_ifs <;> rfl

theorem unicastPeerReadInactive_spec
    (hat : StreamAt session done pending [] r.delivery r.socket)
    (hstate : r.peer.flowState = .inactive) (hempty : r.zbuf.readable = [])
    (hroom : 0 < r.zbuf.spaceLeft) :
    ReadOutcome session done pending [] r readiness (unicastPeerReadInactive r readiness) := by
  obtain ⟨data, hrecv⟩ := linkSocketRecvZbuf_spec r.socket r.zbuf readiness
  have hat' := hat.recv hrecv
  rw [nil_append] at hat'
  have hreadable := hrecv.readable
  rw [hempty, nil_append] at hreadable
  rcases hresult : linkSocketRecvZbuf r.socket r.zbuf readiness with ⟨readSize, socket, zbuf⟩
  rw [hresult] at hrecv hat' hreadable
  dsimp only at hat' hreadable
  rcases readSize with _ | _ | n
  · rw [hrecv.eq_nil rfl] at hat'
    simp only [unicastPeerReadInactive, hresult]
    exact .waits hrecv.capacity rfl hat' (.inactive hstate)
  · rw [eq_nil_of_length_eq_zero (hrecv.length_eq 0 rfl)] at hat'
    simp only [unicastPeerReadInactive, hresult]
    exact .closes ((hrecv.closed rfl).resolve_right hroom.ne') hat'
  · have hextra : zbuf.len ≠ 0 := by
      rw [← ZBuf.length_readable, hreadable, hrecv.length_eq _ rfl]
      exact n.succ_ne_zero
    rw [← hreadable] at hat'
    obtain ⟨hsocket, hdelivery, hcapacity, hmatch⟩ :=
      @unicastHandleRemainingData_spec _ _ _ { r with socket, zbuf } hat' hextra
    rw [unicastPeerReadInactive_some hresult]
    rcases hnext : unicastHandleRemainingData { r with socket, zbuf } zbuf.len with ⟨_ | toRead, r'⟩
    · rw [hnext] at hsocket hdelivery hcapacity hmatch
      dsimp only at hsocket hdelivery hcapacity hmatch ⊢
      rw [← hsocket, ← hdelivery] at hat'
      exact .waits (hcapacity.trans hrecv.capacity) hdelivery hat' hmatch
    · rw [hnext] at hsocket hdelivery hcapacity hmatch
      dsimp only at hsocket hdelivery hcapacity hmatch ⊢
      rw [← hsocket, ← hdelivery] at hat'
      obtain ⟨hpeer, hle, size, hlength, hsize, hrest⟩ := hmatch
      exact .batch (hcapacity.trans hrecv.capacity) (.inl (hpeer ▸ hstate)) hat' hrest hlength
        hsize hle

/-- The two bytes of a length, the first of them in the flow state. -/
theorem toNat_flowCurrSize (b₀ b₁ : UInt8) :
    (b₀.toUInt16 + b₁.toUInt16 <<< 8).toNat = ZBuf.hostLeLoad16 b₀ b₁ := by
  have h₀ := b₀.toNat_lt
  have h₁ := b₁.toNat_lt
  simp only [UInt16.toNat_add, UInt16.toNat_shiftLeft, UInt8.toNat_toUInt16, ZBuf.hostLeLoad16,
    Nat.shiftLeft_eq]
  simp
  omega

theorem unicastPeerReadPendingSize_spec {b₀ : UInt8}
    (hat : StreamAt session done pending [b₀] r.delivery r.socket)
    (hstate : r.peer.flowState = .pendingSize) (hb₀ : r.peer.flowCurrSize = b₀.toUInt16)
    (hempty : r.zbuf.readable = []) (hroom : 0 < r.zbuf.spaceLeft) :
    ReadOutcome session done pending [b₀] r readiness
      (unicastPeerReadPendingSize r readiness) := by
  obtain ⟨data, hrecv⟩ := linkSocketRecvZbuf_spec r.socket r.zbuf readiness
  have hat' := hat.recv hrecv
  have hreadable := hrecv.readable
  rw [hempty, nil_append] at hreadable
  rcases hresult : linkSocketRecvZbuf r.socket r.zbuf readiness with ⟨readSize, socket, zbuf⟩
  rw [hresult] at hrecv hat' hreadable
  dsimp only at hat' hreadable
  simp only [unicastPeerReadPendingSize, hresult]
  rcases readSize with _ | _ | n
  · rw [hrecv.eq_nil rfl] at hat'
    exact .waits hrecv.capacity rfl hat' (.pendingSize hstate b₀ hb₀)
  · rw [eq_nil_of_length_eq_zero (hrecv.length_eq 0 rfl)] at hat'
    exact .closes ((hrecv.closed rfl).resolve_right hroom.ne') hat'
  · have hlength := hrecv.length_eq _ rfl
    rcases data with _ | ⟨b₁, tail⟩
    · cases hlength
    · have hb₁ : zbuf.read.1 = b₁ := by
        simp [ZBuf.read, hreadable]
      have htail : zbuf.read.2.readable = tail := by
        simp [ZBuf.read, hreadable]
      have hsplit : [b₀] ++ b₁ :: tail = [b₀, b₁] ++ zbuf.read.2.readable := by
        rw [htail]
        rfl
      have hsize : batchFraming.decode [b₀, b₁] = (b₀.toUInt16 + b₁.toUInt16 <<< 8).toNat :=
        (toNat_flowCurrSize b₀ b₁).symm
      simp only [hb₀, hb₁]
      by_cases hshort : zbuf.read.2.len < (b₀.toUInt16 + b₁.toUInt16 <<< 8).toNat
      · rw [if_pos hshort]
        refine .waits hrecv.capacity rfl hat' ?_
        rw [hsplit]
        exact flow_pendData rfl hsize hshort
      · rw [if_neg hshort]
        refine .batch hrecv.capacity (.inr ⟨hstate, hstate⟩) hat' hsplit rfl hsize ?_
        rw [ZBuf.length_readable]
        exact Nat.le_of_not_lt hshort

theorem unicastPeerReadPendingData_spec
    (hat : StreamAt session done pending (size ++ r.peer.flowBuff.readable) r.delivery r.socket)
    (hstate : r.peer.flowState = .pendingData) (hlength : size.length = msgLenEncSize)
    (hsize : batchFraming.decode size = r.peer.flowCurrSize.toNat)
    (hshort : r.peer.flowBuff.readable.length < r.peer.flowCurrSize.toNat)
    (hcapacity : r.peer.flowBuff.capacity = r.peer.flowCurrSize.toNat)
    (hrPos : r.peer.flowBuff.rPos = 0) :
    ReadOutcome session done pending (size ++ r.peer.flowBuff.readable) r readiness
      (unicastPeerReadPendingData r readiness) := by
  have hspace : r.peer.flowBuff.spaceLeft =
      r.peer.flowCurrSize.toNat - r.peer.flowBuff.readable.length := by
    rw [ZBuf.spaceLeft, ZBuf.length_readable, ZBuf.len, hcapacity, hrPos, Nat.sub_zero]
  obtain ⟨data, hrecv⟩ := linkSocketRecvZbuf_spec r.socket r.peer.flowBuff readiness
  have hat' := hat.recv hrecv
  have hreadable := hrecv.readable
  rw [append_assoc, ← hreadable] at hat'
  rcases hresult : linkSocketRecvZbuf r.socket r.peer.flowBuff readiness
    with ⟨readSize, socket, flowBuff⟩
  rw [hresult] at hrecv hat' hreadable
  dsimp only at hat' hreadable
  have hflow : flowBuff.readable.length < r.peer.flowCurrSize.toNat →
      Flow { r.peer with flowBuff } (size ++ flowBuff.readable) := by
    intro hshort'
    exact @Flow.pendingData { r.peer with flowBuff } hstate size hlength hsize hshort'
      (hrecv.capacity.trans hcapacity) (hrecv.rPos.trans hrPos)
  simp only [unicastPeerReadPendingData, hresult]
  rcases readSize with _ | _ | n
  · refine .waits rfl rfl hat' (hflow ?_)
    rw [hreadable, hrecv.eq_nil rfl, append_nil]
    exact hshort
  · rw [hreadable, eq_nil_of_length_eq_zero (hrecv.length_eq 0 rfl), append_nil] at hat'
    exact .closes ((hrecv.closed rfl).resolve_right (by omega)) hat'
  · rw [← ZBuf.length_readable]
    by_cases hshort' : flowBuff.readable.length < r.peer.flowCurrSize.toNat
    · rw [if_pos hshort']
      exact .waits rfl rfl hat' (hflow hshort')
    · rw [if_neg hshort']
      refine .flowBatch rfl rfl hat' rfl hlength hsize ?_
      have hle := hrecv.length_le
      rw [hreadable, length_append] at hshort' ⊢
      omega

end Spec

/-! ### One read -/

section Step

variable {session : Session} {batches : List (List UInt8)} {r : UnicastReader}

/-- What keeps a reader in step with its stream -/
structure PeerInv (session : Session) (batches : List (List UInt8)) (r : UnicastReader) : Prop where
  alive : r.delivery.dropped = false
  empty : r.zbuf.readable = []
  room : 0 < r.zbuf.spaceLeft
  place : ∃ done pending rest, done ++ pending = batches ∧
    StreamAt session done pending rest r.delivery r.socket ∧ Flow r.peer rest

/-- The batches handed to message processing are those that were received as a whole, up to the
first that fails, and the peer is dropped for a failure or the end of the connection only. -/
structure Delivered (session : Session) (batches : List (List UInt8)) (closed : Prop)
    (r : UnicastReader) : Prop where
  handed : r.delivery.handed =
    (deliverAll session (batchFraming.complete r.socket.received.length batches)).handed
  dropped : r.delivery.dropped = true →
    (deliverAll session (batchFraming.complete r.socket.received.length batches)).dropped = true ∨
      closed
  failed :
    (deliverAll session (batchFraming.complete r.socket.received.length batches)).dropped = true →
      r.delivery.dropped = true

variable {closed : Prop}

theorem Delivered.of_deliverAll
    (h : deliverAll session (batchFraming.complete r.socket.received.length batches) =
      r.delivery) : Delivered session batches closed r where
  handed := by rw [h]
  dropped := by
    intro hdropped
    rw [h]
    exact .inl hdropped
  failed := by rw [h]; exact id

theorem Delivered.delivery_eq (h : Delivered session batches closed r) (hopen : ¬closed) :
    r.delivery = deliverAll session (batchFraming.complete r.socket.received.length batches) := by
  have hdropped : r.delivery.dropped =
      (deliverAll session (batchFraming.complete r.socket.received.length batches)).dropped := by
    rw [Bool.eq_iff_iff]
    exact ⟨fun hdropped ↦ (h.dropped hdropped).resolve_right hopen, h.failed⟩
  exact congrArg₂ Delivery.mk h.handed hdropped

/-- A step that leaves the flow state in order. -/
theorem PeerInv.settle {done pending : List (List UInt8)} {rest : List UInt8}
    (h : PeerInv session batches r) (hbatches : done ++ pending = batches)
    (hcapacity : r'.zbuf.capacity = r.zbuf.capacity) (halive : r'.delivery.dropped = false)
    (hat : StreamAt session done pending rest r'.delivery r'.socket) (hflow : Flow r'.peer rest) :
    PeerInv session batches { r' with zbuf := r'.zbuf.reset } where
  alive := halive
  empty := rfl
  room := by
    have hroom := h.room
    rw [ZBuf.spaceLeft] at hroom ⊢
    rw [ZBuf.capacity_reset, hcapacity]
    simp only [ZBuf.reset, length_nil]
    omega
  place := ⟨done, pending, rest, hbatches, hat, hflow⟩

theorem PeerInv.read (h : PeerInv session batches r) (readiness : Readiness) :
    ∃ done pending rest, done ++ pending = batches ∧
      StreamAt session done pending rest r.delivery r.socket ∧ Flow r.peer rest ∧
      ReadOutcome session done pending rest r readiness (unicastPeerRead r readiness) := by
  obtain ⟨done, pending, rest, hbatches, hat, hflow⟩ := h.place
  refine ⟨done, pending, rest, hbatches, hat, hflow, ?_⟩
  rw [unicastPeerRead]
  cases hflow with
  | inactive hstate =>
    rw [hstate]
    exact unicastPeerReadInactive_spec hat hstate h.empty h.room
  | ready hstate =>
    rw [hstate]
    have houtcome := @unicastPeerReadInactive_spec session done pending
      { r with peer := { flowState := .inactive, flowCurrSize := 0, flowBuff := .null } } readiness
      hat rfl h.empty h.room
    exact houtcome.of_eq rfl rfl (by simp)
  | pendingSize hstate b hsize =>
    rw [hstate]
    exact unicastPeerReadPendingSize_spec hat hstate hsize h.empty h.room
  | pendingData hstate size hlength hsize hshort hcapacity hrPos =>
    rw [hstate]
    exact unicastPeerReadPendingData_spec hat hstate hlength hsize hshort hcapacity hrPos

/-- One read hands over what it completes. It leaves the flow state in order, unless it began
after the first byte of a length and ended with a batch. -/
theorem processPeerEvent_spec (h : PeerInv session batches r) (readiness : Readiness) :
    Delivered session batches (readiness = .closed) (processPeerEvent session r readiness) ∧
    ((processPeerEvent session r readiness).delivery.dropped = true ∨
      PeerInv session batches (processPeerEvent session r readiness) ∨
      batchFraming.offset r.socket.received.length batches = 1 ∧
        batchFraming.offset (processPeerEvent session r readiness).socket.received.length
          batches = 0) := by
  obtain ⟨done, pending, rest, hbatches, hat, hflow, houtcome⟩ := h.read readiness
  rw [processPeerEvent, if_neg (by rw [h.alive]; exact Bool.false_ne_true)]
  rcases hread : unicastPeerRead r readiness with ⟨status, r'⟩
  rw [hread] at houtcome
  cases houtcome with
  | waits hcapacity hdelivery hat' hflow' =>
    have halive : r'.delivery.dropped = false := hdelivery ▸ h.alive
    have hinv := h.settle hbatches hcapacity halive hat' hflow'
    refine ⟨.of_deliverAll ?_, .inr (.inl hinv)⟩
    rw [← hbatches]
    exact hat'.deliverAll_complete (.inr (hflow'.complete_eq_nil hat'))
  | closes hclosed hat' =>
    have hdeliver := hat'.deliverAll_complete (.inr (hflow.complete_eq_nil hat'))
    rw [hbatches] at hdeliver
    refine ⟨⟨?_, fun _ ↦ .inr hclosed, fun _ ↦ rfl⟩, .inl rfl⟩
    exact (congrArg Delivery.handed hdeliver).symm
  | @batch _ rest' size toRead hcapacity hstate hat' hrest hlength hsize hle =>
    obtain ⟨hsocket, hcapacity', done', pending', rest'', happend, hat'', hcases⟩ :=
      processLoop_spec (hstate.imp_right And.left) hat' hrest hlength hsize hle
    rw [← hsocket] at hat''
    rw [hbatches] at happend
    rcases hcases with hdropped | ⟨halive, hflow'⟩
    · refine ⟨.of_deliverAll ?_, .inl hdropped⟩
      rw [← happend]
      exact hat''.deliverAll_complete (.inl hdropped)
    · rcases hflow' with hflow' | ⟨hsizeState, rfl⟩
      · have hinv := h.settle happend (hcapacity'.trans hcapacity) halive hat'' hflow'
        refine ⟨.of_deliverAll ?_, .inr (.inl hinv)⟩
        rw [← happend]
        exact hat''.deliverAll_complete (.inr (hflow'.complete_eq_nil hat''))
      · have hcomplete : batchFraming.complete ([] : List UInt8).length pending' = [] :=
          StreamAt.complete_eq_nil_of_length_lt (by decide)
        have hentry : r.peer.flowState = .pendingSize := by
          rcases hstate with hinactive | hpending
          · rw [hsizeState] at hinactive
            cases hinactive
          · exact hpending.2
        have hbefore := hat.offset_eq (hflow.complete_eq_nil hat)
        have hafter := hat''.offset_eq hcomplete
        rw [hbatches, hflow.length_of_pendingSize hentry] at hbefore
        rw [happend] at hafter
        refine ⟨.of_deliverAll ?_, .inr (.inr ⟨hbefore, hafter⟩)⟩
        rw [← happend]
        exact hat''.deliverAll_complete (.inr hcomplete)
  | @flowBatch _ rest' size toRead hcapacity hstate hat' hrest hlength hsize hall =>
    obtain ⟨hsocket, hcapacity', hready, done', pending', happend, hat''⟩ :=
      processLoop_ready hstate hat' hrest hlength hsize hall
    rw [← hsocket] at hat''
    rw [hbatches] at happend
    have hflow' : Flow (processLoop session toRead r').peer [] := .ready hready
    have hdeliver := hat''.deliverAll_complete (.inr (hflow'.complete_eq_nil hat''))
    rw [happend] at hdeliver
    refine ⟨.of_deliverAll hdeliver, ?_⟩
    cases halive : (processLoop session toRead r').delivery.dropped with
    | true => exact .inl rfl
    | false =>
      exact .inr (.inl (h.settle happend (hcapacity'.trans hcapacity) halive hat'' hflow'))

/-! ### Every way of cutting the stream -/

variable {capacity : ℕ}

/-- A new connection -/
theorem init_peerInv (hcapacity : 0 < capacity) (hlt : ∀ b ∈ batches, b.length < 2 ^ 16) :
    PeerInv session batches (.init capacity batches) where
  alive := rfl
  empty := rfl
  room := hcapacity
  place := by
    refine ⟨[], batches, [], rfl, ⟨rfl, rfl, rfl, hlt⟩, .inactive rfl⟩

/-- How far into a batch the reads have come -/
def offsetAfter (session : Session) (capacity : ℕ) (batches : List (List UInt8))
    (reads : List Readiness) : ℕ :=
  batchFraming.offset (runPeerReads session capacity batches reads).socket.received.length batches

/-- No read but the last one begins after the first byte of a length and ends with a batch. -/
def NoBoundaryRead (session : Session) (capacity : ℕ) (batches : List (List UInt8))
    (reads : List Readiness) : Prop :=
  ∀ k, k + 1 < reads.length → offsetAfter session capacity batches (reads.take k) = 1 →
    offsetAfter session capacity batches (reads.take (k + 1)) ≠ 0

variable {reads : List Readiness}

theorem NoBoundaryRead.take (h : NoBoundaryRead session capacity batches reads) (n : ℕ) :
    NoBoundaryRead session capacity batches (reads.take n) := by
  intro k hk
  rw [length_take] at hk
  rw [take_take, take_take, min_eq_left (by omega), min_eq_left (by omega)]
  exact h k (by omega)

theorem runPeerReads_append_singleton (reads : List Readiness) (readiness : Readiness) :
    runPeerReads session capacity batches (reads ++ [readiness]) =
      processPeerEvent session (runPeerReads session capacity batches reads) readiness := by
  rw [runPeerReads, foldl_append]
  rfl

theorem processPeerEvent_of_dropped (h : r.delivery.dropped = true) (readiness : Readiness) :
    processPeerEvent session r readiness = r := by
  rw [processPeerEvent, if_pos h]

theorem Delivered.mono {closed' : Prop} (h : Delivered session batches closed r)
    (himp : closed → closed') : Delivered session batches closed' r where
  handed := h.handed
  dropped := fun hdropped ↦ (h.dropped hdropped).imp_right himp
  failed := h.failed

theorem NoBoundaryRead.not_last {readiness : Readiness}
    (h : NoBoundaryRead session capacity batches (reads ++ [readiness])) :
    ¬∃ k, k + 1 = reads.length ∧ offsetAfter session capacity batches (reads.take k) = 1 ∧
      offsetAfter session capacity batches reads = 0 := by
  rintro ⟨k, hk, hone, hzero⟩
  have hlast := h k (by rw [length_append, ← hk]; exact Nat.lt_succ_self _)
  rw [take_append_of_le_length (by omega), take_append_of_le_length (by omega),
    hk, take_length] at hlast
  exact hlast hone hzero

theorem NoBoundaryRead.of_append {readiness : Readiness}
    (h : NoBoundaryRead session capacity batches (reads ++ [readiness])) :
    NoBoundaryRead session capacity batches reads := by
  have htake := h.take reads.length
  rwa [take_left] at htake

theorem runPeerReads_inv (hcapacity : 0 < capacity) (hlt : ∀ b ∈ batches, b.length < 2 ^ 16)
    (h : NoBoundaryRead session capacity batches reads) :
    Delivered session batches (.closed ∈ reads) (runPeerReads session capacity batches reads) ∧
    ((runPeerReads session capacity batches reads).delivery.dropped = true ∨
      PeerInv session batches (runPeerReads session capacity batches reads) ∨
      ∃ k, k + 1 = reads.length ∧ offsetAfter session capacity batches (reads.take k) = 1 ∧
        offsetAfter session capacity batches reads = 0) := by
  induction reads using List.reverseRecOn with
  | nil =>
    have hinv : PeerInv session batches (.init capacity batches) := init_peerInv hcapacity hlt
    have hnil : batchFraming.complete ([] : List UInt8).length batches = [] :=
      StreamAt.complete_eq_nil_of_length_lt (by decide)
    refine ⟨.of_deliverAll ?_, .inr (.inl hinv)⟩
    rw [runPeerReads, foldl_nil, UnicastReader.init, hnil]
    rfl
  | append_singleton reads readiness ih =>
    obtain ⟨hdelivered, hcases⟩ := ih h.of_append
    rw [runPeerReads_append_singleton]
    rcases hcases with hdropped | hinv | hlast
    · rw [processPeerEvent_of_dropped hdropped]
      exact ⟨hdelivered.mono (mem_append_left _), .inl hdropped⟩
    · obtain ⟨hdelivered', hcases'⟩ := processPeerEvent_spec hinv readiness
      refine ⟨hdelivered'.mono ?_, hcases'.imp_right (Or.imp_right ?_)⟩
      · rintro rfl
        exact mem_append_right _ mem_cons_self
      · rintro ⟨hone, hzero⟩
        refine ⟨reads.length, by simp, ?_, ?_⟩
        · rwa [take_left]
        · rwa [offsetAfter, runPeerReads_append_singleton]
    · exact absurd hlast h.not_last

/-- Before a read, the peer is dropped or its flow state is in order. -/
theorem peerInv_of_append (hcapacity : 0 < capacity) (hlt : ∀ b ∈ batches, b.length < 2 ^ 16)
    {readiness : Readiness} (h : NoBoundaryRead session capacity batches (reads ++ [readiness])) :
    (runPeerReads session capacity batches reads).delivery.dropped = true ∨
      PeerInv session batches (runPeerReads session capacity batches reads) :=
  (runPeerReads_inv hcapacity hlt h.of_append).2.imp_right (Or.resolve_right · h.not_last)

/-! ### No byte is left behind -/

/-- A read takes what has arrived, as far as there is room for it, and there is room. -/
structure Takes (r : UnicastReader) (readiness : Readiness) (r' : UnicastReader) : Prop where
  room : 0 < r.room
  socket : r'.socket = (r.socket.recv r.room readiness).2

theorem PeerInv.room_pos (h : PeerInv session batches r) : 0 < r.room := by
  obtain ⟨done, pending, rest, -, -, hflow⟩ := h.place
  rw [UnicastReader.room]
  cases hflow with
  | inactive hstate =>
    rw [hstate]
    exact h.room
  | ready hstate =>
    rw [hstate]
    exact h.room
  | pendingSize hstate b hsize =>
    rw [hstate]
    exact h.room
  | pendingData hstate size hlength hsize hshort hcapacity hrPos =>
    rw [hstate]
    rw [ZBuf.length_readable, ZBuf.len, hrPos, Nat.sub_zero, ← hcapacity] at hshort
    exact Nat.sub_pos_of_lt hshort

theorem PeerInv.takes (h : PeerInv session batches r) (readiness : Readiness) :
    Takes r readiness (processPeerEvent session r readiness) where
  room := h.room_pos
  socket := processPeerEvent_socket session h.alive readiness

/-- What is left of the stream is what was not received of it. -/
theorem PeerInv.length_received (h : PeerInv session batches r) :
    r.socket.received.length + r.socket.unread.length = (batchFraming.stream batches).length := by
  obtain ⟨done, pending, rest, hbatches, hat, -⟩ := h.place
  rw [← length_append, hat.received_append_unread, hbatches]

/-- The read finds a byte, if there is one. -/
def Readiness.FindsByte : Readiness → Bool
  | .arrived n => 0 < n
  | .closed => false

theorem Takes.length_received {readiness : Readiness} (h : Takes r readiness r')
    (hfinds : readiness.FindsByte = true) (hunread : r.socket.unread ≠ []) :
    r.socket.received.length < r'.socket.received.length := by
  have hlength := length_pos_of_ne_nil hunread
  have hroom := h.room
  cases readiness with
  | closed => cases hfinds
  | arrived n =>
    have hn : 0 < n := of_decide_eq_true hfinds
    have hblock : ¬(n = 0 ∨ r.socket.unread = []) := not_or.mpr ⟨hn.ne', hunread⟩
    rw [h.socket, Socket.recv, if_neg hblock, length_append, length_take]
    omega

/-- Reads that come to all of the stream: the connection stays open, and as many of them find a
byte as the stream has. -/
def EnoughReads (batches : List (List UInt8)) (reads : List Readiness) : Prop :=
  .closed ∉ reads ∧ (batchFraming.stream batches).length ≤ reads.countP Readiness.FindsByte

/-- As long as the peer is not dropped, every read that finds a byte takes one. -/
theorem countP_le_received (hcapacity : 0 < capacity) (hlt : ∀ b ∈ batches, b.length < 2 ^ 16)
    (h : NoBoundaryRead session capacity batches reads) :
    (runPeerReads session capacity batches reads).delivery.dropped = true ∨
      min (reads.countP Readiness.FindsByte) (batchFraming.stream batches).length ≤
        (runPeerReads session capacity batches reads).socket.received.length := by
  induction reads using List.reverseRecOn with
  | nil => exact .inr (min_le_left _ _)
  | append_singleton reads readiness ih =>
    rw [runPeerReads_append_singleton]
    rcases peerInv_of_append hcapacity hlt h with hdropped | hinv
    · rw [processPeerEvent_of_dropped hdropped]
      exact .inl hdropped
    · right
      have htakes := hinv.takes readiness
      have hall := hinv.length_received
      have hcount := (ih h.of_append).resolve_left (by rw [hinv.alive]; exact Bool.false_ne_true)
      have hgrows : (runPeerReads session capacity batches reads).socket.received.length ≤
          (processPeerEvent session (runPeerReads session capacity batches reads)
            readiness).socket.received.length := by
        rw [htakes.socket]
        exact Socket.length_received_le _ _ _
      rw [countP_append, countP_singleton]
      split_ifs with hfinds
      · by_cases hunread : (runPeerReads session capacity batches reads).socket.unread = []
        · rw [hunread, length_nil, Nat.add_zero] at hall
          omega
        · have hlength := htakes.length_received hfinds hunread
          omega
      · omega

/-- A reader with room for a byte hands to message processing exactly the batches of the stream,
in order, once each, however the stream is cut into reads: as long as no read but the last one
begins after the first byte of a length and ends with a batch. Every read takes what has arrived,
and enough reads hand over the whole stream. -/
theorem peerRead_delivers (session : Session) (capacity : ℕ) (batches : List (List UInt8))
    (reads : List Readiness) (hcapacity : 0 < capacity)
    (hlt : ∀ b ∈ batches, b.length < 2 ^ 16)
    (h : NoBoundaryRead session capacity batches reads) :
    (∀ n, Delivered session batches (.closed ∈ reads.take n)
      (runPeerReads session capacity batches (reads.take n))) ∧
    (∀ before readiness after, reads = before ++ readiness :: after →
      (runPeerReads session capacity batches before).delivery.dropped = false →
        Takes (runPeerReads session capacity batches before) readiness
          (runPeerReads session capacity batches (before ++ [readiness]))) ∧
    (EnoughReads batches reads →
      (runPeerReads session capacity batches reads).delivery = deliverAll session batches) := by
  refine ⟨fun n ↦ (runPeerReads_inv hcapacity hlt (h.take n)).1, ?_, ?_⟩
  · rintro before readiness after rfl halive
    have hbefore : NoBoundaryRead session capacity batches (before ++ [readiness]) := by
      have htake := h.take (before ++ [readiness]).length
      rwa [append_cons before readiness after, take_left] at htake
    have hinv := (peerInv_of_append hcapacity hlt hbefore).resolve_left
      (by rw [halive]; exact Bool.false_ne_true)
    rw [runPeerReads_append_singleton]
    exact hinv.takes readiness
  · rintro ⟨hopen, hcount⟩
    have hdelivery := (runPeerReads_inv hcapacity hlt h).1.delivery_eq hopen
    rcases countP_le_received hcapacity hlt h with hdropped | hreceived
    · obtain ⟨later, hlater⟩ := Framing.complete_prefix (f := batchFraming)
        (runPeerReads session capacity batches reads).socket.received.length batches
      rw [hdelivery] at hdropped ⊢
      conv_rhs => rw [← hlater]
      exact (deliverAll_append_of_dropped hdropped later).symm
    · rw [min_eq_right hcount] at hreceived
      rw [hdelivery, Framing.complete_of_length_le hreceived]

end Step

/-- Reads of two batches of one byte, cut after one byte and before the last one -/
def twoReads : List Readiness :=
  [.arrived 1, .arrived 0, .arrived 4, .arrived 1, .arrived 1, .arrived 1, .arrived 1]

/-- Two batches of one byte, the first of which holds on to the buffer. -/
theorem peerRead_delivers_two :
    NoBoundaryRead (fun handed ↦ if handed = [[7]] then .retained else .released) 16 [[7], [8]]
      twoReads ∧ EnoughReads [[7], [8]] twoReads ∧
    (runPeerReads (fun handed ↦ if handed = [[7]] then .retained else .released) 16 [[7], [8]]
      twoReads).delivery = ⟨[[7], [8]], false⟩ := by
  have h : NoBoundaryRead (fun handed ↦ if handed = [[7]] then .retained else .released) 16
      [[7], [8]] twoReads := by
    have hbelow : ∀ k < 6, offsetAfter
        (fun handed ↦ if handed = [[7]] then .retained else .released) 16 [[7], [8]]
          (twoReads.take k) = 1 →
        offsetAfter (fun handed ↦ if handed = [[7]] then .retained else .released) 16 [[7], [8]]
          (twoReads.take (k + 1)) ≠ 0 := by
      decide +kernel
    intro k hk
    exact hbelow k (Nat.succ_lt_succ_iff.mp hk)
  have henough : EnoughReads [[7], [8]] twoReads := by
    refine ⟨?_, ?_⟩
    · decide
    · decide
  have hdelivers := peerRead_delivers _ 16 [[7], [8]] twoReads (by decide) (by decide) h
  exact ⟨h, henough, (hdelivers.2.2 henough).trans (by decide +kernel)⟩

/-- Two batches of one byte, cut after one byte and between the batches: the length of the second
is added to that of the first, and the second batch is never handed over. -/
theorem boundaryRead_not_delivered :
    ¬ ∀ (session : Session) (capacity : ℕ) (batches : List (List UInt8)) (reads : List Readiness),
      0 < capacity → (∀ b ∈ batches, b.length < 2 ^ 16) →
        Delivered session batches (.closed ∈ reads)
          (runPeerReads session capacity batches reads) := by
  intro h
  have hdelivered := h (fun _ ↦ .released) 16 [[7], [8]] [.arrived 1, .arrived 2, .arrived 3]
    (by decide) (by decide)
  exact absurd hdelivered.handed (by decide +kernel)

end ZenohPico.Transport
