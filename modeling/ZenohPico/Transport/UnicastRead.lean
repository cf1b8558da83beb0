import ZenohPico.Foundations.Framing
import ZenohPico.Protocol.Iobuf
import Mathlib.Data.List.Induction

/-!
What the two unicast readers share: the socket, the batches of a stream and their processing
(`_z_unicast_process_messages` of `src/transport/unicast/read.c`,
`_z_link_socket_recv_zbuf` of `src/link/link.c`).

On a streamed link each batch comes after its length in two bytes. What becomes of a batch is
decided by the session, so its processing is a function of the batches handed to it so far.
-/

open List

namespace ZenohPico.Transport

open Protocol

/-! ### Batches -/

/-- `_Z_MSG_LEN_ENC_SIZE` -/
def msgLenEncSize : ℕ := 2

variable {n : ℕ}

theorem hostLeLoad16_ofNat (h : n < 2 ^ 16) :
    ZBuf.hostLeLoad16 (UInt8.ofNat n) (UInt8.ofNat (n / 256)) = n := by
  simp only [ZBuf.hostLeLoad16, UInt8.toNat_ofNat']
  omega

/-- `__unsafe_z_finalize_wbuf` and `_z_read_stream_size`: the length of a batch, little endian. -/
def batchFraming : Framing UInt8 where
  width := msgLenEncSize
  limit := 2 ^ 16
  encode n := [UInt8.ofNat n, UInt8.ofNat (n / 256)]
  decode
    | b₀ :: b₁ :: _ => ZBuf.hostLeLoad16 b₀ b₁
    | _ => 0
  length_encode _ := rfl
  decode_encode _ := hostLeLoad16_ofNat

/-- What processing a batch came to. A payload that is kept holds on to the buffer. -/
inductive Processed
  | failed
  | released
  | retained
deriving DecidableEq, Repr

/-- The batches handed to message processing, and whether the connection was given up -/
structure Delivery where
  handed : List (List UInt8)
  dropped : Bool
deriving DecidableEq, Repr

/-- How the session processes the last of the batches handed to it -/
abbrev Session := List (List UInt8) → Processed

/-- Handing one more batch -/
def deliver (session : Session) (d : Delivery) (batch : List UInt8) : Delivery :=
  if d.dropped then d
  else ⟨d.handed ++ [batch], session (d.handed ++ [batch]) == .failed⟩

/-- Batches handed one after the other, until one fails -/
def deliverAll (session : Session) (batches : List (List UInt8)) : Delivery :=
  batches.foldl (deliver session) ⟨[], false⟩

section Deliver

variable {session : Session}

theorem deliverAll_append_singleton (batches : List (List UInt8)) (batch : List UInt8) :
    deliverAll session (batches ++ [batch]) = deliver session (deliverAll session batches) batch := by
  rw [deliverAll, foldl_append]
  rfl

theorem deliver_of_dropped {d : Delivery} (h : d.dropped = true) (batch : List UInt8) :
    deliver session d batch = d := by
  rw [deliver, if_pos h]

theorem foldl_deliver_of_dropped {d : Delivery} (h : d.dropped = true)
    (batches : List (List UInt8)) : batches.foldl (deliver session) d = d := by
  induction batches with
  | nil => rfl
  | cons batch batches ih => rw [foldl_cons, deliver_of_dropped h, ih]

variable {batches : List (List UInt8)}

/-- Nothing is handed after a batch that failed. -/
theorem deliverAll_append_of_dropped (h : (deliverAll session batches).dropped = true)
    (batches' : List (List UInt8)) :
    deliverAll session (batches ++ batches') = deliverAll session batches := by
  rw [deliverAll, foldl_append]
  exact foldl_deliver_of_dropped h batches'

/-- As long as none fails, the batches handed are the batches. -/
theorem handed_deliverAll (h : (deliverAll session batches).dropped = false) :
    (deliverAll session batches).handed = batches := by
  induction batches using List.reverseRecOn with
  | nil => rfl
  | append_singleton batches batch ih =>
    rw [deliverAll_append_singleton] at h ⊢
    cases hdropped : (deliverAll session batches).dropped with
    | true =>
      rw [deliver_of_dropped hdropped, hdropped] at h
      cases h
    | false =>
      rw [deliver, hdropped, if_neg Bool.false_ne_true, ih hdropped]

end Deliver

/-! ### The socket -/

/-- A connected socket: the bytes of the stream that were read, and those still to come. -/
structure Socket where
  received : List UInt8
  unread : List UInt8
deriving DecidableEq, Repr

/-- What a read finds: as many bytes as have arrived, none when it would block, or the end of
the connection. -/
inductive Readiness
  | arrived (n : ℕ)
  | closed
deriving DecidableEq, Repr

/-- `recv` into so much space. No result is the `SIZE_MAX` of the link. -/
def Socket.recv (socket : Socket) (space : ℕ) : Readiness → Option (List UInt8) × Socket
  | .closed => (some [], socket)
  | .arrived n =>
    if n = 0 ∨ socket.unread = [] then (none, socket)
    else
      (some (socket.unread.take (min n space)),
        ⟨socket.received ++ socket.unread.take (min n space), socket.unread.drop (min n space)⟩)

theorem Socket.length_received_le (socket : Socket) (space : ℕ) (readiness : Readiness) :
    socket.received.length ≤ (socket.recv space readiness).2.received.length := by
  cases readiness with
  | closed => exact le_rfl
  | arrived n =>
    rw [recv]
    split_ifs
    · exact le_rfl
    · rw [length_append]
      exact Nat.le_add_right _ _

/-- `_z_link_socket_recv_zbuf` -/
def linkSocketRecvZbuf (socket : Socket) (zbf : ZBuf) (readiness : Readiness) :
    Option ℕ × Socket × ZBuf :=
  match socket.recv zbf.spaceLeft readiness with
  | (none, socket) => (none, socket, zbf)
  | (some data, socket) => (some data.length, socket, zbf.write data)

/-- What a read does: `data` moves from the socket to the end of the buffer. -/
structure Recv (socket : Socket) (zbf : ZBuf) (readiness : Readiness) (data : List UInt8)
    (result : Option ℕ × Socket × ZBuf) : Prop where
  received : result.2.1.received = socket.received ++ data
  unread : data ++ result.2.1.unread = socket.unread
  bytes : result.2.2.bytes = zbf.bytes ++ data
  capacity : result.2.2.capacity = zbf.capacity
  rPos : result.2.2.rPos = zbf.rPos
  length_le : data.length ≤ zbf.spaceLeft
  eq_nil : result.1 = none → data = []
  length_eq : ∀ n, result.1 = some n → data.length = n
  closed : result.1 = some 0 → readiness = .closed ∨ zbf.spaceLeft = 0

theorem linkSocketRecvZbuf_spec (socket : Socket) (zbf : ZBuf) (readiness : Readiness) :
    ∃ data, Recv socket zbf readiness data (linkSocketRecvZbuf socket zbf readiness) := by
  cases readiness with
  | closed =>
    refine ⟨[], ?_⟩
    constructor <;> simp [linkSocketRecvZbuf, Socket.recv, ZBuf.write]
  | arrived n =>
    by_cases hblock : n = 0 ∨ socket.unread = []
    · refine ⟨[], ?_⟩
      constructor <;> simp [linkSocketRecvZbuf, Socket.recv, hblock]
    · have hspace : (socket.unread.take (min n zbf.spaceLeft)).length ≤ zbf.spaceLeft := by
        rw [length_take]
        omega
      have heq : linkSocketRecvZbuf socket zbf (.arrived n) =
          (some (socket.unread.take (min n zbf.spaceLeft)).length,
            ⟨socket.received ++ socket.unread.take (min n zbf.spaceLeft),
              socket.unread.drop (min n zbf.spaceLeft)⟩,
            zbf.write (socket.unread.take (min n zbf.spaceLeft))) := by
        simp only [linkSocketRecvZbuf, Socket.recv, if_neg hblock]
      rw [heq]
      exact ⟨_, {
        received := rfl
        unread := take_append_drop _ _
        bytes := ZBuf.bytes_write zbf hspace
        capacity := rfl
        rPos := rfl
        length_le := hspace
        eq_nil := by simp
        length_eq := by simp
        closed := by
          intro hzero
          have hlength := length_pos_of_ne_nil (not_or.mp hblock).2
          rw [Option.some.injEq, length_take] at hzero
          exact .inr (by omega) }⟩

variable {zbf : ZBuf} {readiness : Readiness} {data : List UInt8}
  {result : Option ℕ × Socket × ZBuf}

theorem Recv.readable {socket : Socket} (h : Recv socket zbf readiness data result) :
    result.2.2.readable = zbf.readable ++ data := by
  rw [ZBuf.readable, h.bytes, h.rPos, drop_append_of_le_length zbf.rPos_le, ZBuf.readable]

theorem Recv.length_unread_le {socket : Socket} (h : Recv socket zbf readiness data result) :
    result.2.1.unread.length ≤ socket.unread.length := by
  rw [← h.unread, length_append]
  exact Nat.le_add_left _ _

/-- Bytes that were read before can be put back in front of those that were added. -/
theorem Recv.readable_unskip {socket : Socket} (h : Recv socket (zbf.skip n) readiness data result)
    (hn : n ≤ zbf.len) : (result.2.2.unskip n).readable = zbf.readable ++ data := by
  have hrPos : (zbf.skip n).rPos - n = zbf.rPos := by
    change min (zbf.rPos + n) zbf.bytes.length - n = zbf.rPos
    rw [ZBuf.len] at hn
    have := zbf.rPos_le
    omega
  change result.2.2.bytes.drop (result.2.2.rPos - n) = _
  rw [h.bytes, h.rPos, hrPos]
  exact drop_append_of_le_length zbf.rPos_le

/-- A read of what has arrived reads something, when there is room for it. -/
theorem linkSocketRecvZbuf_progress {socket : Socket} (hn : 0 < n) (hunread : socket.unread ≠ [])
    (hspace : 0 < zbf.spaceLeft) :
    (linkSocketRecvZbuf socket zbf (.arrived n)).2.1.unread.length < socket.unread.length := by
  have hblock : ¬(n = 0 ∨ socket.unread = []) := by
    rintro (h | h)
    · omega
    · exact hunread h
  have hlength := length_pos_of_ne_nil hunread
  simp only [linkSocketRecvZbuf, Socket.recv, if_neg hblock, length_drop]
  omega

/-! ### Processing a batch -/

/-- `_z_unicast_peer_flow_state_e` -/
inductive FlowState
  | inactive
  | pendingSize
  | pendingData
  | ready
deriving DecidableEq, Repr

/-- The part of `_z_transport_peer_unicast_t` that the readers use -/
structure TransportPeerUnicast where
  flowState : FlowState
  flowCurrSize : UInt16
  flowBuff : ZBuf

/-- A reader with the buffer of the transport, the peer it reads from, the peer's socket and
the batches handed to message processing. -/
structure UnicastReader where
  zbuf : ZBuf
  peer : TransportPeerUnicast
  socket : Socket
  delivery : Delivery

/-- A new connection that is about to receive a stream of batches -/
def UnicastReader.init (capacity : ℕ) (batches : List (List UInt8)) : UnicastReader where
  zbuf := .make capacity
  peer := { flowState := .inactive, flowCurrSize := 0, flowBuff := .null }
  socket := { received := [], unread := batchFraming.stream batches }
  delivery := { handed := [], dropped := false }

/-- `_z_unicast_update_rx_buffer`: a buffer that a payload holds on to is given up for a new
one, with the bytes that are left. -/
def unicastUpdateRxBuffer (zbf : ZBuf) : Processed → ZBuf
  | .retained => (ZBuf.make zbf.capacity).copyBytes zbf
  | _ => zbf

/-- `_z_unicast_process_messages` on the next `toRead` bytes of the flow buffer of a peer that
is ready, or else of the main buffer. -/
def unicastProcessMessages (session : Session) (r : UnicastReader) (toRead : ℕ) : UnicastReader :=
  let isReady := r.peer.flowState = .ready
  let batch := (if isReady then r.peer.flowBuff else r.zbuf).readable.take toRead
  let delivery := deliver session r.delivery batch
  if delivery.dropped then { r with delivery }
  else
    let zbuf := if isReady then r.zbuf else r.zbuf.skip toRead
    { zbuf := unicastUpdateRxBuffer zbuf (session delivery.handed)
      peer := { r.peer with
        flowBuff := if isReady then r.peer.flowBuff.skip toRead else r.peer.flowBuff }
      socket := r.socket
      delivery }

@[simp]
theorem capacity_unicastUpdateRxBuffer (zbf : ZBuf) (result : Processed) :
    (unicastUpdateRxBuffer zbf result).capacity = zbf.capacity := by
  cases result <;> rfl

@[simp]
theorem readable_unicastUpdateRxBuffer (zbf : ZBuf) (result : Processed) :
    (unicastUpdateRxBuffer zbf result).readable = zbf.readable := by
  cases result with
  | failed => rfl
  | released => rfl
  | retained =>
    have hspace : zbf.readable.length ≤ (ZBuf.make zbf.capacity).spaceLeft := by
      have := zbf.length_le
      rw [ZBuf.length_readable, ZBuf.len]
      simp only [ZBuf.spaceLeft, ZBuf.make, length_nil]
      omega
    rw [unicastUpdateRxBuffer, ZBuf.copyBytes, ZBuf.readable_write _ hspace, ZBuf.readable_make,
      nil_append]

section Process

variable {session : Session} {r : UnicastReader} {toRead : ℕ}

@[simp]
theorem socket_unicastProcessMessages :
    (unicastProcessMessages session r toRead).socket = r.socket := by
  simp only [unicastProcessMessages]
  split_ifs <;> rfl

@[simp]
theorem flowState_unicastProcessMessages :
    (unicastProcessMessages session r toRead).peer.flowState = r.peer.flowState := by
  simp only [unicastProcessMessages]
  split_ifs <;> rfl

theorem delivery_unicastProcessMessages :
    (unicastProcessMessages session r toRead).delivery = deliver session r.delivery
      ((if r.peer.flowState = .ready then r.peer.flowBuff else r.zbuf).readable.take toRead) := by
  simp only [unicastProcessMessages]
  split_ifs <;> rfl

@[simp]
theorem capacity_unicastProcessMessages :
    (unicastProcessMessages session r toRead).zbuf.capacity = r.zbuf.capacity := by
  simp only [unicastProcessMessages]
  split_ifs <;> simp

/-- What is left of the main buffer after a batch of it was processed. -/
theorem readable_unicastProcessMessages (hready : r.peer.flowState ≠ .ready)
    (hdropped : (unicastProcessMessages session r toRead).delivery.dropped = false) :
    (unicastProcessMessages session r toRead).zbuf.readable = r.zbuf.readable.drop toRead ∧
      (unicastProcessMessages session r toRead).peer = r.peer := by
  rw [delivery_unicastProcessMessages, if_neg hready] at hdropped
  simp only [unicastProcessMessages, if_neg hready, hdropped, Bool.false_eq_true, if_false,
    readable_unicastUpdateRxBuffer, ZBuf.readable_skip, and_self]

end Process

/-! ### A place in the stream -/

/-- A reader is at a place in its stream: it was handed the batches `done` and holds the bytes
`rest` of what follows, the batches `pending`. -/
structure StreamAt (session : Session) (done pending : List (List UInt8)) (rest : List UInt8)
    (delivery : Delivery) (socket : Socket) : Prop where
  delivery_eq : delivery = deliverAll session done
  received_eq : socket.received = batchFraming.stream done ++ rest
  unread_eq : rest ++ socket.unread = batchFraming.stream pending
  length_lt : ∀ b ∈ pending, b.length < batchFraming.limit

namespace StreamAt

variable {session : Session} {done pending : List (List UInt8)} {rest : List UInt8}
  {delivery : Delivery} {socket : Socket}

theorem recv (h : StreamAt session done pending rest delivery socket)
    (hrecv : Recv socket zbf readiness data result) :
    StreamAt session done pending (rest ++ data) delivery result.2.1 where
  delivery_eq := h.delivery_eq
  received_eq := by rw [hrecv.received, h.received_eq, append_assoc]
  unread_eq := by rw [append_assoc, hrecv.unread, h.unread_eq]
  length_lt := h.length_lt

variable {size tail : List UInt8}

/-- A length that was received is that of the next batch. -/
theorem head (h : StreamAt session done pending rest delivery socket) (hrest : rest = size ++ tail)
    (hsize : size.length = msgLenEncSize) :
    ∃ b pending', pending = b :: pending' ∧ batchFraming.decode size = b.length ∧
      tail ++ socket.unread = b ++ batchFraming.stream pending' := by
  have hsize' : size.length = batchFraming.width := hsize
  have hwidth : batchFraming.width ≤ rest.length := by
    rw [hrest, length_append, hsize']
    exact Nat.le_add_right _ _
  obtain ⟨b, pending', hpending, -, hdecode, hdrop⟩ :=
    Framing.decode_take h.length_lt h.unread_eq hwidth (by decide)
  rw [hrest, take_left' hsize'] at hdecode
  rw [hrest, drop_left' hsize'] at hdrop
  exact ⟨b, pending', hpending, hdecode, hdrop⟩

/-- A batch that was received as a whole is the next one. -/
theorem deliver (h : StreamAt session done pending rest delivery socket)
    (hrest : rest = size ++ tail) (hsize : size.length = msgLenEncSize)
    (hn : batchFraming.decode size = n) (hle : n ≤ tail.length) :
    ∃ pending', pending = tail.take n :: pending' ∧
      StreamAt session (done ++ [tail.take n]) pending' (tail.drop n)
        (Transport.deliver session delivery (tail.take n)) socket := by
  obtain ⟨b, pending', hpending, hdecode, happend⟩ := h.head hrest hsize
  obtain rfl : n = b.length := hn.symm.trans hdecode
  obtain ⟨htake, hdrop⟩ := Framing.eq_append_of_length_le happend hle
  rw [htake]
  refine ⟨pending', hpending, ?_, ?_, hdrop, ?_⟩
  · rw [deliverAll_append_singleton, ← h.delivery_eq]
  · have hframe := h.received_eq
    have hunread := h.unread_eq
    rw [hpending, Framing.stream_cons, ← hdrop, ← append_assoc] at hunread
    rw [hframe, append_cancel_right hunread, Framing.stream_append, Framing.stream_cons,
      Framing.stream_nil, append_nil, append_assoc]
  · intro b' hb'
    exact h.length_lt b' (hpending ▸ mem_cons_of_mem _ hb')

/-- A batch that was received in part is not among the whole ones. -/
theorem complete_eq_nil (h : StreamAt session done pending rest delivery socket)
    (hrest : rest = size ++ tail) (hsize : size.length = msgLenEncSize)
    (hlt : tail.length < batchFraming.decode size) :
    batchFraming.complete rest.length pending = [] := by
  obtain ⟨b, pending', hpending, hdecode, -⟩ := h.head hrest hsize
  refine Framing.complete_eq_nil fun b' hb' ↦ ?_
  rw [hpending, List.head?_cons, Option.mem_some_iff] at hb'
  subst hb'
  rw [hrest, length_append, hsize, ← hdecode]
  exact Nat.add_lt_add_left hlt _

/-- Less than a length is no batch. -/
theorem complete_eq_nil_of_length_lt (hlt : rest.length < msgLenEncSize) :
    batchFraming.complete rest.length pending = [] :=
  Framing.complete_eq_nil fun _ _ ↦ lt_of_lt_of_le hlt (Nat.le_add_right _ _)

/-- What was handed at a place where no whole batch waits, or none is handed any more. -/
theorem deliverAll_complete (h : StreamAt session done pending rest delivery socket)
    (hsettled : delivery.dropped = true ∨ batchFraming.complete rest.length pending = []) :
    deliverAll session (batchFraming.complete socket.received.length (done ++ pending)) =
      delivery := by
  rw [h.received_eq, length_append, Framing.complete_append]
  rcases hsettled with hdropped | hcomplete
  · rw [h.delivery_eq] at hdropped ⊢
    exact deliverAll_append_of_dropped hdropped _
  · rw [hcomplete, append_nil, h.delivery_eq]

/-- What was received of the stream and what is still to come -/
theorem received_append_unread (h : StreamAt session done pending rest delivery socket) :
    socket.received ++ socket.unread = batchFraming.stream (done ++ pending) := by
  rw [h.received_eq, append_assoc, h.unread_eq, Framing.stream_append]

theorem offset_eq (h : StreamAt session done pending rest delivery socket)
    (hcomplete : batchFraming.complete rest.length pending = []) :
    batchFraming.offset socket.received.length (done ++ pending) = rest.length := by
  rw [h.received_eq, length_append, Framing.offset_append hcomplete]

end StreamAt

end ZenohPico.Transport
