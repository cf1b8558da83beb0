import ZenohPico.Transport.RawethSend

/-!
Raw ethernet fragments at their receiver (`src/transport/raweth/tx.c`,
`src/transport/multicast/rx.c`).

A node receives all that another one sends, in order, from some JOIN of it on. Its channels then
stand at the last numbers that were sent, with nothing in their buffers (`InOrder.inStep`). A large
message is delivered when it is sent in one fragment; of more fragments only the first has a number
that the receiver accepts (`rawethAgrees_iff`).
-/

open List

namespace ZenohPico.Transport

open Foundations Protocol

variable {reorderWindow : ℕ} {Msg : Type}

/-! ### Reading a frame -/

/-- How `_z_multicast_handle_transport_message` hands a message on -/
def rxMessage (msg : TransportMessage) : Option RxMessage :=
  let r : Reliability := if hasFlag msg.header 0x20 then .reliable else .bestEffort
  match msg.body with
  | .frame body => some (.frame ⟨r, body.sn, body.payload⟩)
  | .fragment body =>
    some (.fragment ⟨r, hasFlag msg.header 0x40, body.sn, body.payload, body.first, body.drop⟩)
  | _ => none

/-- What a receiver reads behind the ethernet header -/
def rawethRead (socket : RawethSocket) (frame : List UInt8) : Option RxMessage :=
  match transportMessageDecode true (frame.drop socket.headerSize) with
  | .ok (msg, _) => rxMessage msg
  | .error _ => none

theorem drop_frame (socket : RawethSocket) (bytes : List UInt8) :
    (socket.frame bytes).drop socket.headerSize = bytes := by
  rw [RawethSocket.frame, ← socket.length_header bytes.length, drop_left]

theorem fragment_header_flags (more reliable first : Bool) :
    hasFlag (0x06 ||| flagIf more 0x40 ||| flagIf reliable 0x20 ||| flagIf first 0x80) 0x20 =
        reliable ∧
      hasFlag (0x06 ||| flagIf more 0x40 ||| flagIf reliable 0x20 ||| flagIf first 0x80) 0x40 =
        more := by
  cases more <;> cases reliable <;> cases first <;> decide

theorem reliability_flag (r : Reliability) :
    (if r == .reliable then Reliability.reliable else .bestEffort) = r := by
  cases r <;> rfl

/-- The bytes of a fragment are decoded as the fragment. -/
theorem transportMessageDecode_fragment {msg : Fragment} (hdrop : msg.drop = false) :
    ∃ tMsg, transportMessageDecode true msg.bytes = .ok (tMsg, []) ∧
      rxMessage tMsg = some (.fragment msg) := by
  obtain ⟨r, more, sn, payload, first, drop⟩ := msg
  obtain rfl : drop = false := hdrop
  obtain ⟨bytes, henc, hdec⟩ := makeFragment_roundTrips true sn payload r (!more) first false
  have hbytes : Fragment.bytes ⟨r, more, sn, payload, first, false⟩ = bytes := by
    have hext := (fragment_flags (!!more) (r == .reliable) (first || false)).2
    simp only [transportMessageEncode, makeFragment, fragmentEncode, hext, Bool.and_not_self,
      Bool.false_eq_true, ↓reduceIte, append_nil] at henc
    refine Eq.trans ?_ (Except.ok.inj henc)
    cases first <;>
      simp only [Fragment.bytes, fragmentHeaderWrites, makeFragmentHeader, makeFragment,
        Bool.false_eq_true, ↓reduceIte, flatten_append, flatten_cons, flatten_nil,
        append_nil, cons_append, append_assoc] <;>
      rfl
  obtain ⟨hreliable, hmore⟩ := fragment_header_flags more (r == .reliable) (first || false)
  rw [hbytes]
  refine ⟨_, hdec, ?_⟩
  simp only [rxMessage, received, makeFragment, Bool.not_not, hreliable, hmore, reliability_flag]

/-- The bytes of a frame are decoded as the frame, and its payload is not consumed. -/
theorem transportMessageDecode_frame (r : Reliability) (sn : UInt64) (payload : List UInt8) :
    ∃ tMsg, transportMessageDecode true ((frameHeaderWrites sn r).flatten ++ payload) =
        .ok (tMsg, payload) ∧ rxMessage tMsg = some (.frame ⟨r, sn, payload⟩) := by
  obtain ⟨bytes, henc, hdec⟩ := makeFrame_roundTrips true sn payload r
  have hbytes : (frameHeaderWrites sn r).flatten ++ payload = bytes := by
    have hext : hasFlag (0x05 ||| flagIf (r == .reliable) 0x20) 0x80 = false := by
      cases r <;> decide
    simp only [transportMessageEncode, makeFrame, frameEncode, hext] at henc
    refine Eq.trans ?_ (Except.ok.inj henc)
    simp only [frameHeaderWrites, makeFrameHeader, flatten_cons, flatten_nil,
      append_nil, cons_append]
    rfl
  have hreliable : hasFlag (0x05 ||| flagIf (r == .reliable) 0x20) 0x20 = (r == .reliable) := by
    cases r <;> decide
  rw [hbytes]
  refine ⟨_, hdec, ?_⟩
  simp only [rxMessage, received, makeFrame, hreliable, reliability_flag]

/-- A fragment is read back. -/
theorem rawethRead_fragment (socket : RawethSocket) {msg : Fragment} (hdrop : msg.drop = false) :
    rawethRead socket (socket.frame msg.bytes) = some (.fragment msg) := by
  obtain ⟨tMsg, hdec, hmsg⟩ := transportMessageDecode_fragment hdrop
  rw [rawethRead, drop_frame, hdec]
  exact hmsg

/-- The payload of a frame is read back. -/
theorem rawethRead_frame (socket : RawethSocket) (r : Reliability) (sn : UInt64)
    (payload : List UInt8) :
    rawethRead socket (socket.frame ((frameHeaderWrites sn r).flatten ++ payload)) =
      some (.frame ⟨r, sn, payload⟩) := by
  obtain ⟨tMsg, hdec, hmsg⟩ := transportMessageDecode_frame r sn payload
  rw [rawethRead, drop_frame, hdec]
  exact hmsg

/-! ### Traffic in order -/

/-- A sender and a receiver of the same resolution -/
structure RawethNetwork where
  sender : RawethConfig
  rx : RxConfig
  join : JoinConfig
  rx_res : rx.snRes = snMax sender.bits
  join_res : join.snResolution = sender.bits

section Order

variable (net : RawethNetwork) (codec : NetworkCodec Msg)

/-- What a receiver reads of the frames that were sent between two states of the sender -/
def Receives (socket : RawethSocket) (tx tx' : TxCommon Unit) (msgs : List RxMessage) : Prop :=
  ∃ frames : List (List UInt8), tx'.sent = tx.sent ++ frames.map (Prod.mk ()) ∧
    frames.map (rawethRead socket) = msgs.map some

/-- A message is sent, and the receiver gets these messages. -/
def Sends (socket : RawethSocket) (r : Reliability) (msg : Msg) (tx tx' : TxCommon Unit)
    (msgs : List RxMessage) : Prop :=
  Settles (rawethSendNMsg net.sender socket r codec msg tx) (tx', .ok ()) ∧
    Receives socket tx tx' msgs

/-- The JOIN that a sender of the same build announces its numbers with -/
def rawethJoin (patch : ℕ) (tx : TxCommon Unit) : Join where
  version := net.join.protoVersion
  seqNumRes := net.join.snResolution
  reqIdRes := net.join.reqResolution
  batchSize := net.join.batchMulticastSize
  nextSnReliable := tx.snTxReliable
  nextSnBestEffort := tx.snTxBestEffort
  patch := patch

/-- A sender, and the peer that it is for a receiver that gets everything in order. -/
inductive InOrder : TxCommon Unit → Option (Peer reorderWindow) → Prop
  | start : InOrder (.init Unit) none
  | join {tx : TxCommon Unit} {entry : Option (Peer reorderWindow)} (hentry : InOrder tx entry)
    (patch : ℕ) : InOrder tx (multicastHandleJoin net.join (rawethJoin net patch tx) entry)
  | send {tx tx' : TxCommon Unit} {entry : Option (Peer reorderWindow)} (hentry : InOrder tx entry)
    (socket : RawethSocket) (r : Reliability) (msg : Msg) (msgs : List RxMessage)
    (hsends : Sends net codec socket r msg tx tx' msgs) :
    InOrder tx' (entry.map fun peer ↦ (receiveAll .multicast net.rx msgs peer).1)

end Order

/-- A channel with nothing in its buffer -/
def Conduit.Clean (conduit : Conduit) : Prop := conduit.dbuf = [] ∧ conduit.state = .null

/-- A channel stands at the number before the next one, with nothing in its buffer. -/
def Peer.InStep (windowed : Bool) (bits : ℕ) (next : ℤ) (r : Reliability)
    (peer : Peer reorderWindow) : Prop :=
  peer.Marked windowed bits r (next - 1) ∧ (peer.conduit r).Clean

variable {rest chunks : List (List UInt8)} {sn : UInt64}

section Steps

variable {windowed : Bool} {bits : ℕ} {cfg : RxConfig} {r : Reliability} {next : ℤ}
  {peer : Peer reorderWindow}

theorem close_of_near (h : IsResolution bits) {i j : ℤ} (hle : j ≤ i) (hnear : i ≤ j + 2) :
    SerialNumber.Close (snRange bits) j i := by
  have hrange := snRange_ge h
  constructor <;> omega

/-- A frame with the next number -/
theorem Peer.InStep.frame (h : IsResolution bits) (hres : cfg.snRes = snMax bits)
    (hW : 0 < reorderWindow) (hpeer : peer.InStep windowed bits next r) (payload : List UInt8) :
    (handleFrame windowed cfg ⟨r, snAt bits next, payload⟩ peer).1.InStep windowed bits (next + 1)
      r := by
  obtain ⟨hmark, hclean⟩ := hpeer
  obtain ⟨peer', hframe, hmark', -, hconduit⟩ := handleFrame_ahead h hres hW hmark
    (close_of_near h (by omega) (by omega)) (by omega : next - 1 < next) payload
  rw [hframe]
  refine ⟨by rwa [add_sub_cancel_right], ?_⟩
  rw [hconduit]
  exact hclean

/-- A frame on the other channel -/
theorem Peer.InStep.frame_other {msg : Frame} (hr : r ≠ msg.reliability)
    (hpeer : peer.InStep windowed bits next r) :
    (handleFrame windowed cfg msg peer).1.InStep windowed bits next r := by
  obtain ⟨⟨hsn, hwindow⟩, hclean⟩ := hpeer
  unfold handleFrame
  cases hmsg : msg.reliability <;> cases r <;> first | exact absurd hmsg.symm hr | skip
  · dsimp only
    split <;> exact ⟨⟨hsn, hwindow⟩, hclean⟩
  · dsimp only
    have hnone : Reliability.reliable = .bestEffort → windowed = true → False := by
      intro heq
      cases heq
    split
    · split <;> exact ⟨⟨hsn, fun heq hw ↦ (hnone heq hw).elim⟩, hclean⟩
    · split <;> exact ⟨⟨hsn, fun heq hw ↦ (hnone heq hw).elim⟩, hclean⟩

/-- A fragment on the other channel -/
theorem Peer.InStep.fragment_other {msg : Fragment} (hr : r ≠ msg.reliability)
    (hpeer : peer.InStep windowed bits next r) :
    (handleFragment cfg msg peer).1.InStep windowed bits next r := by
  obtain ⟨⟨hsn, hwindow⟩, hclean⟩ := hpeer
  have hconduit := handleFragment_other cfg msg peer hr
  refine ⟨⟨by rwa [hconduit], ?_⟩, by rwa [hconduit]⟩
  rintro rfl hw
  rw [handleFragment_window, if_neg fun hmsg ↦ hr hmsg.1.symm]
  exact hwindow rfl hw

/-- A fragment with the last number again empties the buffer. -/
theorem handleFragment_again (h : IsResolution bits) (hres : cfg.snRes = snMax bits) {mark : ℤ}
    (hmark : peer.Marked windowed bits r mark) {msg : Fragment} (hr : msg.reliability = r)
    (hsn : msg.sn = snAt bits mark) :
    (handleFragment cfg msg peer).1.InStep windowed bits (mark + 1) r ∧
      (handleFragment cfg msg peer).2 = none := by
  have hclose := close_of_near h (le_refl mark) (by omega)
  have hmark' := handleFragment_marked h hres hmark hclose hr hsn
  obtain ⟨hconduit, hevent, -⟩ := handleFragment_conduit cfg msg peer
  have hrefused : snPrecedes cfg.snRes (peer.conduit r).snRx msg.sn = false := by
    rw [← Bool.not_eq_true, hres, hmark.1, hsn, snPrecedes_iff_lt h hclose]
    omega
  rw [hr, Conduit.fragment, hrefused, if_neg Bool.false_ne_true] at hconduit hevent
  rw [max_self] at hmark'
  refine ⟨⟨by rwa [add_sub_cancel_right], ?_⟩, hevent⟩
  rw [hconduit]
  exact ⟨rfl, rfl⟩

/-- The only fragment of a message on a channel with nothing in its buffer -/
theorem Conduit.Clean.fragment_single {conduit : Conduit} (hclean : conduit.Clean)
    (cfg : RxConfig) (patch : ℕ) {msg : Fragment}
    (hahead : snPrecedes cfg.snRes conduit.snRx msg.sn = true)
    (hfirst : msg.first = true) (hmore : msg.more = false) (hdrop : msg.drop = false) :
    conduit.fragment cfg patch msg = ({ snRx := msg.sn, dbuf := [], state := .null },
      if msg.payload.length ≤ cfg.fragMaxSize then
        some (.reassembled msg.reliability msg.payload) else none) := by
  obtain ⟨sn, dbuf, state⟩ := conduit
  obtain ⟨rfl, rfl⟩ : dbuf = [] ∧ state = .null := hclean
  have habsorb : ({ snRx := msg.sn, dbuf := [], state := .null } : Conduit).absorb cfg.fragMaxSize
      msg = ({ snRx := msg.sn, dbuf := [], state := .null },
        if msg.payload.length ≤ cfg.fragMaxSize then
          some (.reassembled msg.reliability msg.payload) else none) := by
    by_cases hsize : msg.payload.length ≤ cfg.fragMaxSize
    · simp [absorb, allocate, fill, complete, hmore, clear, hsize, Nat.not_lt.mpr hsize]
    · simp [absorb, allocate, fill, complete, hmore, clear, hsize, Nat.lt_of_not_le hsize]
  rw [Conduit.fragment_ahead hahead]
  simp only [defragment, length_nil, Nat.lt_irrefl, decide_false, Bool.and_false,
    Bool.false_eq_true, ↓reduceIte, hfirst, hdrop, habsorb, ite_self]

theorem Peer.InStep.fragments_again (h : IsResolution bits) (hres : cfg.snRes = snMax bits)
    (kind : PeerKind) {mark : ℤ} (hmark : peer.Marked windowed bits r mark)
    (hempty : rest = [] → (peer.conduit r).Clean) :
    (receiveAll kind cfg ((rawethRun r (snAt bits mark) false rest).map .fragment)
      peer).1.InStep windowed bits (mark + 1) r := by
  induction rest generalizing peer with
  | nil => exact ⟨by rwa [add_sub_cancel_right], hempty rfl⟩
  | cons chunk rest ih =>
    rw [rawethRun, map_cons, receiveAll, receive_fragment]
    obtain ⟨⟨hmark', hclean⟩, -⟩ := handleFragment_again h hres hmark
      (show Fragment.reliability ⟨r, !rest.isEmpty, snAt bits mark, chunk, false, false⟩ = r
          from rfl)
      rfl
    rw [add_sub_cancel_right] at hmark'
    exact ih hmark' fun _ ↦ hclean

/-- The fragments of a large message, whose number is the one after the next: the number of the
frame is skipped. -/
theorem Peer.InStep.fragments (h : IsResolution bits) (hres : cfg.snRes = snMax bits)
    (kind : PeerKind) (hpeer : peer.InStep windowed bits next r) (chunk : List UInt8)
    (rest : List (List UInt8)) :
    (receiveAll kind cfg ((rawethRun r (snAt bits (next + 1)) true (chunk :: rest)).map .fragment)
      peer).1.InStep windowed bits (next + 2) r := by
  obtain ⟨hmark, hclean⟩ := hpeer
  have hclose : SerialNumber.Close (snRange bits) (next - 1) (next + 1) :=
    close_of_near h (by omega) (by omega)
  rw [rawethRun, map_cons, receiveAll, receive_fragment]
  set msg : Fragment := ⟨r, !rest.isEmpty, snAt bits (next + 1), chunk, true, false⟩
  have hr : msg.reliability = r := rfl
  have hmark' := handleFragment_marked h hres hmark hclose hr rfl
  rw [max_eq_right (by omega)] at hmark'
  have hnext : next + 2 = next + 1 + 1 := by ring
  rw [hnext]
  refine Peer.InStep.fragments_again h hres kind hmark' fun hempty ↦ ?_
  have hahead : snPrecedes cfg.snRes (peer.conduit r).snRx msg.sn = true := by
    rw [hres, hmark.1, snPrecedes_iff_lt h hclose]
    omega
  have hmore : msg.more = false := by
    simp only [msg, hempty, isEmpty_nil, Bool.not_true]
  rw [(handleFragment_conduit cfg msg peer).1,
    hclean.fragment_single cfg peer.patch hahead rfl hmore rfl]
  exact ⟨rfl, rfl⟩

/-- Fragments on the other channel -/
theorem Peer.InStep.fragments_other (kind : PeerKind) {msgs : List Fragment}
    (hr : ∀ msg ∈ msgs, r ≠ msg.reliability) (hpeer : peer.InStep windowed bits next r) :
    (receiveAll kind cfg (msgs.map .fragment) peer).1.InStep windowed bits next r := by
  induction msgs generalizing peer with
  | nil => exact hpeer
  | cons msg msgs ih =>
    rw [map_cons, receiveAll, receive_fragment]
    exact ih (fun other hother ↦ hr other (mem_cons_of_mem _ hother))
      (hpeer.fragment_other (hr msg mem_cons_self))

end Steps

/-! ### The channels of a receiver -/

theorem reliability_of_mem_rawethRun {r : Reliability} {first : Bool} {msg : Fragment}
    (h : msg ∈ rawethRun r sn first chunks) :
    msg.reliability = r ∧ msg.sn = sn ∧ msg.drop = false := by
  induction chunks generalizing first with
  | nil => cases h
  | cons chunk rest ih =>
    rcases mem_cons.mp h with rfl | h
    · exact ⟨rfl, rfl, rfl⟩
    · exact ih h

/-- What the frames of fragments are read as -/
theorem receives_framesOf {socket : RawethSocket} {tx tx' : TxCommon Unit} {r : Reliability}
    {first : Bool} (h : tx'.sent = tx.sent ++ framesOf socket (rawethRun r sn first chunks)) :
    Receives socket tx tx' ((rawethRun r sn first chunks).map .fragment) := by
  refine ⟨(rawethRun r sn first chunks).map fun msg ↦ socket.frame msg.bytes, ?_, ?_⟩
  · rw [h, framesOf, map_map]
    rfl
  · rw [map_map, map_map]
    exact map_congr_left fun msg hmsg ↦
      rawethRead_fragment socket (reliability_of_mem_rawethRun hmsg).2.2

/-- A receiver reads one thing of what was sent. -/
theorem Receives.unique {socket : RawethSocket} {tx tx' : TxCommon Unit}
    {msgs msgs' : List RxMessage} (h : Receives socket tx tx' msgs)
    (h' : Receives socket tx tx' msgs') : msgs = msgs' := by
  obtain ⟨frames, hsent, hread⟩ := h
  obtain ⟨frames', hsent', hread'⟩ := h'
  have hframes : frames = frames' := by
    refine map_injective_iff.mpr (fun a b hab ↦ (Prod.mk.inj hab).2)
      (append_cancel_left (hsent.symm.trans hsent'))
  refine map_injective_iff.mpr (fun a b hab ↦ Option.some.inj hab) ?_
  rw [← hread, ← hread', hframes]

section Network

variable {net : RawethNetwork} {codec : NetworkCodec Msg} {socket : RawethSocket} {r : Reliability}
  {msg : Msg} {tx tx' : TxCommon Unit} {msgs : List RxMessage}

/-- A message that fits behind the header of its frame is sent in it. -/
theorem Sends.frame (h : Sends net codec socket r msg tx tx' msgs)
    (hbegins : RawethBegins net.sender socket r tx)
    (hlarge : ¬ RawethLarge net.sender socket r codec msg tx) :
    msgs = [.frame ⟨r, tx.counter r, codec.encode msg⟩] ∧ NumberTaken net.sender r tx tx' := by
  obtain ⟨hsettles, hreceives⟩ := h
  obtain ⟨after, hsend, hsent, htaken⟩ := rawethSendNMsg_frame hbegins hlarge
  obtain rfl : after = tx' := (Prod.mk.inj ((settles_const hsend).unique hsettles)).1
  refine ⟨hreceives.unique ⟨[_], hsent, ?_⟩, htaken⟩
  rw [map_cons, rawethRead_frame]
  rfl

/-- Where the first fragment of a message starts behind the ethernet header -/
def rawethStart (net : RawethNetwork) (socket : RawethSocket) (r : Reliability)
    (tx : TxCommon Unit) : ℕ :=
  socket.headerSize + fragmentHeaderLength (fragmentsSn net.sender r tx) true

/-- The fragments of a large message -/
structure InFragments (net : RawethNetwork) (codec : NetworkCodec Msg) (socket : RawethSocket)
    (r : Reliability) (msg : Msg) (tx tx' : TxCommon Unit) (chunk : List UInt8)
    (rest : List (List UInt8)) : Prop where
  start_le : rawethStart net socket r tx ≤ net.sender.capacity
  flatten_eq : (chunk :: rest).flatten = codec.encode msg
  single_iff : rest = [] ↔
    (codec.encode msg).length ≤ net.sender.capacity - rawethStart net socket r tx
  counter_eq : ∀ r', tx'.counter r' =
    if r' = r then snIncrement net.sender.common.snRes (fragmentsSn net.sender r tx)
    else tx.counter r'

theorem RawethLarge.encode_ne (h : RawethBegins net.sender socket r tx)
    (hlarge : RawethLarge net.sender socket r codec msg tx) : codec.encode msg ≠ [] := by
  intro hnil
  unfold RawethLarge at hlarge
  unfold RawethBegins at h
  rw [hnil, length_nil] at hlarge
  omega

/-- A large message is sent in fragments when the header of the first one fits. -/
theorem rawethSendNMsg_fragments (hbegins : RawethBegins net.sender socket r tx)
    (hlarge : RawethLarge net.sender socket r codec msg tx)
    (hstart : rawethStart net socket r tx ≤ net.sender.capacity) : ∃ tx' chunk rest,
      Sends net codec socket r msg tx tx'
        ((rawethRun r (fragmentsSn net.sender r tx) true (chunk :: rest)).map .fragment) ∧
      InFragments net codec socket r msg tx tx' chunk rest := by
  obtain ⟨s, hsend, hfirst, hbuff, hsent, htaken⟩ := rawethSendNMsg_large hbegins hlarge
  have hsn : s.tx.counter r = fragmentsSn net.sender r tx := (htaken r).trans (if_pos rfl)
  have hne : s.fragBuff ≠ [] := hbuff ▸ hlarge.encode_ne hbegins
  have hheader : socket.headerSize + fragmentHeaderLength (s.tx.counter r) true =
      rawethStart net socket r tx := by rw [hsn, rawethStart]
  obtain ⟨tx', rest, hloop, hflatten, hsingle, hsent', htaken'⟩ :=
    rawethFragments_all hfirst hne hheader hstart
  refine ⟨tx', _, rest, ⟨?_, receives_framesOf (by rw [← hsn, hsent', hsent])⟩, hstart,
    by rw [hflatten, hbuff], by rw [hsingle, hbuff], fun r' ↦ ?_⟩
  · exact hloop.computes.settles.congr hsend
  · rw [htaken' r', hsn]
    split_ifs with hr
    · rfl
    · rw [htaken r', if_neg hr]

/-- What can be sent: nothing without room for the headers -/
theorem Sends.begins (h : Sends net codec socket r msg tx tx' msgs) :
    RawethBegins net.sender socket r tx := by
  by_contra hnot
  obtain ⟨after, hsend⟩ : ∃ after, ∀ n, rawethSendNMsg net.sender socket r codec msg tx n =
      some (after, .error .transportNoSpace) := rawethSendNMsg_refused hnot
  cases (settles_const hsend).unique h.1

theorem Sends.large (h : Sends net codec socket r msg tx tx' msgs)
    (hlarge : RawethLarge net.sender socket r codec msg tx) : ∃ chunk rest,
      msgs = (rawethRun r (fragmentsSn net.sender r tx) true (chunk :: rest)).map .fragment ∧
      InFragments net codec socket r msg tx tx' chunk rest := by
  have hbegins := h.begins
  obtain ⟨hsettles, hreceives⟩ := h
  rcases Nat.lt_or_ge net.sender.capacity (rawethStart net socket r tx) with hfull | hstart
  · obtain ⟨s, hsend, hfirst, hbuff, -, htaken⟩ := rawethSendNMsg_large hbegins hlarge
    have hsn : s.tx.counter r = fragmentsSn net.sender r tx := (htaken r).trans (if_pos rfl)
    obtain ⟨after, hloop⟩ := rawethFragments_full hfirst (hbuff ▸ hlarge.encode_ne hbegins)
      (by rwa [hsn])
    cases (hloop.computes.settles.congr hsend).unique hsettles
  · obtain ⟨after, chunk, rest, ⟨hsettles', hreceives'⟩, hfragments⟩ :=
      rawethSendNMsg_fragments hbegins hlarge hstart
    obtain rfl : after = tx' := (Prod.mk.inj (hsettles'.unique hsettles)).1
    exact ⟨chunk, rest, hreceives.unique hreceives', hfragments⟩

/-! ### Every state in order -/

theorem snIncrement_position (net : RawethNetwork) {r : Reliability} {tx : TxCommon Unit} {pos : ℤ}
    (h : tx.counter r = snAt net.sender.bits pos) :
    snIncrement net.sender.common.snRes (tx.counter r) = snAt net.sender.bits (pos + 1) := by
  rw [h]
  exact snIncrement_snAt net.sender.resolution pos

variable {entry : Option (Peer reorderWindow)}

/-- A JOIN puts the channels at the numbers before the next ones. -/
theorem multicastHandleJoin_rawethJoin (windowed : Bool) (patch : ℕ) {pos : Reliability → ℤ}
    (hpos : ∀ r, tx.counter r = snAt net.sender.bits (pos r))
    (hclean : ∀ peer, entry = some peer → ∀ r, (peer.conduit r).Clean) : ∃ peer,
    multicastHandleJoin net.join (rawethJoin net patch tx) entry = some peer ∧
      ∀ r, peer.InStep windowed net.sender.bits (pos r) r := by
  have hcompatible : (rawethJoin net patch tx).Compatible net.join := ⟨rfl, rfl, rfl⟩
  have hprevious (r : Reliability) : snDecrement (snMax net.sender.bits) (tx.counter r) =
      snAt net.sender.bits (pos r - 1) := by
    have hdecrement := snDecrement_snAt net.sender.resolution (pos r - 1)
    rwa [sub_add_cancel, ← hpos r] at hdecrement
  have hreliable := hprevious .reliable
  have hbestEffort := hprevious .bestEffort
  have hversion : ¬ (rawethJoin net patch tx).version ≠ net.join.protoVersion := fun hne ↦ hne rfl
  unfold multicastHandleJoin
  rw [if_neg hversion]
  cases entry with
  | none =>
    refine ⟨_, if_pos hcompatible, fun r ↦ ?_⟩
    have hres : (rawethJoin net patch tx).seqNumRes = net.sender.bits := net.join_res
    rw [hres]
    cases r with
    | reliable => exact ⟨⟨hreliable, fun heq ↦ Reliability.noConfusion heq⟩, rfl, rfl⟩
    | bestEffort => exact ⟨⟨hbestEffort, fun _ _ ↦ hbestEffort⟩, rfl, rfl⟩
  | some peer =>
    refine ⟨_, if_pos hcompatible, fun r ↦ ?_⟩
    have hclean' := hclean peer rfl
    rw [net.join_res]
    cases r with
    | reliable =>
      exact ⟨⟨hreliable, fun heq ↦ Reliability.noConfusion heq⟩, hclean' .reliable⟩
    | bestEffort => exact ⟨⟨hbestEffort, fun _ _ ↦ hbestEffort⟩, hclean' .bestEffort⟩

/-- In every state the channels of the receiver stand where the sender's are, with nothing in their
buffers. -/
theorem InOrder.inStep (hW : 0 < reorderWindow) (h : InOrder net codec tx entry) :
    ∃ pos : Reliability → ℤ,
    (∀ r, tx.counter r = snAt net.sender.bits (pos r)) ∧ ∀ peer, entry = some peer → ∀ r,
      peer.InStep (PeerKind.multicast.windowed net.rx.link) net.sender.bits (pos r) r := by
  have hres := net.sender.resolution
  induction h with
  | start =>
    refine ⟨fun _ ↦ 0, fun r ↦ ?_, fun peer hpeer ↦ by cases hpeer⟩
    have hzero : snAt net.sender.bits 0 = 0 := by
      rw [snAt, Int.zero_emod]
      rfl
    rw [hzero]
    cases r <;> rfl
  | join hentry patch ih =>
    obtain ⟨pos, hpos, hsteps⟩ := ih
    obtain ⟨after, hjoin, hafter⟩ := multicastHandleJoin_rawethJoin
      (PeerKind.multicast.windowed net.rx.link) patch hpos fun peer hpeer r ↦ (hsteps peer hpeer r).2
    refine ⟨pos, hpos, fun peer hpeer r ↦ ?_⟩
    obtain rfl : after = peer := Option.some.inj (hjoin.symm.trans hpeer)
    exact hafter r
  | @send tx tx' entry hentry socket r msg msgs hsends ih =>
    obtain ⟨pos, hpos, hsteps⟩ := ih
    have hnext := snIncrement_position net (hpos r)
    by_cases hlarge : RawethLarge net.sender socket r codec msg tx
    · obtain ⟨chunk, rest, rfl, hfragments⟩ := hsends.large hlarge
      have hsn : fragmentsSn net.sender r tx = snAt net.sender.bits (pos r + 1) := hnext
      refine ⟨fun r' ↦ if r' = r then pos r + 2 else pos r', fun r' ↦ ?_, fun peer hpeer r' ↦ ?_⟩
      · rw [hfragments.counter_eq r']
        beta_reduce
        split_ifs with hr
        · have hlast : pos r + 2 = pos r + 1 + 1 := by ring
          rw [hsn, hlast]
          exact snIncrement_snAt hres _
        · exact hpos r'
      · obtain ⟨before, rfl, rfl⟩ := Option.map_eq_some_iff.mp hpeer
        beta_reduce
        split_ifs with hr
        · subst hr
          rw [hsn]
          exact (hsteps before rfl r').fragments hres net.rx_res .multicast chunk rest
        · exact (hsteps before rfl r').fragments_other .multicast fun other hother heq ↦
            hr (heq.trans (reliability_of_mem_rawethRun hother).1)
    · obtain ⟨rfl, htaken⟩ := hsends.frame hsends.begins hlarge
      refine ⟨fun r' ↦ if r' = r then pos r + 1 else pos r', fun r' ↦ ?_, fun peer hpeer r' ↦ ?_⟩
      · rw [htaken r']
        beta_reduce
        split_ifs with hr
        · exact hnext
        · exact hpos r'
      · obtain ⟨before, rfl, rfl⟩ := Option.map_eq_some_iff.mp hpeer
        rw [receiveAll, receiveAll, receive_frame]
        beta_reduce
        split_ifs with hr
        · subst hr
          rw [hpos r']
          exact (hsteps before rfl r').frame hres net.rx_res hW _
        · exact (hsteps before rfl r').frame_other hr

/-- A receiver may join in every state of the sender. -/
theorem InOrder.exists_join (hW : 0 < reorderWindow)
    (h : InOrder net codec tx (none : Option (Peer reorderWindow))) :
    ∃ peer : Peer reorderWindow, InOrder net codec tx (some peer) := by
  obtain ⟨pos, hpos, -⟩ := h.inStep hW
  have hclean : ∀ peer : Peer reorderWindow, none = some peer → ∀ r, (peer.conduit r).Clean := by
    rintro peer hpeer
    cases hpeer
  obtain ⟨peer, hjoin, -⟩ := multicastHandleJoin_rawethJoin false 1 hpos hclean
  exact ⟨peer, hjoin ▸ h.join 1⟩

end Network

/-! ### A large message -/

section Agreement

variable (net : RawethNetwork) (codec : NetworkCodec Msg) (socket : RawethSocket) (r : Reliability)
  (msg : Msg) (tx : TxCommon Unit) (peer : Peer reorderWindow)

/-- The fragments of a message have consecutive numbers of its channel. -/
def Numbered (msgs : List Fragment) : Prop :=
  (∀ other ∈ msgs, other.reliability = r) ∧
    msgs.IsChain fun before after ↦ after.sn = snIncrement net.rx.snRes before.sn

/-- A message is sent in fragments with consecutive numbers of its channel, and a receiver that gets
them delivers it and nothing else. -/
def RawethAgrees : Prop :=
  ∃ tx' msgs, Sends net codec socket r msg tx tx' (msgs.map .fragment) ∧ Numbered net r msgs ∧
    (receiveAll .multicast net.rx (msgs.map .fragment) peer).2 = [.reassembled r (codec.encode msg)]

variable {net codec socket r msg tx peer}

theorem numbered_rawethRun_iff {chunk : List UInt8} :
    Numbered net r (rawethRun r sn true (chunk :: rest)) ↔ rest = [] := by
  constructor
  · rintro ⟨-, hchain⟩
    cases rest with
    | nil => rfl
    | cons next rest =>
      -- the second fragment has the number of the first one
      rw [rawethRun, rawethRun, isChain_cons_cons] at hchain
      have hahead := snPrecedes_increment net.sender.resolution sn
      rw [← net.rx_res, ← hchain.1] at hahead
      simp [snPrecedes] at hahead
  · rintro rfl
    refine ⟨fun other hother ↦ (reliability_of_mem_rawethRun hother).1, ?_⟩
    exact isChain_singleton _

/-- A large message agrees with the receiver only when it is sent in one fragment. -/
theorem RawethAgrees.single (h : RawethAgrees net codec socket r msg tx peer)
    (hlarge : RawethLarge net.sender socket r codec msg tx) : RawethBegins net.sender socket r tx ∧
      rawethStart net socket r tx + (codec.encode msg).length ≤ net.sender.capacity ∧
      (receiveAll .multicast net.rx
        ((rawethRun r (fragmentsSn net.sender r tx) true [codec.encode msg]).map .fragment) peer).2 =
          [.reassembled r (codec.encode msg)] := by
  obtain ⟨tx', msgs, hsends, hnumbered, hdelivers⟩ := h
  obtain ⟨chunk, rest, hmsgs, hfragments⟩ := hsends.large hlarge
  obtain rfl : msgs = rawethRun r (fragmentsSn net.sender r tx) true (chunk :: rest) :=
    map_injective_iff.mpr (fun a b hab ↦ RxMessage.fragment.inj hab) hmsgs
  obtain rfl := numbered_rawethRun_iff.mp hnumbered
  have hfits := hfragments.single_iff.mp rfl
  have hstart := hfragments.start_le
  have hwhole : chunk = codec.encode msg := by simpa using hfragments.flatten_eq
  subst hwhole
  exact ⟨hsends.begins, by omega, hdelivers⟩

/-- The only fragment of a message is delivered when it fits in the receiver's buffer. -/
theorem receiveAll_single {next : ℤ} {windowed : Bool}
    (hpeer : peer.InStep windowed net.sender.bits next r) (chunk : List UInt8) :
    (receiveAll .multicast net.rx
      ((rawethRun r (snAt net.sender.bits (next + 1)) true [chunk]).map .fragment) peer).2 =
        [.reassembled r chunk] ↔ chunk.length ≤ net.rx.fragMaxSize := by
  have hres := net.sender.resolution
  have hrun : rawethRun r (snAt net.sender.bits (next + 1)) true [chunk] =
      [⟨r, false, snAt net.sender.bits (next + 1), chunk, true, false⟩] := rfl
  have hahead : snPrecedes net.rx.snRes (peer.conduit r).snRx
      (snAt net.sender.bits (next + 1)) = true := by
    rw [net.rx_res, hpeer.1.1, snPrecedes_iff_lt hres (close_of_near hres (by omega) (by omega))]
    omega
  rw [hrun]
  generalize snAt net.sender.bits (next + 1) = sn at hahead
  have hchannel : ∀ msg ∈ [(⟨r, false, sn, chunk, true, false⟩ : Fragment)], msg.reliability = r :=
    forall_mem_singleton.mpr rfl
  rw [receiveAll_fragments .multicast net.rx hchannel, Conduit.fragments, Conduit.fragments]
  have hone : (peer.conduit r).fragment net.rx peer.patch ⟨r, false, sn, chunk, true, false⟩ =
      ({ snRx := sn, dbuf := [], state := .null },
        if chunk.length ≤ net.rx.fragMaxSize then some (.reassembled r chunk) else none) :=
    hpeer.2.fragment_single net.rx peer.patch hahead rfl rfl rfl
  rw [hone]
  dsimp only
  by_cases hsize : chunk.length ≤ net.rx.fragMaxSize
  · rw [if_pos hsize]
    exact iff_of_true rfl hsize
  · rw [if_neg hsize]
    exact iff_of_false (cons_ne_nil _ _).symm hsize

end Agreement

/-- After any traffic in order, a message that does not fit in a frame agrees with the receiver
exactly when it fits in one fragment and in the receiver's buffer. -/
theorem rawethAgrees_iff {net : RawethNetwork} {codec : NetworkCodec Msg} {tx : TxCommon Unit}
    {peer : Peer reorderWindow} (hW : 0 < reorderWindow) (horder : InOrder net codec tx (some peer))
    {socket : RawethSocket} {r : Reliability} {msg : Msg}
    (hlarge : RawethLarge net.sender socket r codec msg tx) :
    RawethAgrees net codec socket r msg tx peer ↔ RawethBegins net.sender socket r tx ∧
        rawethStart net socket r tx + (codec.encode msg).length ≤ net.sender.capacity ∧
        (codec.encode msg).length ≤ net.rx.fragMaxSize := by
  obtain ⟨pos, hpos, hsteps⟩ := horder.inStep hW
  have hsn : fragmentsSn net.sender r tx = snAt net.sender.bits (pos r + 1) :=
    snIncrement_position net (hpos r)
  have hsingle := receiveAll_single (hsteps peer rfl r)
  constructor
  · intro h
    obtain ⟨hbegins, hfits, hdelivers⟩ := h.single hlarge
    rw [hsn, hsingle] at hdelivers
    exact ⟨hbegins, hfits, hdelivers⟩
  · rintro ⟨hbegins, hfits, hsize⟩
    obtain ⟨tx', chunk, rest, hsends, hfragments⟩ :=
      rawethSendNMsg_fragments hbegins hlarge (by omega)
    obtain rfl := hfragments.single_iff.mpr (by omega)
    have hwhole : chunk = codec.encode msg := by simpa using hfragments.flatten_eq
    subst hwhole
    refine ⟨tx', _, hsends, numbered_rawethRun_iff.mpr rfl, ?_⟩
    rw [hsn, hsingle]
    exact hsize

/-! ### A network -/

theorem isResolution_two : IsResolution 2 := by decide

theorem headed_forty : 20 ≤ 40 := by decide

/-- Numbers of 28 bits and a buffer of 40 bytes -/
def smallNetwork : RawethNetwork where
  sender := ⟨2, isResolution_two, 40, headed_forty⟩
  rx := ⟨snMax 2, 4096, ⟨true, false⟩⟩
  join := ⟨9, 2, 2, 2048⟩
  rx_res := rfl
  join_res := rfl

/-- A socket without a tag -/
def plainSocket : RawethSocket := ⟨Vector.replicate 6 0, Vector.replicate 6 0, 0x72E0, none⟩

/-- After so many messages without a payload -/
theorem exists_inOrder_counter (k : ℕ) : ∃ tx,
    InOrder smallNetwork putCodec tx (none : Option (Peer 256)) ∧
      tx.counter .reliable = snAt 2 k := by
  induction k with
  | zero => exact ⟨_, .start, by decide⟩
  | succ k ih =>
    obtain ⟨tx, horder, hcounter⟩ := ih
    have hzint := length_zint64Encode_le (tx.counter .reliable)
    rw [length_zint64Encode] at hzint
    have hempty : (putCodec.encode 0).length = 6 := by decide +kernel
    have hbegins : RawethBegins smallNetwork.sender plainSocket .reliable tx := by
      change 16 + (1 + zintLen _) ≤ 40
      omega
    have hfits : ¬ RawethLarge smallNetwork.sender plainSocket .reliable putCodec 0 tx := by
      change ¬ 40 < 16 + (1 + zintLen _) + _
      omega
    obtain ⟨tx', hsend, hsent, htaken⟩ := rawethSendNMsg_frame hbegins hfits
    have hreceives : Receives plainSocket tx tx'
        [.frame ⟨.reliable, tx.counter .reliable, putCodec.encode 0⟩] := by
      refine ⟨[_], hsent, ?_⟩
      rw [map_cons, rawethRead_frame]
      rfl
    refine ⟨tx', horder.send plainSocket .reliable 0 _ ⟨⟨0, fun n _ ↦ hsend n⟩, hreceives⟩, ?_⟩
    rw [htaken .reliable, if_pos rfl, snIncrement_position smallNetwork hcounter]
    rfl

/-- Where the numbers start again from 0, the header of a fragment is shorter than that of the frame
before it, and a message of 21 bytes goes in one fragment. -/
theorem rawethAgrees_wrap : ∃ (tx : TxCommon Unit) (peer : Peer 256),
    InOrder smallNetwork putCodec tx (some peer) ∧
      RawethLarge smallNetwork.sender plainSocket .reliable putCodec 15 tx ∧
      RawethAgrees smallNetwork putCodec plainSocket .reliable 15 tx peer := by
  obtain ⟨tx, hnone, hcounter⟩ := exists_inOrder_counter 268435455
  obtain ⟨peer, horder⟩ := hnone.exists_join (show 0 < 256 by decide)
  have hlast : tx.counter .reliable = 0x0FFFFFFF := hcounter.trans (by decide)
  have hlen : (putCodec.encode 15).length = 21 := by decide +kernel
  have hlarge : RawethLarge smallNetwork.sender plainSocket .reliable putCodec 15 tx := by
    unfold RawethLarge
    rw [hlast, hlen]
    decide
  refine ⟨tx, peer, horder, hlarge, (rawethAgrees_iff (by decide) horder hlarge).mpr ⟨?_, ?_, ?_⟩⟩
  · unfold RawethBegins
    rw [hlast]
    decide
  · unfold rawethStart fragmentsSn
    rw [hlast, hlen]
    decide
  · rw [hlen]
    decide

/-- A receiver that joins at once, and a message of 36 bytes: both its fragments have the number 1,
and it is not delivered. -/
theorem not_rawethAgrees_two : ∃ peer : Peer 256,
    InOrder smallNetwork putCodec (.init Unit) (some peer) ∧
      RawethLarge smallNetwork.sender plainSocket .reliable putCodec 30 (.init Unit) ∧
      (rawethSendNMsg smallNetwork.sender plainSocket .reliable putCodec 30 (.init Unit) 3).map
          (fun after ↦ after.1.sent.map fun frame ↦ (rawethRead plainSocket frame.2).map
            fun msg ↦ match msg with | .frame msg => msg.sn | .fragment msg => msg.sn) =
        some [some 1, some 1] ∧
      ¬ RawethAgrees smallNetwork putCodec plainSocket .reliable 30 (.init Unit) peer := by
  obtain ⟨peer, horder⟩ := InOrder.start.exists_join (show 0 < 256 by decide)
  have hlarge : RawethLarge smallNetwork.sender plainSocket .reliable putCodec 30 (.init Unit) := by
    unfold RawethLarge
    decide +kernel
  refine ⟨peer, horder, hlarge, by decide +kernel, fun h ↦ ?_⟩
  have hfits := (h.single hlarge).2.1
  revert hfits
  decide +kernel

end ZenohPico.Transport
