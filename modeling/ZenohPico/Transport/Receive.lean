import ZenohPico.Transport.SnWindow

/-!
Reception of frames, fragments and JOINs (`src/transport/unicast/rx.c`,
`src/transport/multicast/rx.c`).

A peer carries one sequence number and one reassembly buffer for each of the two
channels, and one duplicate-suppression window for best-effort frames. The two
receivers share their handlers up to the test that selects the window.
-/

namespace ZenohPico.Transport

/-! ### Messages -/

/-- `z_reliability_t` -/
inductive Reliability where
  | reliable
  | bestEffort
deriving DecidableEq, Repr

/-- `_z_t_msg_frame_t` with the reliability bit of its header. -/
structure Frame where
  reliability : Reliability
  sn : UInt64
  payload : List UInt8
deriving DecidableEq, Repr

/-- `_z_t_msg_fragment_t` with the reliability and the `M` bit of its header. -/
structure Fragment where
  reliability : Reliability
  more : Bool
  sn : UInt64
  payload : List UInt8
  first : Bool
  drop : Bool
deriving DecidableEq, Repr

/-- What a received transport message gives to the network layer: the payload of an accepted
frame, or the bytes of the reassembly buffer handed to `_z_network_message_decode`. -/
inductive RxEvent where
  | frame (reliability : Reliability) (sn : UInt64) (payload : List UInt8)
  | reassembled (reliability : Reliability) (bytes : List UInt8)
deriving DecidableEq, Repr

/-! ### State -/

/-- `_Z_DBUF_STATE_*` -/
inductive DbufState where
  | null
  | init
  | overflow
deriving DecidableEq, Repr

/-- The reception state of one channel: `_sn_rx_*`, `_dbuf_*` and `_state_*`. -/
structure Conduit where
  snRx : UInt64
  dbuf : List UInt8
  state : DbufState
deriving DecidableEq, Repr

/-- The reception state of a peer, unicast or multicast. -/
structure Peer (reorderWindow : ℕ) where
  reliable : Conduit
  bestEffort : Conduit
  bestEffortWindow : SnWindow reorderWindow
  patch : ℕ
deriving DecidableEq

/-- `_Z_CURRENT_PATCH` -/
def currentPatch : ℕ := 0x01

/-- `_Z_PATCH_HAS_FRAGMENT_MARKERS` -/
def patchHasFragmentMarkers (patch : ℕ) : Bool := 1 ≤ patch

/-- The flow and the type of the link, as far as reception looks at them. -/
structure LinkKind where
  datagram : Bool
  webTransport : Bool
deriving DecidableEq, Repr

/-- The values reception reads: the peer's sequence-number mask, `Z_FRAG_MAX_SIZE` and the link. -/
structure RxConfig where
  snRes : UInt64
  fragMaxSize : ℕ
  link : LinkKind
deriving DecidableEq, Repr

variable {reorderWindow : ℕ}

namespace Conduit

/-- A channel at its start: nothing received, no buffer. -/
def fresh (snRx : UInt64) : Conduit where
  snRx := snRx
  dbuf := []
  state := .null

/-- The buffer is cleared and its state reset. -/
def clear (conduit : Conduit) : Conduit := { conduit with dbuf := [], state := .null }

/-- `Allocate buffer if needed` -/
def allocate (conduit : Conduit) : Conduit :=
  if conduit.state = .null then { conduit with dbuf := [], state := .init } else conduit

/-- `Process fragment data` -/
def fill (conduit : Conduit) (fragMaxSize : ℕ) (payload : List UInt8) : Conduit :=
  if conduit.state = .init then
    if fragMaxSize < conduit.dbuf.length + payload.length then
      { conduit with state := .overflow }
    else { conduit with dbuf := conduit.dbuf ++ payload }
  else conduit

/-- `Process final fragment`: the buffer is dropped after an overflow, and moved out of the
channel otherwise. -/
def complete (conduit : Conduit) (msg : Fragment) : Conduit × Option RxEvent :=
  if msg.more then (conduit, none)
  else if conduit.state = .overflow then (conduit.clear, none)
  else (conduit.clear, some (.reassembled msg.reliability conduit.dbuf))

/-- The data part of a fragment: allocation, filling, completion. -/
def absorb (conduit : Conduit) (fragMaxSize : ℕ) (msg : Fragment) : Conduit × Option RxEvent :=
  (conduit.allocate.fill fragMaxSize msg.payload).complete msg

/-- The part of the fragment handlers below the sequence-number test. -/
def defragment (conduit : Conduit) (fragMaxSize patch : ℕ) (consecutive : Bool)
    (msg : Fragment) : Conduit × Option RxEvent :=
  if !consecutive && 0 < conduit.dbuf.length then (conduit.clear, none)
  else if patchHasFragmentMarkers patch then
    if msg.first then
      if msg.drop then ({ conduit with dbuf := [] }, none)
      else ({ conduit with dbuf := [] } : Conduit).absorb fragMaxSize msg
    else if conduit.dbuf.length = 0 then (conduit, none)
    else if msg.drop then ({ conduit with dbuf := [] }, none)
    else conduit.absorb fragMaxSize msg
  else conduit.absorb fragMaxSize msg

end Conduit

/-! ### The handlers -/

/-- `_z_unicast_handle_frame` and `_z_multicast_handle_frame` up to the loop over the network
messages; `windowed` is the test that selects the reorder window for best-effort frames. -/
def handleFrame (windowed : Bool) (cfg : RxConfig) (msg : Frame) (peer : Peer reorderWindow) :
    Peer reorderWindow × Option RxEvent :=
  let accepted := some (.frame msg.reliability msg.sn msg.payload)
  match msg.reliability with
  | .reliable =>
    if snPrecedes cfg.snRes peer.reliable.snRx msg.sn then
      ({ peer with reliable := { peer.reliable with snRx := msg.sn } }, accepted)
    else ({ peer with reliable := peer.reliable.clear }, none)
  | .bestEffort =>
    if windowed then
      let result := peer.bestEffortWindow.observe cfg.snRes msg.sn
      match result.2 with
      | .ahead =>
        ({ peer with
            bestEffortWindow := result.1
            bestEffort := { peer.bestEffort with snRx := msg.sn } }, accepted)
      | .reordered => ({ peer with bestEffortWindow := result.1 }, accepted)
      | _ => ({ peer with bestEffortWindow := result.1 }, none)
    else if snPrecedes cfg.snRes peer.bestEffort.snRx msg.sn then
      ({ peer with bestEffort := { peer.bestEffort with snRx := msg.sn } }, accepted)
    else ({ peer with bestEffort := peer.bestEffort.clear }, none)

/-- `_z_unicast_handle_frame` -/
def unicastHandleFrame (cfg : RxConfig) (msg : Frame) (peer : Peer reorderWindow) :
    Peer reorderWindow × Option RxEvent :=
  handleFrame (cfg.link.datagram || cfg.link.webTransport) cfg msg peer

/-- `_z_multicast_handle_frame`, for a known peer. -/
def multicastHandleFrame (cfg : RxConfig) (msg : Frame) (peer : Peer reorderWindow) :
    Peer reorderWindow × Option RxEvent :=
  handleFrame cfg.link.datagram cfg msg peer

/-- `_z_unicast_handle_fragment_inner` and `_z_multicast_handle_fragment_inner`, which do the
same on the fields of their peer. -/
def handleFragment (cfg : RxConfig) (msg : Fragment) (peer : Peer reorderWindow) :
    Peer reorderWindow × Option RxEvent :=
  match msg.reliability with
  | .reliable =>
    if snPrecedes cfg.snRes peer.reliable.snRx msg.sn then
      let consecutive := snConsecutive cfg.snRes peer.reliable.snRx msg.sn
      let result := ({ peer.reliable with snRx := msg.sn } : Conduit).defragment cfg.fragMaxSize
        peer.patch consecutive msg
      ({ peer with reliable := result.1 }, result.2)
    else ({ peer with reliable := peer.reliable.clear }, none)
  | .bestEffort =>
    if snPrecedes cfg.snRes peer.bestEffort.snRx msg.sn then
      let consecutive := snConsecutive cfg.snRes peer.bestEffort.snRx msg.sn
      let result := ({ peer.bestEffort with snRx := msg.sn } : Conduit).defragment cfg.fragMaxSize
        peer.patch consecutive msg
      ({ peer with
          bestEffort := result.1
          bestEffortWindow := SnWindow.reset reorderWindow msg.sn }, result.2)
    else ({ peer with bestEffort := peer.bestEffort.clear }, none)

/-- `_z_unicast_handle_fragment_inner` -/
def unicastHandleFragment (cfg : RxConfig) (msg : Fragment) (peer : Peer reorderWindow) :
    Peer reorderWindow × Option RxEvent :=
  handleFragment cfg msg peer

/-- `_z_multicast_handle_fragment_inner`, for a known peer. -/
def multicastHandleFragment (cfg : RxConfig) (msg : Fragment) (peer : Peer reorderWindow) :
    Peer reorderWindow × Option RxEvent :=
  handleFragment cfg msg peer

/-! ### Peers -/

/-- The reception fields of a peer that has just been created. -/
def Peer.fresh (reorderWindow : ℕ) (snReliable snBestEffort : UInt64) (patch : ℕ) :
    Peer reorderWindow where
  reliable := Conduit.fresh snReliable
  bestEffort := Conduit.fresh snBestEffort
  bestEffortWindow := SnWindow.reset reorderWindow snBestEffort
  patch := patch

/-- `_z_transport_peer_unicast_add`, given the remote side's initial sequence number and the
patch of the handshake. -/
def transportPeerUnicastAdd (reorderWindow : ℕ) (snRes initialSnRx : UInt64) (patch : ℕ) :
    Peer reorderWindow :=
  Peer.fresh reorderWindow (snDecrement snRes initialSnRx) (snDecrement snRes initialSnRx)
    (if patch < currentPatch then patch else currentPatch)

/-- The fields of `_z_t_msg_join_t` that `_z_multicast_handle_join_inner` reads for reception;
`nextSnReliable` and `nextSnBestEffort` are its plain sequence-number list. -/
structure Join where
  version : ℕ
  seqNumRes : ℕ
  reqIdRes : ℕ
  batchSize : ℕ
  nextSnReliable : UInt64
  nextSnBestEffort : UInt64
  patch : ℕ
deriving DecidableEq, Repr

/-- The build's `Z_PROTO_VERSION`, `Z_SN_RESOLUTION`, `Z_REQ_RESOLUTION` and
`Z_BATCH_MULTICAST_SIZE`. -/
structure JoinConfig where
  protoVersion : ℕ
  snResolution : ℕ
  reqResolution : ℕ
  batchMulticastSize : ℕ
deriving DecidableEq, Repr

/-- The capabilities a JOIN announces are the ones of this node. -/
def Join.Compatible (cfg : JoinConfig) (msg : Join) : Prop :=
  msg.seqNumRes = cfg.snResolution ∧ msg.reqIdRes = cfg.reqResolution ∧
    msg.batchSize = cfg.batchMulticastSize

instance (cfg : JoinConfig) (msg : Join) : Decidable (msg.Compatible cfg) :=
  inferInstanceAs (Decidable (_ ∧ _ ∧ _))

/-- `_z_multicast_handle_join_inner`, on the peer's entry if there is one. -/
def multicastHandleJoin (cfg : JoinConfig) (msg : Join) :
    Option (Peer reorderWindow) → Option (Peer reorderWindow)
  | entry =>
    if msg.version ≠ cfg.protoVersion then entry
    else
      match entry with
      | none =>
        if msg.Compatible cfg then
          some (Peer.fresh reorderWindow
            (snDecrement (snMax msg.seqNumRes) msg.nextSnReliable)
            (snDecrement (snMax msg.seqNumRes) msg.nextSnBestEffort)
            (if msg.patch < currentPatch then msg.patch else currentPatch))
        else none
      | some peer =>
        if msg.Compatible cfg then
          let snBestEffort := snDecrement (snMax cfg.snResolution) msg.nextSnBestEffort
          some { peer with
            reliable := { peer.reliable with
              snRx := snDecrement (snMax cfg.snResolution) msg.nextSnReliable }
            bestEffort := { peer.bestEffort with snRx := snBestEffort }
            bestEffortWindow := SnWindow.reset reorderWindow snBestEffort }
        else none

/-! ### Receiving a sequence of messages -/

/-- The two receivers. -/
inductive PeerKind where
  | unicast
  | multicast
deriving DecidableEq, Repr

/-- A frame or a fragment. -/
inductive RxMessage where
  | frame (msg : Frame)
  | fragment (msg : Fragment)
deriving DecidableEq, Repr

/-- The frame and fragment cases of `_z_unicast_handle_transport_message` and
`_z_multicast_handle_transport_message`. -/
def receive (kind : PeerKind) (cfg : RxConfig) (msg : RxMessage) (peer : Peer reorderWindow) :
    Peer reorderWindow × Option RxEvent :=
  match kind, msg with
  | .unicast, .frame msg => unicastHandleFrame cfg msg peer
  | .unicast, .fragment msg => unicastHandleFragment cfg msg peer
  | .multicast, .frame msg => multicastHandleFrame cfg msg peer
  | .multicast, .fragment msg => multicastHandleFragment cfg msg peer

/-- The messages of a sequence, received one after the other. -/
def receiveAll (kind : PeerKind) (cfg : RxConfig) :
    List RxMessage → Peer reorderWindow → Peer reorderWindow × List RxEvent
  | [], peer => (peer, [])
  | msg :: rest, peer =>
    let step := receive kind cfg msg peer
    let after := receiveAll kind cfg rest step.1
    (after.1, step.2.toList ++ after.2)

/-! ### One channel of a peer -/

/-- The reception state of one channel. -/
def Peer.conduit (peer : Peer reorderWindow) : Reliability → Conduit
  | .reliable => peer.reliable
  | .bestEffort => peer.bestEffort

/-- What a fragment does to its channel. -/
def Conduit.fragment (conduit : Conduit) (cfg : RxConfig) (patch : ℕ) (msg : Fragment) :
    Conduit × Option RxEvent :=
  if snPrecedes cfg.snRes conduit.snRx msg.sn then
    ({ conduit with snRx := msg.sn } : Conduit).defragment cfg.fragMaxSize patch
      (snConsecutive cfg.snRes conduit.snRx msg.sn) msg
  else (conduit.clear, none)

/-- The test that selects the reorder window for best-effort frames. -/
def PeerKind.windowed (kind : PeerKind) (link : LinkKind) : Bool :=
  match kind with
  | .unicast => link.datagram || link.webTransport
  | .multicast => link.datagram

theorem receive_frame (kind : PeerKind) (cfg : RxConfig) (msg : Frame)
    (peer : Peer reorderWindow) :
    receive kind cfg (.frame msg) peer = handleFrame (kind.windowed cfg.link) cfg msg peer := by
  cases kind <;> rfl

theorem receive_fragment (kind : PeerKind) (cfg : RxConfig) (msg : Fragment)
    (peer : Peer reorderWindow) :
    receive kind cfg (.fragment msg) peer = handleFragment cfg msg peer := by
  cases kind <;> rfl

/-- A fragment acts on its own channel alone, and keeps the patch. -/
theorem handleFragment_conduit (cfg : RxConfig) (msg : Fragment) (peer : Peer reorderWindow) :
    (handleFragment cfg msg peer).1.conduit msg.reliability =
        ((peer.conduit msg.reliability).fragment cfg peer.patch msg).1 ∧
      (handleFragment cfg msg peer).2 =
        ((peer.conduit msg.reliability).fragment cfg peer.patch msg).2 ∧
      (handleFragment cfg msg peer).1.patch = peer.patch := by
  unfold handleFragment Conduit.fragment
  cases msg.reliability with
  | reliable =>
    cases h : snPrecedes cfg.snRes peer.reliable.snRx msg.sn <;>
      simp only [Peer.conduit, h, Bool.false_eq_true, ↓reduceIte, and_self]
  | bestEffort =>
    cases h : snPrecedes cfg.snRes peer.bestEffort.snRx msg.sn <;>
      simp only [Peer.conduit, h, Bool.false_eq_true, ↓reduceIte, and_self]

variable {r : Reliability} {windowed : Bool} {bits : ℕ} {mark : ℤ}

theorem handleFragment_other (cfg : RxConfig) (msg : Fragment) (peer : Peer reorderWindow)
    (hr : r ≠ msg.reliability) : (handleFragment cfg msg peer).1.conduit r = peer.conduit r := by
  unfold handleFragment
  cases r <;> cases h : msg.reliability <;> first | exact absurd h.symm hr | skip
  all_goals
    dsimp only [Peer.conduit]
    split <;> rfl

/-- A fragment resets the window exactly when it is an accepted best-effort fragment. -/
theorem handleFragment_window (cfg : RxConfig) (msg : Fragment) (peer : Peer reorderWindow) :
    (handleFragment cfg msg peer).1.bestEffortWindow =
      if msg.reliability = .bestEffort ∧
          snPrecedes cfg.snRes (peer.conduit .bestEffort).snRx msg.sn = true then
        SnWindow.reset reorderWindow msg.sn
      else peer.bestEffortWindow := by
  unfold handleFragment
  cases msg.reliability with
  | reliable =>
    simp only [reduceCtorEq, false_and, ↓reduceIte]
    split <;> rfl
  | bestEffort =>
    simp only [true_and, Peer.conduit]
    split <;> rfl

/-! ### Positions -/

/-- Everything a peer remembers of the numbers of channel `r` stands at position `mark`: the last
number received and, where frames are checked by the window, the window's mark. -/
def Peer.Marked (windowed : Bool) (bits : ℕ) (r : Reliability) (mark : ℤ)
    (peer : Peer reorderWindow) : Prop :=
  (peer.conduit r).snRx = snAt bits mark ∧
    (r = .bestEffort → windowed = true → peer.bestEffortWindow.highWater = snAt bits mark)

variable {cfg : RxConfig} {peer : Peer reorderWindow}

/-- A frame ahead of the mark moves the mark and keeps the channel's buffer. -/
theorem handleFrame_ahead (h : IsResolution bits) (hres : cfg.snRes = snMax bits)
    (hW : 0 < reorderWindow) {i : ℤ} (hmark : peer.Marked windowed bits r mark)
    (hclose : SerialNumber.Close (snRange bits) mark i) (hlt : mark < i) (payload : List UInt8) :
    ∃ peer', handleFrame windowed cfg ⟨r, snAt bits i, payload⟩ peer =
        (peer', some (.frame r (snAt bits i) payload)) ∧
      peer'.Marked windowed bits r i ∧ peer'.patch = peer.patch ∧
      peer'.conduit r = { peer.conduit r with snRx := snAt bits i } := by
  obtain ⟨hsn, hwindow⟩ := hmark
  have hprec := (snPrecedes_iff_lt h hclose).mpr hlt
  unfold handleFrame
  rw [hres]
  cases r with
  | reliable =>
    rw [← hsn] at hprec
    refine ⟨{ peer with reliable := { peer.reliable with snRx := snAt bits i } }, ?_,
      ⟨rfl, fun hr ↦ by cases hr⟩, rfl, rfl⟩
    dsimp only [Peer.conduit] at hprec ⊢
    rw [if_pos hprec]
  | bestEffort =>
    cases windowed with
    | false =>
      rw [← hsn] at hprec
      refine ⟨{ peer with bestEffort := { peer.bestEffort with snRx := snAt bits i } }, ?_,
        ⟨rfl, fun _ hw ↦ by cases hw⟩, rfl, rfl⟩
      dsimp only [Peer.conduit] at hprec ⊢
      rw [if_neg Bool.false_ne_true, if_pos hprec]
    | true =>
      obtain ⟨-, window', hobs, hhigh, -⟩ | ⟨hle, -⟩ | ⟨hle, -⟩ | ⟨hle, -⟩ :=
        SnWindow.observe_cases h hW (hwindow rfl rfl) hclose
      · refine ⟨{ peer with
            bestEffortWindow := window'
            bestEffort := { peer.bestEffort with snRx := snAt bits i } }, ?_,
          ⟨rfl, fun _ _ ↦ hhigh⟩, rfl, rfl⟩
        dsimp only
        rw [if_pos rfl, hobs]
      all_goals omega

/-- A frame at or behind the mark moves nothing but the window's bits; its channel's buffer
stays or is cleared. -/
theorem handleFrame_behind (h : IsResolution bits) (hres : cfg.snRes = snMax bits)
    (hW : 0 < reorderWindow) {i : ℤ} (hmark : peer.Marked windowed bits r mark)
    (hclose : SerialNumber.Close (snRange bits) mark i) (hle : i ≤ mark) (payload : List UInt8) :
    ∃ peer' event, handleFrame windowed cfg ⟨r, snAt bits i, payload⟩ peer = (peer', event) ∧
      (event = none ∨ event = some (.frame r (snAt bits i) payload)) ∧
      peer'.Marked windowed bits r mark ∧ peer'.patch = peer.patch ∧
      (peer'.conduit r = peer.conduit r ∨ peer'.conduit r = (peer.conduit r).clear) := by
  obtain ⟨hsn, hwindow⟩ := hmark
  have hprec : snPrecedes (snMax bits) (peer.conduit r).snRx (snAt bits i) = false := by
    rw [← Bool.not_eq_true, hsn, snPrecedes_iff_lt h hclose]
    omega
  unfold handleFrame
  rw [hres]
  cases r with
  | reliable =>
    refine ⟨{ peer with reliable := peer.reliable.clear }, none, ?_, .inl rfl,
      ⟨hsn, fun hr ↦ by cases hr⟩, rfl, .inr rfl⟩
    dsimp only [Peer.conduit] at hprec ⊢
    rw [hprec, if_neg Bool.false_ne_true]
  | bestEffort =>
    cases windowed with
    | false =>
      refine ⟨{ peer with bestEffort := peer.bestEffort.clear }, none, ?_, .inl rfl,
        ⟨hsn, fun _ hw ↦ by cases hw⟩, rfl, .inr rfl⟩
      dsimp only [Peer.conduit] at hprec ⊢
      rw [if_neg Bool.false_ne_true, hprec, if_neg Bool.false_ne_true]
    | true =>
      obtain ⟨hlt, -⟩ | ⟨-, -, hobs⟩ | ⟨-, -, -, hobs⟩ | ⟨-, -, -, window', hobs, hhigh, -⟩ :=
        SnWindow.observe_cases h hW (hwindow rfl rfl) hclose
      · omega
      · refine ⟨peer, none, ?_, .inl rfl, ⟨hsn, hwindow⟩, rfl, .inl rfl⟩
        dsimp only
        rw [if_pos rfl, hobs]
      · refine ⟨peer, none, ?_, .inl rfl, ⟨hsn, hwindow⟩, rfl, .inl rfl⟩
        dsimp only
        rw [if_pos rfl, hobs]
      · refine ⟨{ peer with bestEffortWindow := window' },
          some (.frame .bestEffort (snAt bits i) payload), ?_, .inr rfl,
          ⟨hsn, fun _ _ ↦ hhigh⟩, rfl, .inl rfl⟩
        dsimp only
        rw [if_pos rfl, hobs]

theorem Conduit.absorb_snRx (conduit : Conduit) (fragMaxSize : ℕ) (msg : Fragment) :
    (conduit.absorb fragMaxSize msg).1.snRx = conduit.snRx := by
  unfold absorb complete fill allocate
  split_ifs <;> rfl

theorem Conduit.defragment_snRx (conduit : Conduit) (fragMaxSize patch : ℕ)
    (consecutive : Bool) (msg : Fragment) :
    (conduit.defragment fragMaxSize patch consecutive msg).1.snRx = conduit.snRx := by
  unfold defragment
  split_ifs
  all_goals first
    | exact absorb_snRx _ _ _
    | rfl

/-- A fragment moves the mark of its channel forward, or leaves it. -/
theorem handleFragment_marked (h : IsResolution bits) (hres : cfg.snRes = snMax bits) {i : ℤ}
    (hmark : peer.Marked windowed bits r mark) (hclose : SerialNumber.Close (snRange bits) mark i)
    {msg : Fragment} (hr : msg.reliability = r) (hmsg : msg.sn = snAt bits i) :
    (handleFragment cfg msg peer).1.Marked windowed bits r (max mark i) := by
  obtain ⟨hsn, hwindow⟩ := hmark
  have hprec := snPrecedes_iff_lt h hclose
  rw [← hsn, ← hres, ← hmsg] at hprec
  have hconduit := (handleFragment_conduit cfg msg peer).1
  rw [hr] at hconduit
  constructor
  · rw [hconduit]
    unfold Conduit.fragment
    rcases le_or_gt i mark with hle | hlt
    · rw [if_neg (fun hahead ↦ absurd (hprec.mp hahead) (by omega)), max_eq_left hle]
      exact hsn
    · rw [if_pos (hprec.mpr hlt), max_eq_right hlt.le, Conduit.defragment_snRx]
      exact hmsg
  · rintro rfl hw
    rw [handleFragment_window]
    rcases le_or_gt i mark with hle | hlt
    · rw [if_neg fun hahead ↦ absurd (hprec.mp hahead.2) (by omega), max_eq_left hle]
      exact hwindow rfl hw
    · rw [if_pos ⟨hr, hprec.mpr hlt⟩, max_eq_right hlt.le]
      exact hmsg

theorem Conduit.absorb_event (conduit : Conduit) (fragMaxSize : ℕ) (msg : Fragment) :
    (conduit.absorb fragMaxSize msg).2 = none ∨
      ∃ bytes, (conduit.absorb fragMaxSize msg).2 = some (.reassembled msg.reliability bytes) := by
  unfold absorb complete
  split_ifs
  · exact .inl rfl
  · exact .inl rfl
  · exact .inr ⟨_, rfl⟩

/-- A fragment never delivers a frame. -/
theorem handleFragment_event (cfg : RxConfig) (msg : Fragment) (peer : Peer reorderWindow) :
    (handleFragment cfg msg peer).2 = none ∨
      ∃ bytes, (handleFragment cfg msg peer).2 = some (.reassembled msg.reliability bytes) := by
  rw [(handleFragment_conduit cfg msg peer).2.1]
  unfold Conduit.fragment Conduit.defragment
  split_ifs
  all_goals first
    | exact Conduit.absorb_event _ _ _
    | exact .inl rfl

/-- Where the window is in force, what a best-effort frame does is what the window says. -/
theorem handleFrame_windowed (cfg : RxConfig) (sn : UInt64) (payload : List UInt8)
    (peer : Peer reorderWindow) :
    (handleFrame true cfg ⟨.bestEffort, sn, payload⟩ peer).1.bestEffortWindow =
        (peer.bestEffortWindow.observe cfg.snRes sn).1 ∧
      (handleFrame true cfg ⟨.bestEffort, sn, payload⟩ peer).2 =
        if (peer.bestEffortWindow.observe cfg.snRes sn).2 = .ahead ∨
            (peer.bestEffortWindow.observe cfg.snRes sn).2 = .reordered then
          some (.frame .bestEffort sn payload)
        else none := by
  unfold handleFrame
  dsimp only
  rw [if_pos rfl]
  cases (peer.bestEffortWindow.observe cfg.snRes sn).2 <;> exact ⟨rfl, rfl⟩

end ZenohPico.Transport
