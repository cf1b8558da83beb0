import ZenohPico.Transport.SendFragments

/-!
Sending network messages as raw ethernet frames (`src/transport/raweth/tx.c`).

The cutting into fragments is written out again here. The number of a frame is taken before it is
known whether the message fits in it, and where it does not the first fragment takes a number of its
own, and the others none: all fragments of a message have the same number (`rawethRun`).
-/

namespace ZenohPico.Transport

open Foundations Protocol
open List (append_assoc append_nil drop_left flatten_cons length_append length_drop length_pos_iff
  length_replicate take_append_drop)

/-! ### Ethernet headers -/

/-- The fields of `_z_raweth_socket_t` that the header of a frame is made of, as
`_zp_raweth_set_socket` leaves them for the key of a message. The tag is there with `_has_vlan`. -/
structure RawethSocket where
  dmac : Vector UInt8 6
  smac : Vector UInt8 6
  ethtype : UInt16
  vlan : Option UInt16
deriving DecidableEq, Repr

/-- A field of two bytes, in the order of a little-endian machine -/
def fieldBytes (n : UInt16) : List UInt8 := [n.toUInt8, (n >>> 8).toUInt8]

/-- `_z_raweth_htons`, of a length, in a field of two bytes -/
def lengthBytes (n : ℕ) : List UInt8 := [UInt8.ofNat (n / 256), UInt8.ofNat n]

/-- `sizeof(_zp_eth_header_t)` or `sizeof(_zp_eth_vlan_header_t)` -/
def RawethSocket.headerSize (socket : RawethSocket) : ℕ := if socket.vlan.isSome then 20 else 16

/-- The header of a frame with so many bytes behind it -/
def RawethSocket.header (socket : RawethSocket) (dataLength : ℕ) : List UInt8 :=
  socket.dmac.toList ++ socket.smac.toList ++ (match socket.vlan with
      | none => []
      | some tag => fieldBytes 0x0081 ++ fieldBytes tag) ++
    fieldBytes socket.ethtype ++ lengthBytes dataLength

theorem RawethSocket.length_header (socket : RawethSocket) (dataLength : ℕ) :
    (socket.header dataLength).length = socket.headerSize := by
  unfold header headerSize
  cases socket.vlan <;>
    simp [Vector.length_toList, fieldBytes, lengthBytes]

/-! ### The sender -/

/-- What a transport is created with: the resolution of its numbers and the size of its buffer, which
holds the header of a frame, in a build with `Z_FEATURE_FRAGMENTATION`. -/
structure RawethConfig where
  bits : ℕ
  resolution : IsResolution bits
  capacity : ℕ
  headed : 20 ≤ capacity

/-- The part that this transport has in common with the others: its link is one for datagrams. -/
def RawethConfig.common (cfg : RawethConfig) : TxConfig where
  bits := cfg.bits
  resolution := cfg.resolution
  link := ⟨true, false⟩
  capacity := cfg.capacity
  fragmentation := true
  framed := fun hlink ↦ Bool.noConfusion hlink

/-- `__unsafe_z_raweth_prepare_header`: the header is written when the frame is complete. -/
def rawethPrepareHeader (socket : RawethSocket) : List UInt8 := List.replicate socket.headerSize 0

/-- `__unsafe_z_raweth_write_header` -/
def rawethWriteHeader (socket : RawethSocket) (wbuf : List UInt8) : List UInt8 :=
  socket.header (wbuf.length - socket.headerSize) ++ wbuf.drop socket.headerSize

/-- The header is written, and `_z_raweth_link_send_wbuf` sends the frame. -/
def rawethLinkSend (socket : RawethSocket) (tx : TxCommon Unit) : TxCommon Unit :=
  { tx with
    wbuf := rawethWriteHeader socket tx.wbuf
    sent := tx.sent ++ [((), rawethWriteHeader socket tx.wbuf)] }

section Send

variable {Msg : Type} (cfg : RawethConfig) (socket : RawethSocket) (r : Reliability)

/-- A pass of the loop over the fragments in `_z_raweth_send_n_msg`. The number is taken by
`__unsafe_z_raweth_get_sn`. -/
def rawethFragmentPass (s : FragmentState Unit) :
    Pass (FragmentState Unit) (TxCommon Unit × Except ZError Unit) :=
  if s.fragBuff = [] then .done (s.tx, .ok ())
  else
    let (sn, tx) := if s.isFirst then s.tx.getSn cfg.common r else (s.sn, s.tx)
    match serializeZenohFragment cfg.common r sn s.isFirst (rawethPrepareHeader socket)
      s.fragBuff with
    | (wbuf, _, .error e) => .done ({ tx with wbuf }, .error e)
    | (wbuf, rest, .ok ()) => .next ⟨false, sn, rest, rawethLinkSend socket { tx with wbuf }⟩

/-- `_z_raweth_send_n_msg`, with so many passes of its loop at most -/
def rawethSendNMsg (codec : NetworkCodec Msg) (msg : Msg) (tx : TxCommon Unit) (n : ℕ) :
    Option (TxCommon Unit × Except ZError Unit) :=
  let (sn, tx) := tx.getSn cfg.common r
  match wbufWrite cfg.capacity (frameHeaderWrites sn r) (rawethPrepareHeader socket) with
  | (wbuf, .error e) => some ({ tx with wbuf }, .error e)
  | (wbuf, .ok ()) =>
    match wbufWrite cfg.capacity (codec.writes msg) wbuf with
    | (wbuf, .ok ()) => some (rawethLinkSend socket { tx with wbuf }, .ok ())
    | (wbuf, .error _) =>
      -- the message does not fit in the current batch
      runLoop (fun s ↦ some (rawethFragmentPass cfg socket r s)) n
        ⟨true, sn, codec.encode msg, { tx with wbuf }⟩

end Send

/-! ### What is sent -/

/-- The frame that carries these bytes -/
def RawethSocket.frame (socket : RawethSocket) (bytes : List UInt8) : List UInt8 :=
  socket.header bytes.length ++ bytes

theorem rawethWriteHeader_prepare (socket : RawethSocket) (bytes : List UInt8) :
    rawethWriteHeader socket (rawethPrepareHeader socket ++ bytes) = socket.frame bytes := by
  have hlen : (rawethPrepareHeader socket).length = socket.headerSize := length_replicate
  rw [rawethWriteHeader, length_append, hlen, Nat.add_sub_cancel_left, ← hlen,
    drop_left, RawethSocket.frame]

/-- The fragments of a message cut into `chunks`: after the first one, which may have taken a number,
none does. -/
def rawethRun (r : Reliability) (sn : UInt64) : Bool → List (List UInt8) → List Fragment
  | _, [] => []
  | first, chunk :: rest =>
    { reliability := r, more := !rest.isEmpty, sn := sn, payload := chunk, first := first,
      drop := false } :: rawethRun r sn false rest

/-- The bytes of a fragment -/
def Fragment.bytes (msg : Fragment) : List UInt8 :=
  (fragmentHeaderWrites msg.sn msg.reliability (!msg.more) msg.first).flatten ++ msg.payload

/-- What the channels' counters are after a number was taken -/
def NumberTaken (cfg : RawethConfig) (r : Reliability) (tx tx' : TxCommon Unit) : Prop :=
  ∀ r', tx'.counter r' =
    if r' = r then snIncrement cfg.common.snRes (tx.counter r) else tx.counter r'

theorem getSn_taken (cfg : RawethConfig) (r : Reliability) (tx : TxCommon Unit) : ∃ tx',
    tx.getSn cfg.common r = (tx.counter r, tx') ∧ tx'.sent = tx.sent ∧ NumberTaken cfg r tx tx' := by
  cases r <;> exact ⟨_, rfl, rfl, fun r' ↦ by cases r' <;> rfl⟩

section Loop

variable {cfg : RawethConfig} {socket : RawethSocket} {r : Reliability} {s : FragmentState Unit}
  {sn : UInt64} {tx : TxCommon Unit}

theorem RawethConfig.headerSize_le (cfg : RawethConfig) (socket : RawethSocket) :
    (rawethPrepareHeader socket).length ≤ cfg.common.capacity := by
  have hcapacity : 20 ≤ cfg.common.capacity := cfg.headed
  rw [rawethPrepareHeader, length_replicate, RawethSocket.headerSize]
  split_ifs <;> omega

theorem rawethFragmentPass_full (hne : s.fragBuff ≠ [])
    (htake : (if s.isFirst then s.tx.getSn cfg.common r else (s.sn, s.tx)) = (sn, tx))
    (hfull : cfg.capacity < socket.headerSize + fragmentHeaderLength sn s.isFirst) : ∃ tx',
    rawethFragmentPass cfg socket r s = .done (tx', .error .transportNoSpace) := by
  obtain ⟨wbuf, hserialize⟩ := serializeZenohFragment_full cfg.common r s.fragBuff
    (cfg.headerSize_le socket) (by rwa [rawethPrepareHeader, length_replicate])
  rw [rawethFragmentPass, if_neg hne, htake]
  dsimp only
  rw [hserialize]
  exact ⟨_, rfl⟩

/-- A pass sends what the header leaves room for, and keeps its number for the next one. -/
theorem rawethFragmentPass_fits (hne : s.fragBuff ≠ [])
    (htake : (if s.isFirst then s.tx.getSn cfg.common r else (s.sn, s.tx)) = (sn, tx)) {start : ℕ}
    (hstart : socket.headerSize + fragmentHeaderLength sn s.isFirst = start)
    (hfits : start ≤ cfg.capacity) : ∃ s', rawethFragmentPass cfg socket r s = .next s' ∧
      s'.isFirst = false ∧ s'.sn = sn ∧ s'.fragBuff = s.fragBuff.drop (cfg.capacity - start) ∧
      s'.tx.sent = tx.sent ++ [((), socket.frame (Fragment.bytes
        { reliability := r, more := !decide (s.fragBuff.length ≤ cfg.capacity - start), sn := sn,
          payload := s.fragBuff.take (cfg.capacity - start), first := s.isFirst, drop := false }))] ∧
      ∀ r', s'.tx.counter r' = tx.counter r' := by
  rw [rawethFragmentPass, if_neg hne, htake]
  dsimp only
  rw [serializeZenohFragment_fits cfg.common r s.fragBuff
    (by rw [rawethPrepareHeader, length_replicate]; exact hstart) hfits]
  refine ⟨_, rfl, rfl, rfl, rfl, ?_, fun r' ↦ by cases r' <;> rfl⟩
  rw [Fragment.bytes, Bool.not_not, ← rawethWriteHeader_prepare, append_assoc]
  rfl

/-- The frames of fragments -/
def framesOf (socket : RawethSocket) (msgs : List Fragment) : List (Unit × List UInt8) :=
  msgs.map fun msg ↦ ((), socket.frame msg.bytes)

/-- After the first fragment there is room for the others, which all have its number. -/
theorem rawethFragments_rest (hfirst : s.isFirst = false)
    (hroom : socket.headerSize + fragmentHeaderLength s.sn false < cfg.capacity) :
    ∃ tx' chunks, LoopComputes (fun _ s ↦ some (rawethFragmentPass cfg socket r s)) s
        (some (tx', .ok ())) ∧ chunks.flatten = s.fragBuff ∧ (s.fragBuff = [] → chunks = []) ∧
      tx'.sent = s.tx.sent ++ framesOf socket (rawethRun r s.sn false chunks) ∧
      ∀ r', tx'.counter r' = s.tx.counter r' := by
  induction hlen : s.fragBuff.length using Nat.strong_induction_on generalizing s with
  | _ len ih =>
    by_cases hne : s.fragBuff = []
    · exact ⟨s.tx, [], loopComputes_exit fun _ ↦ congrArg some (if_pos hne), hne.symm, fun _ ↦ rfl,
        (append_nil _).symm, fun _ ↦ rfl⟩
    · have htake : (if s.isFirst then s.tx.getSn cfg.common r else (s.sn, s.tx)) = (s.sn, s.tx) := by
        rw [hfirst]
        rfl
      obtain ⟨start, hstart⟩ : ∃ start,
          socket.headerSize + fragmentHeaderLength s.sn s.isFirst = start := ⟨_, rfl⟩
      have hlt : start < cfg.capacity := by
        rw [← hstart, hfirst]
        exact hroom
      obtain ⟨s', hpass, hfirst', hsn, hrest, hsent, hcounter⟩ :=
        rawethFragmentPass_fits hne htake hstart hlt.le
      have hpos : 0 < s.fragBuff.length := length_pos_iff.mpr hne
      obtain ⟨tx', chunks, hloop, hflatten, hnil, hsent', hcounter'⟩ :=
        ih s'.fragBuff.length (by rw [hrest, length_drop]; omega) hfirst'
          (by rwa [hsn]) rfl
      have hlast := isEmpty_of_drop (hflatten.trans hrest) (hrest ▸ hnil)
      refine ⟨tx', s.fragBuff.take (cfg.capacity - start) :: chunks,
        loopComputes_next (computes_const fun _ ↦ congrArg some hpass) hloop, ?_,
        fun hempty ↦ absurd hempty hne, ?_, fun r' ↦ (hcounter' r').trans (hcounter r')⟩
      · rw [flatten_cons, hflatten, hrest, take_append_drop]
      · rw [hsent', hsent, hlast, hsn, hfirst, append_assoc]
        rfl

/-- A first fragment whose header does not fit -/
theorem rawethFragments_full (hfirst : s.isFirst = true) (hne : s.fragBuff ≠ [])
    (hfull : cfg.capacity < socket.headerSize + fragmentHeaderLength (s.tx.counter r) true) :
    ∃ tx', LoopComputes (fun _ s ↦ some (rawethFragmentPass cfg socket r s)) s
      (some (tx', .error .transportNoSpace)) := by
  obtain ⟨tx, htake, -, -⟩ := getSn_taken cfg r s.tx
  have hpick : (if s.isFirst then s.tx.getSn cfg.common r else (s.sn, s.tx)) =
      (s.tx.counter r, tx) := by rw [if_pos hfirst, htake]
  obtain ⟨tx', hpass⟩ := rawethFragmentPass_full hne hpick (by rw [hfirst]; exact hfull)
  exact ⟨tx', loopComputes_exit fun _ ↦ congrArg some hpass⟩

/-- The first fragment takes a number, and the others have the same. -/
theorem rawethFragments_all (hfirst : s.isFirst = true) (hne : s.fragBuff ≠ []) {start : ℕ}
    (hstart : socket.headerSize + fragmentHeaderLength (s.tx.counter r) true = start)
    (hfits : start ≤ cfg.capacity) :
    ∃ tx' rest, LoopComputes (fun _ s ↦ some (rawethFragmentPass cfg socket r s)) s
        (some (tx', .ok ())) ∧
      (s.fragBuff.take (cfg.capacity - start) :: rest).flatten = s.fragBuff ∧
      (rest = [] ↔ s.fragBuff.length ≤ cfg.capacity - start) ∧
      tx'.sent = s.tx.sent ++ framesOf socket (rawethRun r (s.tx.counter r) true
        (s.fragBuff.take (cfg.capacity - start) :: rest)) ∧ NumberTaken cfg r s.tx tx' := by
  obtain ⟨tx, htake, hsame, htaken⟩ := getSn_taken cfg r s.tx
  have hpick : (if s.isFirst then s.tx.getSn cfg.common r else (s.sn, s.tx)) =
      (s.tx.counter r, tx) := by rw [if_pos hfirst, htake]
  obtain ⟨s', hpass, hfirst', hsn, hrest, hsent, hcounter⟩ :=
    rawethFragmentPass_fits hne hpick (by rw [hfirst, hstart]) hfits
  have hroom : socket.headerSize + fragmentHeaderLength s'.sn false < cfg.capacity := by
    rw [hsn]
    unfold fragmentHeaderLength at hstart ⊢
    simp only [↓reduceIte, Bool.false_eq_true] at hstart ⊢
    omega
  obtain ⟨tx', rest, hloop, hflatten, hnil, hsent', hcounter'⟩ := rawethFragments_rest hfirst' hroom
  have hlast := isEmpty_of_drop (hflatten.trans hrest) (hrest ▸ hnil)
  refine ⟨tx', rest, loopComputes_next (computes_const fun _ ↦ congrArg some hpass) hloop, ?_, ?_,
    ?_, fun r' ↦ ?_⟩
  · rw [flatten_cons, hflatten, hrest, take_append_drop]
  · rw [← List.isEmpty_iff, ← hlast, decide_eq_true_iff]
  · rw [hsent', hsent, hsame, hlast, hsn, hfirst, append_assoc]
    rfl
  · rw [hcounter', hcounter, htaken]

end Loop

/-! ### The cases of a message -/

section Message

variable {Msg : Type} (cfg : RawethConfig) (socket : RawethSocket) (r : Reliability)
  (codec : NetworkCodec Msg) (msg : Msg) (tx : TxCommon Unit)

/-- The header of the frame finds room in the buffer. -/
def RawethBegins : Prop := socket.headerSize + frameHeaderLength (tx.counter r) ≤ cfg.capacity

/-- The message does not fit in the frame. -/
def RawethLarge : Prop :=
  cfg.capacity < socket.headerSize + frameHeaderLength (tx.counter r) + (codec.encode msg).length

/-- The number of the fragments -/
def fragmentsSn : UInt64 := snIncrement cfg.common.snRes (tx.counter r)

variable {cfg socket r codec msg tx}

theorem rawethSendNMsg_refused (h : ¬ RawethBegins cfg socket r tx) :
    ∃ tx', ∀ n, rawethSendNMsg cfg socket r codec msg tx n =
      some (tx', .error .transportNoSpace) := by
  obtain ⟨tx', htake, -, -⟩ := getSn_taken cfg r tx
  have hlong : cfg.capacity < (rawethPrepareHeader socket).length +
      (frameHeaderWrites (tx.counter r) r).flatten.length := by
    rw [rawethPrepareHeader, length_replicate, length_frameHeaderWrites]
    exact Nat.lt_of_not_le h
  obtain ⟨part, hfull⟩ := wbufWrite_full (cfg.headerSize_le socket) hlong
  refine ⟨{ tx' with wbuf := rawethPrepareHeader socket ++ part }, fun n ↦ ?_⟩
  rw [rawethSendNMsg, htake]
  dsimp only
  rw [show wbufWrite cfg.capacity _ _ = _ from hfull]

/-- The frame is begun. -/
theorem wbufWrite_rawethBegins (h : RawethBegins cfg socket r tx) :
    wbufWrite cfg.capacity (frameHeaderWrites (tx.counter r) r) (rawethPrepareHeader socket) =
      (rawethPrepareHeader socket ++ (frameHeaderWrites (tx.counter r) r).flatten, .ok ()) := by
  refine wbufWrite_fits ?_
  rw [rawethPrepareHeader, length_replicate, length_frameHeaderWrites]
  exact h

theorem rawethSendNMsg_frame (h : RawethBegins cfg socket r tx)
    (hlarge : ¬ RawethLarge cfg socket r codec msg tx) :
    ∃ tx', (∀ n, rawethSendNMsg cfg socket r codec msg tx n = some (tx', .ok ())) ∧
      tx'.sent = tx.sent ++ [((), socket.frame
        ((frameHeaderWrites (tx.counter r) r).flatten ++ codec.encode msg))] ∧
      NumberTaken cfg r tx tx' := by
  obtain ⟨tx', htake, hsent, htaken⟩ := getSn_taken cfg r tx
  have hfits : (rawethPrepareHeader socket ++ (frameHeaderWrites (tx.counter r) r).flatten).length +
      (codec.writes msg).flatten.length ≤ cfg.capacity := by
    rw [length_append, rawethPrepareHeader, length_replicate, length_frameHeaderWrites]
    exact Nat.le_of_not_lt hlarge
  refine ⟨rawethLinkSend socket
    { tx' with
      wbuf := rawethPrepareHeader socket ++ (frameHeaderWrites (tx.counter r) r).flatten ++
        (codec.writes msg).flatten }, fun n ↦ ?_, ?_, fun r' ↦ ?_⟩
  · rw [rawethSendNMsg, htake]
    dsimp only
    rw [wbufWrite_rawethBegins h]
    dsimp only
    rw [wbufWrite_fits hfits]
  · rw [← rawethWriteHeader_prepare, ← hsent, ← append_assoc]
    rfl
  · rw [← htaken]
    cases r' <;> rfl

/-- A large message goes to the loop. -/
theorem rawethSendNMsg_large (h : RawethBegins cfg socket r tx)
    (hlarge : RawethLarge cfg socket r codec msg tx) :
    ∃ s : FragmentState Unit, (∀ n, rawethSendNMsg cfg socket r codec msg tx n =
        runLoop (fun s ↦ some (rawethFragmentPass cfg socket r s)) n s) ∧
      s.isFirst = true ∧ s.fragBuff = codec.encode msg ∧ s.tx.sent = tx.sent ∧
      NumberTaken cfg r tx s.tx := by
  obtain ⟨tx', htake, hsent, htaken⟩ := getSn_taken cfg r tx
  have hbegun : (rawethPrepareHeader socket ++
      (frameHeaderWrites (tx.counter r) r).flatten).length ≤ cfg.capacity := by
    rw [length_append, rawethPrepareHeader, length_replicate, length_frameHeaderWrites]
    exact h
  have hlong : cfg.capacity < (rawethPrepareHeader socket ++
      (frameHeaderWrites (tx.counter r) r).flatten).length + (codec.writes msg).flatten.length := by
    rw [length_append, rawethPrepareHeader, length_replicate, length_frameHeaderWrites]
    exact hlarge
  obtain ⟨part, hfull⟩ := wbufWrite_full hbegun hlong
  refine ⟨⟨true, tx.counter r, codec.encode msg, { tx' with
      wbuf := rawethPrepareHeader socket ++ (frameHeaderWrites (tx.counter r) r).flatten ++ part }⟩,
    fun n ↦ ?_, rfl, rfl, hsent, fun r' ↦ ?_⟩
  · rw [rawethSendNMsg, htake]
    dsimp only
    rw [wbufWrite_rawethBegins h]
    dsimp only
    rw [hfull]
  · rw [← htaken]
    cases r' <;> rfl

end Message

end ZenohPico.Transport
