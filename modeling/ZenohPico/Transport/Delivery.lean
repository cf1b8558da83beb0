import ZenohPico.Transport.RawethOrder
import ZenohPico.Transport.SendOrder

/-!
Network messages from a sender to the session of its peer (`src/transport/common/tx.c`,
`src/transport/unicast/read.c`, `src/transport/unicast/rx.c`).

What the sender writes arrives batch by batch, each once and in order. The session gets every
message that is not held back any more, in the order in which they were sent (`Sending.delivers`).
That takes calls that lose no message, and a first fragment that is not empty for a receiver with
fragment markers, which looks for the marker again until it has data. Handing a message to the
session always works here.
-/

namespace ZenohPico.Transport

open Foundations Protocol List Option

variable {reorderWindow : ℕ} {Msg : Type}

/-! ### The receiver -/

/-- A peer, and the messages that the session got from it -/
structure RxSession (reorderWindow : ℕ) (Msg : Type) where
  peer : Peer reorderWindow
  delivered : List (Reliability × Msg)

section Receiver

variable (codec : NetworkCodec Msg) (rx : RxConfig)

/-- The loop of `_z_unicast_handle_frame`, with so many messages at most: the session, what is left
of the batch, and whether the connection is kept. A transport header ends the frame. -/
def handleNetworkMessages (r : Reliability) : ℕ → List UInt8 → RxSession reorderWindow Msg →
      Option (RxSession reorderWindow Msg × List UInt8 × Bool)
  | _, [], s => some (s, [], true)
  | 0, _ :: _, _ => none
  | n + 1, next :: payload, s =>
    if mid next ≤ 0x07 then some (s, next :: payload, true)
    else
      match codec.decode (next :: payload) with
      | .error _ => some (s, [], false)
      | .ok (msg, payload) =>
        handleNetworkMessages r n payload { s with delivered := s.delivered ++ [(r, msg)] }

/-- `_z_unicast_handle_transport_message`, with what is behind the message in the batch -/
def unicastHandleTransportMessage (n : ℕ) (msg : TransportMessage) (zbf : List UInt8)
    (s : RxSession reorderWindow Msg) : Option (RxSession reorderWindow Msg × List UInt8 × Bool) :=
  match rxMessage msg with
  | some (.frame frame) =>
    let (peer, event) := unicastHandleFrame rx frame s.peer
    if event.isSome then
      handleNetworkMessages codec frame.reliability n frame.payload { s with peer }
    else
      -- the payload of a frame outside the window is left in the batch
      some ({ s with peer },
        if frame.reliability = .bestEffort ∧ PeerKind.unicast.windowed rx.link then frame.payload
        else [], true)
  | some (.fragment fragment) =>
    let (peer, event) := unicastHandleFragment rx fragment s.peer
    match event with
    | some (.reassembled r bytes) =>
      match codec.decode bytes with
      | .ok (msg, _) => some ({ peer, delivered := s.delivered ++ [(r, msg)] }, zbf, true)
      | .error _ => some ({ s with peer }, zbf, false)
    | _ => some ({ s with peer }, zbf, true)
  | none => some (s, zbf, !(mid msg.header = 0x03))

/-- The loop of `_z_unicast_process_messages`, with so many messages at most: the session, and
whether the connection is kept -/
def processMessages : ℕ → List UInt8 → RxSession reorderWindow Msg →
    Option (RxSession reorderWindow Msg × Bool)
  | _, [], s => some (s, true)
  | 0, _ :: _, _ => none
  | n + 1, next :: zbf, s =>
    match transportMessageDecode true (next :: zbf) with
    | .error _ => some (s, false)
    | .ok (msg, zbf) => do
      let (s, zbf, kept) ← unicastHandleTransportMessage codec rx n msg zbf s
      if kept then processMessages n zbf s else some (s, false)

/-- Batches that arrive one after the other, until the connection is dropped -/
def receiveBatches (n : ℕ) : List (List UInt8) → RxSession reorderWindow Msg →
    Option (RxSession reorderWindow Msg × Bool)
  | [], s => some (s, true)
  | batch :: batches, s => do
    let (s, kept) ← processMessages codec rx n batch s
    if kept then receiveBatches n batches s else some (s, false)

end Receiver

/-- The part of a batch that its reader hands on: on a stream there is a length in front of it. -/
def batchContent (cfg : TxConfig) (batch : List UInt8) : List UInt8 :=
  batch.drop (prepareWbuf cfg).length

section Delivery

variable (cfg : TxConfig) (codec : NetworkCodec Msg) (rx : RxConfig) (reorderWindow patch : ℕ)

/-- The session of a peer that gets what was written has every message that is not held back, in
order. -/
def Delivers (tx : TxCommon Unit) (calls : List (TxCall Unit Msg)) : Prop :=
  ∃ s : RxSession reorderWindow Msg,
    Settles (fun n ↦ receiveBatches codec rx n (tx.sent.map fun write ↦ batchContent cfg write.2)
      ⟨transportPeerUnicastAdd reorderWindow rx.snRes 0 patch, []⟩) (s, true) ∧
    s.delivered.map Prod.snd =
      ((asked calls).map Request.msg).take ((asked calls).length - tx.batchCount)

/-- An orderly call that sends no transport message: a network message fits in the buffer of the
receiver, and the first of its fragments has a part of it where the receiver has markers. -/
def OrderlyDelivery (tx : TxCommon Unit) (_ : List (TxCall Unit Msg)) (call : TxCall Unit Msg) :
    Prop :=
  Orderly cfg codec tx call ∧ call.tMsgs = [] ∧ ∀ q ∈ call.requests,
    (codec.encode q.msg).length ≤ rx.fragMaxSize ∧ (Begins cfg codec q.msg tx →
        cfg.capacity < frameStart cfg (tx.counter q.reliability) + (codec.encode q.msg).length →
        1 ≤ patch → fragmentStart cfg (tx.counter q.reliability) true < cfg.capacity)

end Delivery

/-! ### Frames -/

variable {n : ℕ} {s' : RxSession reorderWindow Msg}

section Frames

variable {cfg : TxConfig} {codec : NetworkCodec Msg} {rx : RxConfig}

/-- The messages of a frame are handed on one by one. -/
theorem handleNetworkMessages_encode (r : Reliability) {msgs : List Msg}
    (hn : (msgs.flatMap codec.encode).length ≤ n) (s : RxSession reorderWindow Msg) :
    handleNetworkMessages codec r n (msgs.flatMap codec.encode) s =
      some ({ s with delivered := s.delivered ++ msgs.map (r, ·) }, [], true) := by
  induction msgs generalizing n s with
  | nil => simp [handleNetworkMessages]
  | cons msg msgs ih =>
    obtain ⟨header, body, hencode, hmid⟩ := codec.mid_writes msg
    have hdecode := codec.decode_writes msg (msgs.flatMap codec.encode)
    have hbytes : codec.encode msg = header :: body := hencode
    rw [flatMap_cons, hbytes] at hn ⊢
    rw [hencode] at hdecode
    obtain ⟨n, rfl⟩ : ∃ k, n = k + 1 := ⟨n - 1, by
      simp only [cons_append, length_cons] at hn
      omega⟩
    have hrest : (msgs.flatMap codec.encode).length ≤ n := by
      simp only [cons_append, length_cons, length_append] at hn
      omega
    rw [cons_append] at hdecode ⊢
    rw [handleNetworkMessages, if_neg (UInt8.not_le.mpr hmid), hdecode]
    dsimp only
    rw [ih hrest]
    simp

theorem processMessages_nil (n : ℕ) (s : RxSession reorderWindow Msg) :
    processMessages codec rx n [] s = some (s, true) := by
  cases n <;> rfl

/-- A message of the transport that is handed on with nothing behind it -/
theorem processMessages_single {zbf rest : List UInt8} (hzbf : zbf ≠ [])
    {s : RxSession reorderWindow Msg} {msg : TransportMessage}
    (hdecode : transportMessageDecode true zbf = .ok (msg, rest))
    (hhandle : unicastHandleTransportMessage codec rx n msg rest s = some (s', [], true)) :
    processMessages codec rx (n + 1) zbf s = some (s', true) := by
  obtain ⟨next, zbf, rfl⟩ := exists_cons_of_ne_nil hzbf
  rw [processMessages, hdecode]
  dsimp only
  rw [hhandle, bind_eq_bind, bind_some]
  dsimp only
  rw [if_pos rfl, processMessages_nil]

/-- The messages of the next frame of a channel are handed on. -/
theorem processMessages_frame {bits : ℕ} (h : IsResolution bits) (hres : rx.snRes = snMax bits)
    (hW : 0 < reorderWindow) {r : Reliability} {next : ℤ} {s : RxSession reorderWindow Msg}
    (hpeer : s.peer.InStep (PeerKind.unicast.windowed rx.link) bits next r) {msgs : List Msg}
    {n : ℕ} (hn : frameHeaderLength (snAt bits next) + (msgs.flatMap codec.encode).length ≤ n) :
    processMessages codec rx n
        ((frameHeaderWrites (snAt bits next) r).flatten ++ msgs.flatMap codec.encode) s =
      some (⟨(handleFrame (PeerKind.unicast.windowed rx.link) rx
        ⟨r, snAt bits next, msgs.flatMap codec.encode⟩ s.peer).1,
          s.delivered ++ msgs.map (r, ·)⟩, true) := by
  obtain ⟨tMsg, hdecode, hmsg⟩ :=
    transportMessageDecode_frame r (snAt bits next) (msgs.flatMap codec.encode)
  obtain ⟨peer', hframe, -⟩ := handleFrame_ahead h hres hW hpeer.1
    (close_of_near h (by omega) (by omega)) (by omega : next - 1 < next) (msgs.flatMap codec.encode)
  have hheader : frameHeaderLength (snAt bits next) = 1 + zintLen (snAt bits next) := rfl
  obtain ⟨n, rfl⟩ : ∃ k, n = k + 1 := ⟨n - 1, by omega⟩
  refine processMessages_single ?_ hdecode ?_
  · rw [frameHeaderWrites, flatten_cons]
    exact cons_ne_nil _ _
  · have hunicast : unicastHandleFrame rx ⟨r, snAt bits next, msgs.flatMap codec.encode⟩ s.peer =
        (peer', some (.frame r (snAt bits next) (msgs.flatMap codec.encode))) := hframe
    rw [unicastHandleTransportMessage, hmsg, hframe]
    dsimp only
    rw [hunicast]
    dsimp only
    rw [if_pos isSome_some, handleNetworkMessages_encode r (by omega)]

end Frames

/-! ### Fragments -/

section Fragments

variable {codec : NetworkCodec Msg} {rx : RxConfig} {bits : ℕ} {r : Reliability} {patch : ℕ}

/-- The next fragment of a message reaches the buffer: the first one an empty buffer, the others one
with data where there are markers. -/
theorem Conduit.fragment_absorbs (h : IsResolution bits) (hres : rx.snRes = snMax bits) {mark : ℤ}
    {conduit : Conduit} (hsn : conduit.snRx = snAt bits mark) {first : Bool}
    (hfirst : first = true → conduit.dbuf = [])
    (hopen : first = false → patchHasFragmentMarkers patch = true → conduit.dbuf ≠ [])
    (more : Bool) (chunk : List UInt8) :
    conduit.fragment rx patch ⟨r, more, snAt bits (mark + 1), chunk, first, false⟩ =
      ({ conduit with snRx := snAt bits (mark + 1) } : Conduit).absorb rx.fragMaxSize
        ⟨r, more, snAt bits (mark + 1), chunk, first, false⟩ := by
  have hnext : snAt bits (mark + 1) = snIncrement rx.snRes conduit.snRx := by
    rw [hres, hsn, snIncrement_snAt h]
  rw [hnext]
  cases first with
  | false => exact fragment_continues h hres (hopen rfl) more chunk
  | true =>
    obtain ⟨sn, dbuf, state⟩ := conduit
    obtain rfl : dbuf = [] := hfirst rfl
    rw [fragment_next h hres _ rfl, defragment]
    simp only [Bool.not_true, Bool.false_and, Bool.false_eq_true, ↓reduceIte, ite_self]

theorem processMessages_fragment {msg : Fragment} (hdrop : msg.drop = false) (hn : 0 < n)
    {s : RxSession reorderWindow Msg} (hnone : (handleFragment rx msg s.peer).2 = none) :
    processMessages codec rx n msg.bytes s =
      some ({ s with peer := (handleFragment rx msg s.peer).1 }, true) := by
  obtain ⟨tMsg, hdecode, hmsg⟩ := transportMessageDecode_fragment hdrop
  obtain ⟨n, rfl⟩ := Nat.exists_eq_succ_of_ne_zero hn.ne'
  refine processMessages_single (cons_ne_nil _ _) hdecode ?_
  rw [unicastHandleTransportMessage, hmsg]
  dsimp only [unicastHandleFragment]
  rw [hnone]

theorem processMessages_lastFragment {msg : Fragment} (hdrop : msg.drop = false) (hn : 0 < n)
    {s : RxSession reorderWindow Msg} {bytes rest : List UInt8} {m : Msg}
    (hsome : (handleFragment rx msg s.peer).2 = some (.reassembled r bytes))
    (hm : codec.decode bytes = .ok (m, rest)) : processMessages codec rx n msg.bytes s =
      some (⟨(handleFragment rx msg s.peer).1, s.delivered ++ [(r, m)]⟩, true) := by
  obtain ⟨tMsg, hdecode, hmsg⟩ := transportMessageDecode_fragment hdrop
  obtain ⟨n, rfl⟩ := Nat.exists_eq_succ_of_ne_zero hn.ne'
  refine processMessages_single (cons_ne_nil _ _) hdecode ?_
  rw [unicastHandleTransportMessage, hmsg]
  dsimp only [unicastHandleFragment]
  rw [hsome]
  dsimp only
  rw [hm]

theorem receiveBatches_cons {batch : List UInt8} (batches : List (List UInt8))
    {s : RxSession reorderWindow Msg} (h : processMessages codec rx n batch s = some (s', true)) :
    receiveBatches codec rx n (batch :: batches) s = receiveBatches codec rx n batches s' := by
  rw [receiveBatches, h, bind_eq_bind, bind_some]
  exact if_pos rfl

/-- What is received on a channel does not touch the other one, nor the patch. -/
structure Peer.Elsewhere (windowed : Bool) (bits : ℕ) (r : Reliability)
    (peer peer' : Peer reorderWindow) : Prop where
  inStep : ∀ r', r' ≠ r → ∀ next, peer.InStep windowed bits next r' →
    peer'.InStep windowed bits next r'
  patch : peer'.patch = peer.patch

theorem Peer.Elsewhere.trans {windowed : Bool} {peer peer' peer'' : Peer reorderWindow}
    (h : peer.Elsewhere windowed bits r peer') (h' : peer'.Elsewhere windowed bits r peer'') :
    peer.Elsewhere windowed bits r peer'' where
  inStep _ hr _ hpeer := h'.inStep _ hr _ (h.inStep _ hr _ hpeer)
  patch := h'.patch.trans h.patch

theorem handleFragment_elsewhere {windowed : Bool} {msg : Fragment} (hr : msg.reliability = r)
    (peer : Peer reorderWindow) :
    peer.Elsewhere windowed bits r (handleFragment rx msg peer).1 where
  inStep _ hr' _ hpeer := hpeer.fragment_other (hr.symm ▸ hr')
  patch := (handleFragment_conduit rx msg peer).2.2

/-- The fragments of a message, or those behind data that is in the buffer -/
theorem receiveBatches_fragmentRun (h : IsResolution bits) (hres : rx.snRes = snMax bits)
    {windowed : Bool} {chunks : List (List UInt8)} (hne : chunks ≠ []) {first : Bool} {mark : ℤ}
    {s : RxSession reorderWindow Msg}
    (hmark : s.peer.Marked windowed bits r mark) (hsound : (s.peer.conduit r).Sound)
    (hstate : (s.peer.conduit r).state ≠ .overflow)
    (hfirst : first = true → (s.peer.conduit r).dbuf = [])
    (hopen : first = false → patchHasFragmentMarkers s.peer.patch = true →
      (s.peer.conduit r).dbuf ≠ [])
    (hhead : first = true → patchHasFragmentMarkers s.peer.patch = true → chunks.head? ≠ some [])
    (hsize : (s.peer.conduit r).dbuf.length + chunks.flatten.length ≤ rx.fragMaxSize)
    {m : Msg} {rest : List UInt8}
    (hm : codec.decode ((s.peer.conduit r).dbuf ++ chunks.flatten) = .ok (m, rest)) :
    ∃ peer', (∀ n, 0 < n → receiveBatches codec rx n
        ((fragmentRun r rx.snRes first (snAt bits (mark + 1)) chunks).map Fragment.bytes) s =
          some (⟨peer', s.delivered ++ [(r, m)]⟩, true)) ∧
      peer'.InStep windowed bits (mark + 1 + chunks.length) r ∧
      s.peer.Elsewhere windowed bits r peer' := by
  induction chunks generalizing first mark s with
  | nil => exact absurd rfl hne
  | cons chunk chunks ih =>
    set msg : Fragment := ⟨r, !chunks.isEmpty, snAt bits (mark + 1), chunk, first, false⟩ with hmsg
    rw [flatten_cons, length_append] at hsize
    rw [flatten_cons] at hm
    have habsorb : (s.peer.conduit r).fragment rx s.peer.patch msg = _ :=
      Conduit.fragment_absorbs h hres hmark.1 hfirst hopen (!chunks.isEmpty) chunk
    have hfits : (s.peer.conduit r).dbuf.length + chunk.length ≤ rx.fragMaxSize := by omega
    rw [Conduit.absorb_fits (by exact hsound) (by exact hstate) (by exact hfits)] at habsorb
    obtain ⟨hconduit, hevent, hpatch⟩ := handleFragment_conduit rx msg s.peer
    have hmark' := handleFragment_marked h hres hmark (close_of_near h (by omega) (by omega))
      (show msg.reliability = r from rfl) rfl
    rw [max_eq_right (by omega)] at hmark'
    have helse := @handleFragment_elsewhere _ rx bits r windowed msg rfl s.peer
    have hrun : fragmentRun r rx.snRes first (snAt bits (mark + 1)) (chunk :: chunks) =
        msg :: fragmentRun r rx.snRes false (snAt bits (mark + 1 + 1)) chunks := by
      rw [fragmentRun, hres, snIncrement_snAt h]
    rw [hrun, map_cons]
    change _ = ((s.peer.conduit r).fragment rx s.peer.patch msg).1 at hconduit
    change _ = ((s.peer.conduit r).fragment rx s.peer.patch msg).2 at hevent
    rw [habsorb] at hconduit hevent
    cases chunks with
    | nil =>
      rw [flatten_nil, append_nil] at hm
      refine ⟨(handleFragment rx msg s.peer).1, fun n hn ↦ ?_, ⟨?_, ?_⟩, helse⟩
      · rw [fragmentRun, map_nil,
          receiveBatches_cons [] (processMessages_lastFragment rfl hn hevent hm)]
        rfl
      · simpa using hmark'
      · have hclear : (handleFragment rx msg s.peer).1.conduit r =
            ({ s.peer.conduit r with snRx := snAt bits (mark + 1) } : Conduit).clear := hconduit
        rw [hclear]
        exact ⟨rfl, rfl⟩
    | cons next chunks =>
      have hkept : (handleFragment rx msg s.peer).1.conduit r =
          ⟨snAt bits (mark + 1), (s.peer.conduit r).dbuf ++ chunk, .init⟩ := hconduit
      have hnone : (handleFragment rx msg s.peer).2 = none := hevent
      have hnonempty : patchHasFragmentMarkers s.peer.patch = true →
          (s.peer.conduit r).dbuf ++ chunk ≠ [] := by
        intro hmarkers hnil
        obtain ⟨hdbuf, rfl⟩ := append_eq_nil_iff.mp hnil
        cases first with
        | true => exact hhead rfl hmarkers rfl
        | false => exact hopen rfl hmarkers hdbuf
      obtain ⟨peer', hrest, hstep, helse'⟩ := @ih (cons_ne_nil _ _) false (mark + 1)
        { s with peer := (handleFragment rx msg s.peer).1 } hmark'
        (by rw [hkept]; exact fun hnull ↦ by cases hnull) (by rw [hkept]; simp)
        (fun hfalse ↦ absurd hfalse (by decide))
        (fun _ hmarkers ↦ by rw [hkept]; exact hnonempty (helse.patch ▸ hmarkers))
        (fun hfalse ↦ absurd hfalse (by decide))
        (by
          rw [hkept, length_append]
          omega)
        (by rwa [hkept, append_assoc])
      refine ⟨peer', fun n hn ↦ ?_, ?_, helse.trans helse'⟩
      · rw [receiveBatches_cons _ (processMessages_fragment rfl hn hnone)]
        exact hrest n hn
      · rw [length_cons, Nat.cast_succ]
        have hsum : mark + 1 + ((next :: chunks).length + 1 : ℤ) =
            mark + 1 + 1 + (next :: chunks).length := by ring
        rw [hsum]
        exact hstep

end Fragments

/-! ### What was written -/

/-- Numbers that follow each other from a position on -/
def NumberedFrom (bits : ℕ) (start : ℤ) (numbers : List UInt64) : Prop :=
  numbers = (List.range numbers.length).map fun k : ℕ ↦ snAt bits (start + k)

variable {numbers : List UInt64}

theorem NumberedFrom.append {bits : ℕ} {start : ℤ} {numbers' : List UInt64}
    (h : NumberedFrom bits start (numbers ++ numbers')) :
    NumberedFrom bits start numbers ∧ NumberedFrom bits (start + numbers.length) numbers' := by
  unfold NumberedFrom at h ⊢
  rw [List.length_append, List.range_add, List.map_append, List.map_map] at h
  obtain ⟨hleft, hright⟩ := append_inj h (by simp)
  refine ⟨hleft, hright.trans (map_congr_left fun k _ ↦ ?_)⟩
  simp only [Function.comp_apply]
  congr 1
  push_cast
  ring

theorem NumberedFrom.head {bits : ℕ} {start : ℤ} {sn : UInt64}
    (h : NumberedFrom bits start (sn :: numbers)) : sn = snAt bits start := by
  have hhead := congrArg List.head? h
  simpa [range_succ_eq_map] using hhead

theorem Consecutive.numberedFrom {bits : ℕ} {next : UInt64} (h : Consecutive bits numbers next) :
    NumberedFrom bits 0 numbers := by
  obtain ⟨n, heq, -⟩ := h
  have hlen : numbers.length = n := by rw [heq, length_map, length_range]
  rw [NumberedFrom, hlen, heq]
  simp

/-- What can be received of a cargo: fragments of a message that fits, the first of them with a part
of it where there are markers -/
def Cargo.Readable {Sock : Type} (cfg : TxConfig) (codec : NetworkCodec Msg) (rx : RxConfig)
    (patch : ℕ) : Cargo Sock Msg → Prop
  | .frame _ => True
  | .fragments _ sn q _ => (codec.encode q.msg).length ≤ rx.fragMaxSize ∧
    (1 ≤ patch → fragmentStart cfg sn true < cfg.capacity)
  | .tMsg _ => False

section Cargo

variable {cfg : TxConfig} {codec : NetworkCodec Msg} {rx : RxConfig} {patch : ℕ}
  {windowed : Bool}

theorem batchContent_frame {Sock : Type} (f : OutFrame Sock Msg) :
    batchContent cfg (finalizeWbuf cfg (f.buffer cfg codec)) =
      (frameHeaderWrites f.sn f.reliability).flatten ++
        (f.requests.map Request.msg).flatMap codec.encode := by
  rw [batchContent, drop_finalizeWbuf cfg le_rfl, OutFrame.buffer, append_assoc,
    drop_left, flatMap_map]

theorem batchContent_fragment (msg : Fragment) : batchContent cfg (msg.batch cfg) = msg.bytes := by
  rw [batchContent, Fragment.batch, drop_finalizeWbuf cfg le_rfl, append_assoc, drop_left,
    Fragment.bytes]

theorem receiveBatches_append {batches : List (List UInt8)} (rest : List (List UInt8))
    {s : RxSession reorderWindow Msg} (h : receiveBatches codec rx n batches s = some (s', true)) :
    receiveBatches codec rx n (batches ++ rest) s = receiveBatches codec rx n rest s' := by
  induction batches generalizing s with
  | nil =>
    rw [(Prod.mk.inj (some.inj h)).1]
    rfl
  | cons batch batches ih =>
    rw [receiveBatches] at h
    obtain ⟨⟨next, kept⟩, hbatch, hnext⟩ := bind_eq_some_iff.mp h
    cases kept with
    | true =>
      rw [cons_append, receiveBatches_cons _ hbatch]
      exact ih ((if_pos rfl).symm.trans hnext)
    | false =>
      have hdropped := (if_neg Bool.false_ne_true).symm.trans hnext
      exact absurd (Prod.mk.inj (some.inj hdropped)).2 Bool.false_ne_true

/-- What a session has got when it received these messages behind others, at these numbers -/
structure RxSession.Got (windowed : Bool) (bits : ℕ) (pos : Reliability → ℤ)
    (s s' : RxSession reorderWindow Msg) (msgs : List Msg) : Prop where
  inStep : ∀ r, s'.peer.InStep windowed bits (pos r) r
  patch : s'.peer.patch = s.peer.patch
  delivered : s'.delivered.map Prod.snd = s.delivered.map Prod.snd ++ msgs

theorem RxSession.Got.trans {bits : ℕ} {pos pos' : Reliability → ℤ}
    {s s'' : RxSession reorderWindow Msg} {msgs msgs' : List Msg}
    (h : s.Got windowed bits pos s' msgs) (h' : s'.Got windowed bits pos' s'' msgs') :
    s.Got windowed bits pos' s'' (msgs ++ msgs') where
  inStep := h'.inStep
  patch := h'.patch.trans h.patch
  delivered := by rw [h'.delivered, h.delivered, append_assoc]

/-- The positions behind the numbers of a cargo -/
def behind {Sock : Type} (cfg : TxConfig) (pos : Reliability → ℤ) (cargo : Cargo Sock Msg)
    (r : Reliability) : ℤ := pos r + (cargo.numbers cfg r).length

theorem length_fragmentRun (r : Reliability) (snRes : UInt64) (first : Bool) (sn : UInt64)
    (chunks : List (List UInt8)) :
    (fragmentRun r snRes first sn chunks).length = chunks.length := by
  induction chunks generalizing first sn with
  | nil => rfl
  | cons chunk chunks ih => rw [fragmentRun, length_cons, length_cons, ih]

theorem fragmentStart_pos (sn : UInt64) (first : Bool) : 0 < fragmentStart cfg sn first := by
  rw [fragmentStart, fragmentHeaderLength]
  omega

theorem length_frame_le {Sock : Type} {f : OutFrame Sock Msg}
    (h : (finalizeWbuf cfg (f.buffer cfg codec)).length ≤ n) :
    frameHeaderLength f.sn + ((f.requests.map Request.msg).flatMap codec.encode).length ≤ n := by
  rw [length_finalizeWbuf cfg (by simp only [OutFrame.buffer, length_append]; omega),
    OutFrame.buffer, length_append, length_append, length_frameHeaderWrites] at h
  rw [flatMap_map]
  omega

/-- What is received of a cargo: its messages, at the numbers behind a position -/
def Cargo.Received (cfg : TxConfig) (codec : NetworkCodec Msg) (rx : RxConfig)
    (pos : Reliability → ℤ) (s : RxSession reorderWindow Msg) (cargo : Cargo Unit Msg) : Prop :=
  ∃ s', (∀ n, (∀ batch ∈ cargo.batches cfg codec, batch.length ≤ n) →
      receiveBatches codec rx n ((cargo.batches cfg codec).map (batchContent cfg)) s =
        some (s', true)) ∧
    s.Got (PeerKind.unicast.windowed rx.link) cfg.bits (behind cfg pos cargo) s'
      (cargo.requests.map Request.msg)

section Received

variable {pos : Reliability → ℤ} {s : RxSession reorderWindow Msg}

theorem received_frame (hres : rx.snRes = cfg.snRes) (hW : 0 < reorderWindow)
    {f : OutFrame Unit Msg} (hsn : f.sn = snAt cfg.bits (pos f.reliability))
    (hpeer : ∀ r, s.peer.InStep (PeerKind.unicast.windowed rx.link) cfg.bits (pos r) r) :
    Cargo.Received cfg codec rx pos s (.frame f) := by
  have hres' : rx.snRes = snMax cfg.bits := hres
  obtain ⟨r, sn, requests⟩ := f
  obtain rfl : sn = snAt cfg.bits (pos r) := hsn
  refine ⟨⟨(handleFrame (PeerKind.unicast.windowed rx.link) rx ⟨r, snAt cfg.bits (pos r),
    (requests.map Request.msg).flatMap codec.encode⟩ s.peer).1,
      s.delivered ++ (requests.map Request.msg).map (r, ·)⟩, fun n hn ↦ ?_, ⟨fun r' ↦ ?_, ?_, ?_⟩⟩
  · have hlen := length_frame_le (hn _ (mem_singleton_self _))
    have hprocess := @processMessages_frame _ _ codec rx cfg.bits cfg.resolution hres' hW r
      (pos r) s (hpeer r) (requests.map Request.msg) n hlen
    rw [Cargo.batches, map_singleton, batchContent_frame, receiveBatches_cons [] hprocess]
    rfl
  · rw [behind, Cargo.numbers]
    split_ifs with hr
    · subst hr
      exact (hpeer _).frame cfg.resolution hres' hW _
    · simpa using (hpeer r').frame_other (Ne.symm hr)
  · obtain ⟨peer', hframe, -, hpatch', -⟩ := handleFrame_ahead cfg.resolution hres' hW (hpeer r).1
      (close_of_near cfg.resolution (by omega) (by omega)) (by omega : pos r - 1 < pos r)
      ((requests.map Request.msg).flatMap codec.encode)
    rw [hframe]
    exact hpatch'
  · rw [List.map_append, List.map_map]
    simp [Cargo.requests]

theorem received_fragments (hres : rx.snRes = cfg.snRes) {r : Reliability} {q : Request Unit Msg}
    {chunks : List (List UInt8)}
    (hwhole : Cargo.Whole cfg codec (.fragments r (snAt cfg.bits (pos r)) q chunks))
    (hreadable : Cargo.Readable cfg codec rx patch (.fragments r (snAt cfg.bits (pos r)) q chunks))
    (hpeer : ∀ r, s.peer.InStep (PeerKind.unicast.windowed rx.link) cfg.bits (pos r) r)
    (hpatch : patchHasFragmentMarkers s.peer.patch = true → 1 ≤ patch) :
    Cargo.Received cfg codec rx pos s (.fragments r (snAt cfg.bits (pos r)) q chunks) := by
  have hres' : rx.snRes = snMax cfg.bits := hres
  obtain ⟨hflatten, hhead⟩ := hwhole
  obtain ⟨hsize, hroom⟩ := hreadable
  obtain ⟨chunk, chunks, rfl⟩ : ∃ c cs, chunks = c :: cs := by
    cases chunks with
    | nil => cases hhead
    | cons c cs => exact ⟨c, cs, rfl⟩
  have hdecode : codec.decode (codec.encode q.msg) = .ok (q.msg, []) := by
    have := codec.decode_writes q.msg []
    rwa [append_nil] at this
  obtain ⟨hmark, hdbuf, hstate⟩ := hpeer r
  have hnonempty : 1 ≤ patch → (chunk :: chunks).head? ≠ some [] := by
    intro hmarkers hnil
    rw [hhead, some.injEq, take_eq_nil_iff] at hnil
    have := hroom hmarkers
    exact hnil.elim (by omega) (codec.encode_ne_nil q.msg)
  obtain ⟨peer', hreceive, hstep, helse⟩ := @receiveBatches_fragmentRun _ _ codec rx cfg.bits r
    cfg.resolution hres' _ _ (cons_ne_nil chunk chunks) true (pos r - 1) s hmark
    (fun _ ↦ hdbuf) (by rw [hstate]; simp) (fun _ ↦ hdbuf)
    (fun hfalse ↦ absurd hfalse (by decide)) (fun _ hmarkers ↦ hnonempty (hpatch hmarkers))
    (by rw [hdbuf, hflatten]; simpa using hsize) _ []
    (by rw [hdbuf, hflatten]; exact hdecode)
  rw [sub_add_cancel] at hreceive hstep
  refine ⟨⟨peer', s.delivered ++ [(r, q.msg)]⟩, fun n hn ↦ ?_, ⟨fun r' ↦ ?_, helse.patch,
    by simp [Cargo.requests]⟩⟩
  · have hnpos : 0 < n := by
      have hlen := hn _ (mem_map_of_mem (mem_cons_self ..))
      rw [length_batch] at hlen
      exact lt_of_lt_of_le (fragmentStart_pos _ _) (le_trans (Nat.le_add_right _ _) hlen)
    have hbytes : batchContent cfg ∘ Fragment.batch cfg = Fragment.bytes :=
      funext batchContent_fragment
    rw [Cargo.batches, List.map_map, hbytes, ← hres]
    exact hreceive n hnpos
  · rw [behind, Cargo.numbers]
    split_ifs with hr
    · subst hr
      rw [length_map, length_fragmentRun]
      exact hstep
    · simpa using helse.inStep r' (Ne.symm hr) _ (hpeer r')

theorem Cargo.received (hres : rx.snRes = cfg.snRes) (hW : 0 < reorderWindow)
    {cargo : Cargo Unit Msg} (hwhole : cargo.Whole cfg codec)
    (hreadable : cargo.Readable cfg codec rx patch)
    (hnumbers : ∀ r, NumberedFrom cfg.bits (pos r) (cargo.numbers cfg r))
    (hpeer : ∀ r, s.peer.InStep (PeerKind.unicast.windowed rx.link) cfg.bits (pos r) r)
    (hpatch : patchHasFragmentMarkers s.peer.patch = true → 1 ≤ patch) :
    cargo.Received cfg codec rx pos s := by
  cases cargo with
  | frame f =>
    have hnumber := hnumbers f.reliability
    rw [numbers, if_pos rfl] at hnumber
    exact received_frame hres hW hnumber.head hpeer
  | fragments r sn q chunks =>
    obtain rfl : sn = snAt cfg.bits (pos r) := by
      have hnumber := hnumbers r
      rw [numbers, if_pos rfl] at hnumber
      cases chunks with
      | nil => cases hwhole.2
      | cons chunk chunks =>
        rw [fragmentRun, map_cons] at hnumber
        exact hnumber.head
    exact received_fragments hres hwhole hreadable hpeer hpatch
  | tMsg writes => exact hreadable.elim

end Received

/-- What is received of everything that was written -/
theorem received_cargos (hres : rx.snRes = cfg.snRes) (hW : 0 < reorderWindow)
    {cargos : List (Cargo Unit Msg)} (hwhole : ∀ cargo ∈ cargos, cargo.Whole cfg codec)
    (hreadable : ∀ cargo ∈ cargos, cargo.Readable cfg codec rx patch) {pos : Reliability → ℤ}
    (hnumbers : ∀ r, NumberedFrom cfg.bits (pos r) (cargos.flatMap (Cargo.numbers cfg r)))
    {s : RxSession reorderWindow Msg}
    (hpeer : ∀ r, s.peer.InStep (PeerKind.unicast.windowed rx.link) cfg.bits (pos r) r)
    (hpatch : patchHasFragmentMarkers s.peer.patch = true → 1 ≤ patch) :
    ∃ s' pos', (∀ n, (∀ batch ∈ cargos.flatMap (Cargo.batches cfg codec), batch.length ≤ n) →
        receiveBatches codec rx n
          ((cargos.flatMap (Cargo.batches cfg codec)).map (batchContent cfg)) s = some (s', true)) ∧
      s.Got (PeerKind.unicast.windowed rx.link) cfg.bits pos' s'
        ((cargos.flatMap Cargo.requests).map Request.msg) := by
  induction cargos generalizing pos s with
  | nil => exact ⟨s, pos, fun n _ ↦ rfl, hpeer, rfl, (append_nil _).symm⟩
  | cons cargo cargos ih =>
    rw [forall_mem_cons] at hwhole hreadable
    have hsplit (r : Reliability) := (hnumbers r).append
    obtain ⟨s', hfirst, hgot⟩ := cargo.received hres hW hwhole.1 hreadable.1
      (fun r ↦ (hsplit r).1) hpeer hpatch
    obtain ⟨s'', pos', hrest, hgot'⟩ := ih hwhole.2 hreadable.2 (fun r ↦ (hsplit r).2)
      hgot.inStep (hgot.patch.symm ▸ hpatch)
    refine ⟨s'', pos', fun n hn ↦ ?_, ?_⟩
    · rw [flatMap_cons, forall_mem_append] at hn
      rw [flatMap_cons, map_append, receiveBatches_append _ (hfirst n hn.1)]
      exact hrest n hn.2
    · rw [flatMap_cons, map_append]
      exact hgot.trans hgot'

end Cargo

/-! ### What the session gets -/

section Sending

variable {cfg : TxConfig} {codec : NetworkCodec Msg} {rx : RxConfig} {patch : ℕ}
  {tx : TxCommon Unit} {calls : List (TxCall Unit Msg)} {call : TxCall Unit Msg}
  {L L' : Ledger Unit Msg} {q : Request Unit Msg}

/-- A peer that was just added expects the first numbers. -/
theorem inStep_transportPeerUnicastAdd {bits : ℕ} (h : IsResolution bits) (windowed : Bool)
    (r : Reliability) :
    (transportPeerUnicastAdd reorderWindow (snMax bits) 0 patch).InStep windowed bits 0 r := by
  have hprevious : snDecrement (snMax bits) 0 = snAt bits (0 - 1) := by
    have hzero : snAt bits 0 = 0 := rfl
    rw [← snDecrement_snAt h (0 - 1), sub_add_cancel, hzero]
  cases r with
  | reliable => exact ⟨⟨hprevious, fun heq ↦ Reliability.noConfusion heq⟩, rfl, rfl⟩
  | bestEffort => exact ⟨⟨hprevious, fun _ _ ↦ hprevious⟩, rfl, rfl⟩

theorem Ledger.Takes.readable {sn : UInt64} (h : L.Takes cfg codec q sn L')
    (hgood : ∀ cargo ∈ L.all, cargo.Readable cfg codec rx patch)
    (hsize : (codec.encode q.msg).length ≤ rx.fragMaxSize)
    (hroom : L.held = none → cfg.capacity < frameStart cfg sn + (codec.encode q.msg).length →
      1 ≤ patch → fragmentStart cfg sn true < cfg.capacity) :
    ∀ cargo ∈ L'.all, cargo.Readable cfg codec rx patch := by
  have hhold : ∀ cargo ∈ (L.hold q sn).all, cargo.Readable cfg codec rx patch := by
    cases hheld : L.held with
    | none =>
      rw [Ledger.all_hold_of_none hheld, forall_mem_append, forall_mem_singleton]
      exact ⟨hgood, trivial⟩
    | some f =>
      rw [Ledger.all_of_some hheld, forall_mem_append] at hgood
      rw [Ledger.all_hold_of_some hheld, forall_mem_append, forall_mem_singleton]
      exact ⟨hgood.1, trivial⟩
  cases h with
  | hold => exact hhold
  | ship => rwa [Ledger.all_ship]
  | post hnone hlarge chunks =>
    rw [Ledger.all_post hnone, forall_mem_append, forall_mem_singleton]
    exact ⟨hgood, hsize, hroom hnone hlarge⟩

theorem Ledger.Follows.readable (haccounts : SendAccounts cfg codec tx calls L)
    (hgood : ∀ cargo ∈ L.all, cargo.Readable cfg codec rx patch)
    (horderly : OrderlyDelivery cfg codec rx patch tx calls call)
    (h : L.Follows cfg codec tx call L') : ∀ cargo ∈ L'.all, cargo.Readable cfg codec rx patch := by
  obtain ⟨-, htMsgs, hrequests⟩ := horderly
  cases h with
  | startBatching => exact hgood
  | stopBatching => exact hgood
  | sendNBatch dest => rwa [Ledger.all_ship]
  | @newFrame q _ hbegins htakes =>
    obtain ⟨hsize, hroom⟩ := hrequests q (mem_singleton_self q)
    exact htakes.readable (by rwa [Ledger.all_ship]) hsize fun _ ↦ hroom hbegins
  | @behind q _ hbehind htakes =>
    obtain ⟨hsize, -⟩ := hrequests q (mem_singleton_self q)
    refine htakes.readable hgood hsize fun hnone ↦ absurd (fun hdata ↦ ?_) hbehind
    obtain ⟨f, hf⟩ := haccounts.held_some (batchHasData_count hdata)
    cases hnone.symm.trans hf
  | tMsg tMsg dest => cases htMsgs
  | refused tMsg dest => rwa [Ledger.all_ship]

theorem Destination.peers_unit (dest : Destination Unit) : dest.peers = [()] := by
  obtain ⟨peers, hne, hnodup⟩ := dest
  rcases peers with _ | ⟨peer, _ | ⟨peer', peers⟩⟩
  · exact absurd rfl hne
  · rfl
  · exact absurd (mem_cons_self ..) (nodup_cons.mp hnodup).1

/-- Every batch was written once, to the link. -/
theorem SendAccounts.content_sent (h : SendAccounts cfg codec tx calls L) :
    (tx.sent.map fun write ↦ batchContent cfg write.2) =
      ((L.log.map Parcel.cargo).flatMap (Cargo.batches cfg codec)).map (batchContent cfg) := by
  rw [h.sent, flatMap_map, map_flatMap, map_flatMap]
  refine flatMap_congr fun p _ ↦ ?_
  rw [Parcel.writes, p.dest.peers_unit, toPeers, map_flatMap]
  exact map_eq_flatMap.symm

/-- Orderly calls bring the session of the peer what was sent. -/
theorem Sending.delivers (hres : rx.snRes = cfg.snRes) (hW : 0 < reorderWindow)
    (h : Sending cfg codec (OrderlyDelivery cfg codec rx patch) tx calls) :
    Delivers cfg codec rx reorderWindow patch tx calls := by
  obtain ⟨L, haccounts, hgood⟩ : ∃ L, SendAccounts cfg codec tx calls L ∧
      ∀ cargo ∈ L.all, cargo.Readable cfg codec rx patch :=
    h.exists_ledger (fun cargo hmem ↦ absurd hmem not_mem_nil) And.left
      fun haccounts hgood horderly hfollows ↦ hfollows.readable haccounts hgood horderly
  have hmem {cargo : Cargo Unit Msg} (h : cargo ∈ L.log.map Parcel.cargo) : cargo ∈ L.all :=
    mem_append_left _ h
  have hnumbers (r : Reliability) :
      NumberedFrom cfg.bits 0 ((L.log.map Parcel.cargo).flatMap (Cargo.numbers cfg r)) := by
    have hall := (haccounts.numbers r).numberedFrom
    rw [Ledger.numbers, Ledger.all, flatMap_append] at hall
    exact hall.append.1
  have hpatch : patchHasFragmentMarkers
      (transportPeerUnicastAdd reorderWindow rx.snRes 0 patch).patch = true → 1 ≤ patch := by
    intro hmarkers
    have hmin : 1 ≤ if patch < currentPatch then patch else currentPatch :=
      of_decide_eq_true hmarkers
    split_ifs at hmin with hlt
    · exact hmin
    · exact Nat.not_lt.mp hlt
  have hpeer (r : Reliability) : (transportPeerUnicastAdd reorderWindow rx.snRes 0 patch).InStep
      (PeerKind.unicast.windowed rx.link) cfg.bits 0 r :=
    hres ▸ inStep_transportPeerUnicastAdd cfg.resolution _ r
  obtain ⟨s, _, hreceive, hgot⟩ := @received_cargos reorderWindow Msg cfg codec rx patch hres hW
    (L.log.map Parcel.cargo) (fun cargo h ↦ haccounts.whole cargo (hmem h))
    (fun cargo h ↦ hgood cargo (hmem h)) (fun _ ↦ 0) hnumbers
    ⟨transportPeerUnicastAdd reorderWindow rx.snRes 0 patch, []⟩ hpeer hpatch
  refine ⟨s, ⟨((L.log.map Parcel.cargo).flatMap (Cargo.batches cfg codec)).flatten.length,
    fun n hn ↦ ?_⟩, ?_⟩
  · dsimp only
    rw [haccounts.content_sent]
    exact hreceive n fun batch hbatch ↦
      (sublist_flatten_of_mem hbatch).length_le.trans hn
  · rw [hgot.delivered, ← haccounts.requests, L.requests_eq, ← haccounts.count, flatMap_map,
      length_append, Nat.add_sub_cancel, map_append]
    exact (take_left' (length_map _)).symm

end Sending

/-- A receiver on a datagram link with room for messages of 64 bytes -/
def datagramRxConfig : RxConfig := ⟨snMax 2, 64, ⟨true, false⟩⟩

/-- A put on each channel, in a batch that is sent -/
theorem delivers_put : Delivers (datagramTxConfig 64) putCodec datagramRxConfig 256 1
    (afterTwoBatches linkPeer linkPeer) (twoBatches linkPeer linkPeer) := by
  refine Sending.delivers rfl (by decide) (sending_twoBatches linkPeer linkPeer
    ⟨fun _ ↦ rfl, rfl, fun _ hq ↦ absurd hq not_mem_nil⟩
    (fun tx _ q hactive _ hmsg hsn ↦ ⟨orderly_put hactive hmsg hsn, rfl, fun q' hq' ↦ ?_⟩)
    fun _ _ _ ↦ ⟨trivial, rfl, fun _ hq ↦ absurd hq not_mem_nil⟩)
  obtain rfl := mem_singleton.mp hq'
  rw [hmsg, hsn]
  exact ⟨by decide +kernel, fun _ hlarge ↦ absurd hlarge (by decide +kernel)⟩

/-- A batch that was stopped is forgotten when the next one is started before it is sent. -/
theorem not_delivers_restarted : ∃ tx : TxCommon Unit, Sending (datagramTxConfig 64) putCodec
      (fun _ _ _ ↦ True) tx
      [.startBatching, linkPut .reliable, .stopBatching, .startBatching, .sendNBatch linkPeer] ∧
    ¬ Delivers (datagramTxConfig 64) putCodec datagramRxConfig 256 1 tx
      [.startBatching, linkPut .reliable, .stopBatching, .startBatching, .sendNBatch linkPeer] := by
  have hstart := @sending_started Unit (fun _ _ _ ↦ True) trivial
  have hput : Sending (datagramTxConfig 64) putCodec (fun _ _ _ ↦ True)
      ⟨1, 0, [0x25, 0, 0x7D, 0, 1, 0x61, 1, 0], true, 1, []⟩
      [.startBatching, linkPut .reliable] :=
    .call hstart trivial (linkPut_step (sendNMsgInner_first [()]))
  have hall := Sending.call (.call (.call hput trivial .stopBatching) trivial .startBatching)
    trivial (.sendNBatch linkPeer)
  refine ⟨_, hall, ?_⟩
  rintro ⟨s, ⟨n, hn⟩, hdelivered⟩
  obtain ⟨rfl, -⟩ := Prod.mk.inj (some.inj (hn n le_rfl))
  exact absurd (congrArg List.length hdelivered) (show ¬ 0 = 1 by decide)

end ZenohPico.Transport
