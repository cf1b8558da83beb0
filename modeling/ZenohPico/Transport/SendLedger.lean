import ZenohPico.Transport.SendFragments

/-!
What has become of the messages to be sent (`src/transport/common/tx.c`).

A message goes in a frame of its own, or behind others in a frame that is held back, or in
fragments. The ledger of a transport has the frames, fragments and transport messages it has written
and the frame it holds back, and every call adds to it (`SendAccounts.step`). That takes calls that
find a place for what they write (`Orderly`): a batch that was stopped but not sent yet would be
written over, and a message whose headers find no room is lost when its number is taken.
-/

open List Option

namespace ZenohPico.Transport

open Foundations Protocol

variable {Sock Msg : Type} (cfg : TxConfig) (codec : NetworkCodec Msg)

/-! ### Calls -/

/-- Where a call sends: to the socket of the link, or to the sockets of some peers -/
structure Destination (Sock : Type) where
  peers : List Sock
  nonempty : peers ≠ []
  nodup : peers.Nodup

/-- A message to be sent, with what the caller asks for it -/
structure Request (Sock Msg : Type) where
  msg : Msg
  reliability : Reliability
  dest : Destination Sock

/-- The calls that change a transport: `_z_transport_start_batching`, `_z_transport_stop_batching`,
`_z_transport_tx_send_n_batch`, `_z_transport_tx_send_n_msg` and `_z_transport_tx_send_t_msg` -/
inductive TxCall (Sock Msg : Type)
  | startBatching
  | stopBatching
  | sendNBatch (dest : Destination Sock)
  | sendNMsg (request : Request Sock Msg)
  | sendTMsg (tMsg : Writes) (dest : Destination Sock)

/-- The network message that a call is to send -/
def TxCall.requests : TxCall Sock Msg → List (Request Sock Msg)
  | .startBatching => []
  | .stopBatching => []
  | .sendNBatch _ => []
  | .sendNMsg request => [request]
  | .sendTMsg _ _ => []

/-- The transport message that a call is to send -/
def TxCall.tMsgs : TxCall Sock Msg → List Writes
  | .startBatching => []
  | .stopBatching => []
  | .sendNBatch _ => []
  | .sendNMsg _ => []
  | .sendTMsg tMsg _ => [tMsg]

/-- The network messages to be sent so far -/
def asked (calls : List (TxCall Sock Msg)) : List (Request Sock Msg) :=
  calls.flatMap TxCall.requests

theorem asked_concat (calls : List (TxCall Sock Msg)) (call : TxCall Sock Msg) :
    asked (calls ++ [call]) = asked calls ++ call.requests := by
  rw [asked, flatMap_append, flatMap_singleton, asked]

/-- What a call that comes back makes of a transport -/
inductive TxStep (tx : TxCommon Sock) : TxCall Sock Msg → TxCommon Sock → Prop
  | startBatching : TxStep tx .startBatching (startBatching tx).1
  | stopBatching : TxStep tx .stopBatching (stopBatching tx)
  | sendNBatch (dest : Destination Sock) :
    TxStep tx (.sendNBatch dest) (txSendNBatch cfg dest.peers tx)
  | sendNMsg {request : Request Sock Msg} {tx' : TxCommon Sock} {result : Except ZError Unit}
    (h : Settles (fun n ↦ sendNMsgInner cfg codec n request.msg request.reliability
      request.dest.peers tx) (tx', result)) : TxStep tx (.sendNMsg request) tx'
  | sendTMsg (tMsg : Writes) (dest : Destination Sock) :
    TxStep tx (.sendTMsg tMsg dest) (sendTMsgInner cfg tMsg dest.peers tx).1

/-- A transport after calls that are all allowed. What is allowed may depend on the transport and on
the calls before. -/
inductive Sending (Allowed : TxCommon Sock → List (TxCall Sock Msg) → TxCall Sock Msg → Prop) :
    TxCommon Sock → List (TxCall Sock Msg) → Prop
  | init : Sending Allowed (TxCommon.init Sock) []
  | call {tx tx' : TxCommon Sock} {calls : List (TxCall Sock Msg)} {call : TxCall Sock Msg}
    (h : Sending Allowed tx calls) (hallowed : Allowed tx calls call)
    (hstep : TxStep cfg codec tx call tx') : Sending Allowed tx' (calls ++ [call])

/-! ### The ledger -/

/-- A frame with its messages -/
structure OutFrame (Sock Msg : Type) where
  reliability : Reliability
  sn : UInt64
  requests : List (Request Sock Msg)

/-- A message is put behind the others. -/
def OutFrame.add (f : OutFrame Sock Msg) (q : Request Sock Msg) : OutFrame Sock Msg :=
  { f with requests := f.requests ++ [q] }

/-- The buffer with a frame in it -/
def OutFrame.buffer (f : OutFrame Sock Msg) : List UInt8 :=
  prepareWbuf cfg ++ (frameHeaderWrites f.sn f.reliability).flatten ++
    f.requests.flatMap fun q ↦ codec.encode q.msg

/-- What is written at once: a frame, a message in fragments or a transport message -/
inductive Cargo (Sock Msg : Type)
  | frame (f : OutFrame Sock Msg)
  | fragments (r : Reliability) (sn : UInt64) (q : Request Sock Msg) (chunks : List (List UInt8))
  | tMsg (writes : Writes)

namespace Cargo

/-- The bytes, batch by batch -/
def batches : Cargo Sock Msg → List (List UInt8)
  | .frame f => [finalizeWbuf cfg (f.buffer cfg codec)]
  | .fragments r sn _ chunks => (fragmentRun r cfg.snRes true sn chunks).map (Fragment.batch cfg)
  | .tMsg writes => [finalizeWbuf cfg (prepareWbuf cfg ++ writes.flatten)]

/-- The network messages in it -/
def requests : Cargo Sock Msg → List (Request Sock Msg)
  | .frame f => f.requests
  | .fragments _ _ q _ => [q]
  | .tMsg _ => []

/-- The transport message in it -/
def tMsgs : Cargo Sock Msg → List Writes
  | .frame _ => []
  | .fragments _ _ _ _ => []
  | .tMsg writes => [writes]

/-- The numbers of a channel in it -/
def numbers (r : Reliability) : Cargo Sock Msg → List UInt64
  | .frame f => if f.reliability = r then [f.sn] else []
  | .fragments r' sn _ chunks =>
    if r' = r then (fragmentRun r' cfg.snRes true sn chunks).map Fragment.sn else []
  | .tMsg _ => []

/-- A frame has messages, and the fragments of a message are all there, with as much of it in the
first one as fits there. -/
def Whole : Cargo Sock Msg → Prop
  | .frame f => f.requests ≠ []
  | .fragments _ sn q chunks => chunks.flatten = codec.encode q.msg ∧
    chunks.head? = some ((codec.encode q.msg).take (cfg.capacity - fragmentStart cfg sn true))
  | .tMsg _ => True

end Cargo

/-- What was written, and where to -/
structure Parcel (Sock Msg : Type) where
  dest : Destination Sock
  cargo : Cargo Sock Msg

/-- The writes to the sockets -/
def Parcel.writes (p : Parcel Sock Msg) : List (Sock × List UInt8) :=
  toPeers p.dest.peers (p.cargo.batches cfg codec)

/-- What was written, and the frame that is held back -/
structure Ledger (Sock Msg : Type) where
  log : List (Parcel Sock Msg)
  held : Option (OutFrame Sock Msg)

namespace Ledger

variable (L : Ledger Sock Msg)

/-- Everything, also what is held back -/
def all : List (Cargo Sock Msg) := L.log.map Parcel.cargo ++ L.held.toList.map .frame

/-- The messages of the ledger -/
def requests : List (Request Sock Msg) := L.all.flatMap Cargo.requests

/-- The transport messages of the ledger -/
def tMsgs : List Writes := L.all.flatMap Cargo.tMsgs

/-- The messages that are held back -/
def waiting : List (Request Sock Msg) := L.held.toList.flatMap OutFrame.requests

/-- The numbers of a channel that are taken -/
def numbers (r : Reliability) : List UInt64 := L.all.flatMap (Cargo.numbers cfg r)

/-- The frame that is held back is written. -/
def ship (dest : Destination Sock) : Ledger Sock Msg :=
  ⟨L.log ++ L.held.toList.map fun f ↦ ⟨dest, .frame f⟩, none⟩

/-- A message is held back, in the frame that others wait in or in a new one with this number. -/
def hold (q : Request Sock Msg) (sn : UInt64) : Ledger Sock Msg :=
  { L with held := some ((L.held.getD ⟨q.reliability, sn, []⟩).add q) }

/-- Something else is written. -/
def post (dest : Destination Sock) (cargo : Cargo Sock Msg) : Ledger Sock Msg :=
  { L with log := L.log ++ [⟨dest, cargo⟩] }

end Ledger

namespace Ledger

variable {L : Ledger Sock Msg} {f : OutFrame Sock Msg}

@[simp] theorem all_ship (dest : Destination Sock) : (L.ship dest).all = L.all := by
  simp only [all, ship, List.map_append, List.map_map, Option.toList_none, List.map_nil, append_nil]
  rfl

@[simp] theorem requests_ship (dest : Destination Sock) : (L.ship dest).requests = L.requests := by
  rw [requests, all_ship, requests]

@[simp] theorem tMsgs_ship (dest : Destination Sock) : (L.ship dest).tMsgs = L.tMsgs := by
  rw [tMsgs, all_ship, tMsgs]

@[simp] theorem numbers_ship (dest : Destination Sock) (r : Reliability) :
    (L.ship dest).numbers cfg r = L.numbers cfg r := by
  rw [numbers, all_ship, numbers]

theorem ship_of_none (h : L.held = none) (dest : Destination Sock) : L.ship dest = L := by
  obtain ⟨log, held⟩ := L
  cases h
  simp only [ship, toList_none, map_nil, append_nil]

theorem all_post (h : L.held = none) (dest : Destination Sock) (cargo : Cargo Sock Msg) :
    (L.post dest cargo).all = L.all ++ [cargo] := by
  simp only [all, post, h, toList_none, map_nil, append_nil, map_append, map_cons]

theorem all_hold_of_none (h : L.held = none) (q : Request Sock Msg) (sn : UInt64) :
    (L.hold q sn).all = L.all ++ [.frame ⟨q.reliability, sn, [q]⟩] := by
  simp only [all, hold, h, getD_none, OutFrame.add, nil_append, toList_none,
    toList_some, map_cons, map_nil, append_nil]

theorem all_of_none (h : L.held = none) : L.all = L.log.map Parcel.cargo := by
  rw [all, h]
  exact append_nil _

theorem all_of_some (h : L.held = some f) : L.all = L.log.map Parcel.cargo ++ [.frame f] := by
  rw [all, h]
  rfl

theorem all_hold_of_some (h : L.held = some f) (q : Request Sock Msg) (sn : UInt64) :
    (L.hold q sn).all = L.log.map Parcel.cargo ++ [.frame (f.add q)] := by
  rw [all, hold, h]
  rfl

theorem waiting_hold (q : Request Sock Msg) (sn : UInt64) :
    (L.hold q sn).waiting = L.waiting ++ [q] := by
  unfold waiting hold
  cases L.held <;> simp only [getD_none, getD_some, OutFrame.add, toList_none,
    toList_some, flatMap_nil, flatMap_singleton, nil_append]

theorem requests_eq : L.requests = L.log.flatMap (fun p ↦ p.cargo.requests) ++ L.waiting := by
  rw [requests, all, flatMap_append, flatMap_map, flatMap_map, waiting]
  rfl

@[simp] theorem requests_hold (q : Request Sock Msg) (sn : UInt64) :
    (L.hold q sn).requests = L.requests ++ [q] := by
  rw [requests_eq, waiting_hold, requests_eq, append_assoc]
  rfl

theorem tMsgs_eq : L.tMsgs = L.log.flatMap fun p ↦ p.cargo.tMsgs := by
  have hheld : (L.held.toList.map Cargo.frame).flatMap Cargo.tMsgs = [] := by
    cases L.held <;> rfl
  rw [tMsgs, all, flatMap_append, hheld, append_nil, flatMap_map]

@[simp] theorem tMsgs_hold (q : Request Sock Msg) (sn : UInt64) :
    (L.hold q sn).tMsgs = L.tMsgs := by
  rw [tMsgs_eq, tMsgs_eq]
  rfl

theorem waiting_eq_nil (h : ∀ f ∈ L.held, f.requests ≠ []) : L.waiting = [] ↔ L.held = none := by
  unfold waiting
  cases hheld : L.held with
  | none => simp only [toList_none, flatMap_nil]
  | some f =>
    simp only [toList_some, flatMap_singleton, reduceCtorEq, iff_false]
    exact h f hheld

end Ledger

/-- The numbers of a channel so far, from 0 on without a gap, and the next one -/
def Consecutive (bits : ℕ) (numbers : List UInt64) (next : UInt64) : Prop :=
  ∃ n : ℕ, numbers = (List.range n).map (fun k : ℕ ↦ snAt bits k) ∧ next = snAt bits n

/-- A ledger of a transport after these calls -/
structure SendAccounts (tx : TxCommon Sock) (calls : List (TxCall Sock Msg)) (L : Ledger Sock Msg) :
    Prop where
  sent : tx.sent = L.log.flatMap (Parcel.writes cfg codec)
  requests : L.requests = asked calls
  tMsgs : L.tMsgs.Sublist (calls.flatMap TxCall.tMsgs)
  whole : ∀ cargo ∈ L.all, cargo.Whole cfg codec
  count : L.waiting.length = tx.batchCount
  buffer : ∀ f ∈ L.held, tx.wbuf = f.buffer cfg codec ∧ tx.wbuf.length ≤ cfg.capacity
  numbers : ∀ r, Consecutive cfg.bits (L.numbers cfg r) (tx.counter r)

/-! ### Orderly calls -/

/-- Where the first message of a frame starts in the buffer -/
def frameStart (sn : UInt64) : ℕ := (prepareWbuf cfg).length + frameHeaderLength sn

/-- A message can be sent in a frame that begins with this number: the header fits, and where the
message does not fit behind it the headers of its fragments do. -/
def Opens (msg : Msg) (sn : UInt64) : Prop :=
  frameStart cfg sn ≤ cfg.capacity ∧
    (cfg.capacity < frameStart cfg sn + (codec.encode msg).length → cfg.fragmentation = true ∧
      ∀ k, Unsent cfg true sn (codec.encode msg).length k →
        fragmentStarts cfg true sn k ≤ cfg.capacity)

/-- A message begins a frame: none is held back, or it does not fit behind the others. -/
def Begins (msg : Msg) (tx : TxCommon Sock) : Prop :=
  tx.batchHasData = true → cfg.capacity < tx.wbuf.length + (codec.encode msg).length

/-- A batch that was stopped has been sent. -/
def NoneStopped (tx : TxCommon Sock) : Prop := tx.batchActive = false → tx.batchCount = 0

/-- A call does not write over a batch that was stopped, and a message that begins a frame can be
sent. -/
def Orderly (tx : TxCommon Sock) : TxCall Sock Msg → Prop
  | .startBatching => NoneStopped tx
  | .stopBatching => True
  | .sendNBatch _ => True
  | .sendNMsg q => NoneStopped tx ∧
    (Begins cfg codec q.msg tx → Opens cfg codec q.msg (tx.counter q.reliability))
  | .sendTMsg _ _ => NoneStopped tx

/-! ### Consecutive numbers -/

section Consecutive

variable {bits : ℕ} {numbers numbers' : List UInt64} {next : UInt64}

theorem Consecutive.succ (h : Consecutive bits numbers next) (hbits : IsResolution bits) :
    Consecutive bits (numbers ++ [next]) (snIncrement (snMax bits) next) := by
  obtain ⟨n, rfl, rfl⟩ := h
  refine ⟨n + 1, ?_, ?_⟩
  · rw [range_succ, map_append, map_singleton]
  · rw [snIncrement_snAt hbits, Nat.cast_succ]

/-- The numbers of the fragments of a message -/
theorem Consecutive.fragmentRun (h : Consecutive bits numbers next) (hbits : IsResolution bits)
    (r : Reliability) (first : Bool) (chunks : List (List UInt8)) : Consecutive bits
      (numbers ++ (fragmentRun r (snMax bits) first next chunks).map Fragment.sn)
      ((snIncrement (snMax bits))^[chunks.length] next) := by
  induction chunks generalizing numbers next first with
  | nil => rwa [Transport.fragmentRun, map_nil, append_nil]
  | cons chunk rest ih =>
    rw [Transport.fragmentRun, map_cons, length_cons, Function.iterate_succ_apply, append_cons]
    exact ih (h.succ hbits) false

end Consecutive

/-! ### A new frame -/

/-- A transport that has begun a frame -/
def begun (r : Reliability) (tx : TxCommon Sock) : TxCommon Sock :=
  { (tx.getSn cfg r).2 with
    wbuf := prepareWbuf cfg ++ (frameHeaderWrites (tx.counter r) r).flatten }

section Begun

variable {cfg} (r : Reliability) (tx : TxCommon Sock)

theorem begun_sent : (begun cfg r tx).sent = tx.sent := by cases r <;> rfl

theorem counter_begun : (begun cfg r tx).counter r = snIncrement cfg.snRes (tx.counter r) := by
  cases r <;> rfl

theorem sentOn_begun : SentOn r tx (begun cfg r tx) where
  counter := (SentOn.getSn cfg r tx).counter
  batchActive := (SentOn.getSn cfg r tx).batchActive
  batchCount := (SentOn.getSn cfg r tx).batchCount

theorem length_begun : (begun cfg r tx).wbuf.length = frameStart cfg (tx.counter r) := by
  rw [begun, length_append, length_frameHeaderWrites, frameStart]

theorem initBuffer_begun (h : frameStart cfg (tx.counter r) ≤ cfg.capacity) :
    initBuffer cfg r tx = (tx.counter r, begun cfg r tx, .ok ()) := by
  rw [frameStart, ← length_frameHeaderWrites r] at h
  have htake : tx.getSn cfg r = (tx.counter r, (tx.getSn cfg r).2) := by cases r <;> rfl
  rw [initBuffer, htake]
  dsimp only
  rw [wbufWrite_fits h]
  rfl

end Begun

/-! ### What a call does to the ledger -/

section SendAccounts

variable {cfg codec} {tx tx' : TxCommon Sock} {calls : List (TxCall Sock Msg)}
  {L : Ledger Sock Msg} {q : Request Sock Msg}

theorem NetworkCodec.encode_ne_nil (codec : NetworkCodec Msg) (msg : Msg) :
    codec.encode msg ≠ [] := by
  obtain ⟨header, body, heq, -⟩ := codec.mid_writes msg
  rw [encode, heq]
  exact cons_ne_nil _ _

theorem NoneStopped.count (h : NoneStopped tx) (hdata : tx.batchHasData = false) :
    tx.batchCount = 0 := by
  rw [TxCommon.batchHasData, Bool.and_eq_false_iff, decide_eq_false_iff_not] at hdata
  rcases hdata with hinactive | hnone
  · exact h hinactive
  · exact Nat.eq_zero_of_not_pos hnone

theorem batchHasData_count (h : tx.batchHasData = true) : 0 < tx.batchCount := by
  rw [TxCommon.batchHasData, Bool.and_eq_true, decide_eq_true_iff] at h
  exact h.2

theorem flatMap_tMsgs_sendNMsg (calls : List (TxCall Sock Msg)) (q : Request Sock Msg) :
    (calls ++ [TxCall.sendNMsg q]).flatMap TxCall.tMsgs = calls.flatMap TxCall.tMsgs := by
  rw [flatMap_append, flatMap_singleton, TxCall.tMsgs, append_nil]

/-- A transport that was just created -/
theorem SendAccounts.init : SendAccounts cfg codec (TxCommon.init Sock) [] ⟨[], none⟩ where
  sent := rfl
  requests := rfl
  tMsgs := List.Sublist.slnil
  whole cargo hmem := absurd hmem not_mem_nil
  count := rfl
  buffer f hf := absurd hf (not_mem_none f)
  numbers r := ⟨0, rfl, by cases r <;> rfl⟩

theorem Ledger.held_mem_all {f : OutFrame Sock Msg} (hf : f ∈ L.held) : .frame f ∈ L.all := by
  rw [mem_def] at hf
  rw [all_of_some hf]
  exact mem_append_right _ (mem_singleton_self _)

theorem SendAccounts.held_nonempty (h : SendAccounts cfg codec tx calls L) {f : OutFrame Sock Msg}
    (hf : f ∈ L.held) : f.requests ≠ [] := h.whole _ (Ledger.held_mem_all hf)

theorem SendAccounts.held_none (h : SendAccounts cfg codec tx calls L)
    (hcount : tx.batchCount = 0) : L.held = none := by
  rw [← L.waiting_eq_nil fun f hf ↦ h.held_nonempty hf, ← length_eq_zero_iff, h.count, hcount]

theorem SendAccounts.held_some (h : SendAccounts cfg codec tx calls L)
    (hcount : 0 < tx.batchCount) : ∃ f, L.held = some f := by
  refine ne_none_iff_exists'.mp fun hnone ↦ ?_
  rw [← h.count, Ledger.waiting, hnone] at hcount
  exact absurd hcount (Nat.lt_irrefl 0)

/-- While nothing is held back the buffer does not matter. -/
theorem SendAccounts.wbuf (h : SendAccounts cfg codec tx calls L) (hcount : tx.batchCount = 0)
    (wbuf : List UInt8) : SendAccounts cfg codec { tx with wbuf := wbuf } calls L where
  sent := h.sent
  requests := h.requests
  tMsgs := h.tMsgs
  whole := h.whole
  count := h.count
  buffer f hf := by
    rw [h.held_none hcount] at hf
    cases hf
  numbers := h.numbers

/-- The frame that is held back is written. -/
theorem SendAccounts.flush (h : SendAccounts cfg codec tx calls L) (hcount : 0 < tx.batchCount)
    (dest : Destination Sock) :
    SendAccounts cfg codec (flushBuffer cfg dest.peers tx) calls (L.ship dest) where
  sent := by
    obtain ⟨f, hf⟩ := h.held_some hcount
    obtain ⟨hbuffer, -⟩ := h.buffer f hf
    rw [Ledger.ship, hf, toList_some, map_singleton, flatMap_append,
      flatMap_singleton, ← h.sent, Parcel.writes, Cargo.batches, toPeers,
      flatMap_singleton, ← hbuffer]
    rfl
  requests := (L.requests_ship dest).trans h.requests
  tMsgs := by
    rw [L.tMsgs_ship dest]
    exact h.tMsgs
  whole := (L.all_ship dest).symm ▸ h.whole
  count := rfl
  buffer f hf := absurd hf (not_mem_none f)
  numbers r := by
    rw [Ledger.numbers_ship]
    exact h.numbers r

/-- A call that sends nothing adds nothing. -/
theorem SendAccounts.quiet (h : SendAccounts cfg codec tx calls L) {call : TxCall Sock Msg}
    (hquiet : call.requests = []) : SendAccounts cfg codec tx (calls ++ [call]) L where
  sent := h.sent
  requests := by rw [asked_concat, hquiet, append_nil, h.requests]
  tMsgs := by
    rw [flatMap_append]
    exact h.tMsgs.trans (sublist_append_left _ _)
  whole := h.whole
  count := h.count
  buffer := h.buffer
  numbers := h.numbers

/-- A transport message is written. -/
theorem SendAccounts.tMsg (h : SendAccounts cfg codec tx calls L) (hcount : tx.batchCount = 0)
    (tMsg : Writes) (dest : Destination Sock) : SendAccounts cfg codec
      (flushBuffer cfg dest.peers { tx with wbuf := prepareWbuf cfg ++ tMsg.flatten })
      (calls ++ [.sendTMsg tMsg dest]) (L.post dest (.tMsg tMsg)) where
  sent := by
    rw [Ledger.post, flatMap_append, flatMap_singleton, ← h.sent, Parcel.writes,
      Cargo.batches, toPeers, flatMap_singleton]
    rfl
  requests := by
    rw [Ledger.requests, Ledger.all_post (h.held_none hcount), flatMap_append,
      flatMap_singleton, Cargo.requests, append_nil, asked_concat, TxCall.requests, append_nil]
    exact h.requests
  tMsgs := by
    rw [Ledger.tMsgs, Ledger.all_post (h.held_none hcount), flatMap_append,
      flatMap_append, flatMap_singleton, flatMap_singleton]
    exact h.tMsgs.append_right _
  whole := by
    rw [Ledger.all_post (h.held_none hcount), forall_mem_append, forall_mem_singleton]
    exact ⟨h.whole, trivial⟩
  count := (h.count.trans hcount :)
  buffer f hf := by
    rw [Ledger.post, h.held_none hcount] at hf
    cases hf
  numbers r := by
    rw [Ledger.numbers, Ledger.all_post (h.held_none hcount), flatMap_append,
      flatMap_singleton, Cargo.numbers, append_nil]
    exact h.numbers r

/-- A message begins a frame. -/
theorem SendAccounts.begin (h : SendAccounts cfg codec tx calls L) (hcount : tx.batchCount = 0)
    (hfits : frameStart cfg (tx.counter q.reliability) + (codec.encode q.msg).length ≤
      cfg.capacity) : SendAccounts cfg codec
      { begun cfg q.reliability tx with
        wbuf := (begun cfg q.reliability tx).wbuf ++ codec.encode q.msg
        batchCount := (begun cfg q.reliability tx).batchCount + 1 }
      (calls ++ [.sendNMsg q]) (L.hold q (tx.counter q.reliability)) where
  sent := (begun_sent q.reliability tx).trans h.sent
  requests := by
    rw [Ledger.requests_hold, h.requests, asked_concat]
    rfl
  tMsgs := by
    rw [Ledger.tMsgs_hold, flatMap_tMsgs_sendNMsg]
    exact h.tMsgs
  whole := by
    rw [Ledger.all_hold_of_none (h.held_none hcount), forall_mem_append, forall_mem_singleton]
    exact ⟨h.whole, cons_ne_nil _ _⟩
  count := by
    rw [Ledger.waiting_hold, length_append, h.count, length_singleton,
      (sentOn_begun q.reliability tx).batchCount]
  buffer f hf := by
    rw [Ledger.hold, h.held_none hcount] at hf
    obtain rfl := some.inj hf
    constructor
    · rw [OutFrame.buffer, getD_none, OutFrame.add, nil_append, flatMap_singleton]
      rfl
    · rw [length_append, length_begun]
      exact hfits
  numbers r := by
    rw [Ledger.numbers, Ledger.all_hold_of_none (h.held_none hcount), flatMap_append,
      flatMap_singleton, Cargo.numbers]
    split_ifs with hr
    · subst hr
      exact (counter_begun q.reliability tx).symm ▸ (h.numbers _).succ cfg.resolution
    · rw [append_nil]
      exact ((sentOn_begun q.reliability tx).counter r (Ne.symm hr)).symm ▸ h.numbers r

/-- A message is put behind others. -/
theorem SendAccounts.append (h : SendAccounts cfg codec tx calls L) (hcount : 0 < tx.batchCount)
    (hfits : tx.wbuf.length + (codec.encode q.msg).length ≤ cfg.capacity) (sn : UInt64) :
    SendAccounts cfg codec
      { tx with wbuf := tx.wbuf ++ codec.encode q.msg, batchCount := tx.batchCount + 1 }
      (calls ++ [.sendNMsg q]) (L.hold q sn) := by
  obtain ⟨f, hf⟩ := h.held_some hcount
  obtain ⟨hbuffer, -⟩ := h.buffer f hf
  constructor
  case sent => exact h.sent
  case requests =>
    rw [Ledger.requests_hold, h.requests, asked_concat]
    rfl
  case tMsgs =>
    rw [Ledger.tMsgs_hold, flatMap_tMsgs_sendNMsg]
    exact h.tMsgs
  case whole =>
    have hwhole := h.whole
    rw [Ledger.all_of_some hf, forall_mem_append] at hwhole
    rw [Ledger.all_hold_of_some hf, forall_mem_append, forall_mem_singleton]
    exact ⟨hwhole.1, append_ne_nil_of_right_ne_nil _ (cons_ne_nil _ _)⟩
  case count => rw [Ledger.waiting_hold, length_append, h.count, length_singleton]
  case buffer =>
    intro f' hf'
    rw [Ledger.hold, hf] at hf'
    obtain rfl := some.inj hf'
    constructor
    · rw [getD_some, OutFrame.buffer, OutFrame.add, flatMap_append,
        flatMap_singleton, hbuffer, OutFrame.buffer, append_assoc _ _ (codec.encode q.msg)]
    · rw [length_append]
      exact hfits
  case numbers =>
    intro r
    have hnumbers := h.numbers r
    rw [Ledger.numbers, Ledger.all_of_some hf, flatMap_append, flatMap_singleton] at hnumbers
    rw [Ledger.numbers, Ledger.all_hold_of_some hf, flatMap_append, flatMap_singleton]
    exact hnumbers

/-- A message is sent in fragments. -/
theorem SendAccounts.fragments (h : SendAccounts cfg codec tx calls L) (hcount : tx.batchCount = 0)
    {wbuf : List UInt8} {chunks : List (List UInt8)}
    (hparts : SentInParts cfg q.reliability q.dest.peers true (tx.counter q.reliability)
      ⟨true, tx.counter q.reliability, codec.encode q.msg,
        { begun cfg q.reliability tx with wbuf := wbuf }⟩ tx' chunks)
    (hhead : chunks.head? = some ((codec.encode q.msg).take
      (cfg.capacity - fragmentStart cfg (tx.counter q.reliability) true))) :
    SendAccounts cfg codec tx' (calls ++ [.sendNMsg q]) (L.post q.dest
      (.fragments q.reliability (tx.counter q.reliability) q chunks)) := by
  have hnone := h.held_none hcount
  have hcount' : tx'.batchCount = 0 := by
    rw [hparts.sentOn.batchCount]
    exact (sentOn_begun q.reliability tx).batchCount.trans hcount
  have hchunks : chunks ≠ [] := by
    rintro rfl
    exact codec.encode_ne_nil q.msg hparts.flatten.symm
  constructor
  case sent =>
    rw [Ledger.post, flatMap_append, flatMap_singleton, ← h.sent, hparts.sent,
      ← begun_sent q.reliability tx]
    rfl
  case requests =>
    rw [Ledger.requests, Ledger.all_post hnone, flatMap_append, flatMap_singleton,
      asked_concat, ← h.requests]
    rfl
  case tMsgs =>
    rw [Ledger.tMsgs, Ledger.all_post hnone, flatMap_append, flatMap_singleton,
      Cargo.tMsgs, append_nil, flatMap_tMsgs_sendNMsg]
    exact h.tMsgs
  case whole =>
    rw [Ledger.all_post hnone, forall_mem_append, forall_mem_singleton]
    exact ⟨h.whole, hparts.flatten, hhead⟩
  case count => exact (h.count.trans hcount).trans hcount'.symm
  case buffer =>
    intro f hf
    rw [Ledger.post, hnone] at hf
    cases hf
  case numbers =>
    intro r
    rw [Ledger.numbers, Ledger.all_post hnone, flatMap_append, flatMap_singleton, Cargo.numbers]
    split_ifs with hr
    · subst hr
      rw [hparts.counter hchunks]
      exact (h.numbers _).fragmentRun cfg.resolution _ true chunks
    · rw [append_nil, hparts.sentOn.counter r (Ne.symm hr)]
      exact ((sentOn_begun q.reliability tx).counter r (Ne.symm hr)).symm ▸ h.numbers r

/-- What sending a message may do to a ledger -/
inductive Ledger.Takes (cfg : TxConfig) (codec : NetworkCodec Msg) (q : Request Sock Msg)
    (sn : UInt64) (L : Ledger Sock Msg) : Ledger Sock Msg → Prop
  | hold : Takes cfg codec q sn L (L.hold q sn)
  | ship : Takes cfg codec q sn L ((L.hold q sn).ship q.dest)
  | post (hnone : L.held = none)
    (hlarge : cfg.capacity < frameStart cfg sn + (codec.encode q.msg).length)
    (chunks : List (List UInt8)) :
    Takes cfg codec q sn L (L.post q.dest (.fragments q.reliability sn q chunks))

/-- A message while nothing is held back -/
theorem SendAccounts.newFrame (h : SendAccounts cfg codec tx calls L) (hcount : tx.batchCount = 0)
    (hopens : Opens cfg codec q.msg (tx.counter q.reliability)) {n : ℕ}
    {result : Except ZError Unit}
    (hsend : sendNMsgInner cfg codec n q.msg q.reliability q.dest.peers tx = some (tx', result)) :
    ∃ L', SendAccounts cfg codec tx' (calls ++ [.sendNMsg q]) L' ∧
      L.Takes cfg codec q (tx.counter q.reliability) L' := by
  obtain ⟨hstart, hlarge⟩ := hopens
  have hdata : tx.batchHasData = false := by
    rw [TxCommon.batchHasData, hcount, decide_eq_false (Nat.lt_irrefl 0), Bool.and_false]
  rw [sendNMsgInner, hdata, if_neg Bool.false_ne_true, initBuffer_begun _ _ hstart] at hsend
  dsimp only at hsend
  by_cases hfits : frameStart cfg (tx.counter q.reliability) + (codec.encode q.msg).length ≤
      cfg.capacity
  · have hheld := h.begin hcount hfits
    have hshipped := hheld.flush (Nat.succ_pos _) q.dest
    rw [wbufWrite_fits (by rwa [length_begun])] at hsend
    dsimp only at hsend
    split_ifs at hsend with hexpress
    · obtain ⟨rfl, -⟩ := Prod.mk.inj (some.inj hsend)
      exact ⟨_, hshipped, .ship⟩
    · obtain ⟨rfl, -⟩ := Prod.mk.inj (some.inj hsend)
      unfold flushOrIncrBatch
      split_ifs
      · exact ⟨_, hheld, .hold⟩
      · exact ⟨_, hshipped, .ship⟩
  · have hlong := Nat.lt_of_not_le hfits
    obtain ⟨part, hfull⟩ := @wbufWrite_full cfg.capacity (codec.writes q.msg)
      (begun cfg q.reliability tx).wbuf (by rwa [length_begun]) (by rwa [length_begun])
    obtain ⟨hfragmentation, hroom⟩ := hlarge hlong
    rw [hfull] at hsend
    dsimp only at hsend
    rw [if_neg Bool.false_ne_true, sendFragment, if_pos hfragmentation] at hsend
    have hawaits := @awaits_message _ cfg q.reliability (tx.counter q.reliability)
      { begun cfg q.reliability tx with wbuf := (begun cfg q.reliability tx).wbuf ++ part }
      (codec.encode q.msg) (counter_begun q.reliability tx)
    obtain ⟨-, chunks, hparts, hhead⟩ := hawaits.sent hroom hsend
    exact ⟨_, h.fragments hcount hparts (hhead (codec.encode_ne_nil q.msg)),
      .post (h.held_none hcount) hlong chunks⟩

theorem counter_flushBuffer (peers : List Sock) (tx : TxCommon Sock) (r : Reliability) :
    (flushBuffer cfg peers tx).counter r = tx.counter r := by
  cases r <;> rfl

/-- A message that does not fit behind the others begins a frame when these are sent. -/
theorem batchOverflow_eq (n : ℕ) (part : List UInt8) (hactive : tx.batchActive = true) :
    batchOverflow cfg codec n q.msg q.reliability q.dest.peers tx.wbuf.length
        { tx with wbuf := tx.wbuf ++ part } =
      sendNMsgInner cfg codec n q.msg q.reliability q.dest.peers
        (flushBuffer cfg q.dest.peers tx) := by
  have hdata : (flushBuffer cfg q.dest.peers tx).batchHasData = false := Bool.and_false _
  have hactive' : (initBuffer cfg q.reliability
      (flushBuffer cfg q.dest.peers tx)).2.1.batchActive = true := by
    generalize q.reliability = r
    cases r <;> exact hactive
  have hremoved : flushBuffer cfg q.dest.peers
      { tx with wbuf := (tx.wbuf ++ part).take tx.wbuf.length } =
        flushBuffer cfg q.dest.peers tx := by
    rw [take_left]
  rw [batchOverflow, hremoved, sendNMsgInner, hdata, if_neg Bool.false_ne_true]
  generalize initBuffer cfg q.reliability (flushBuffer cfg q.dest.peers tx) = begun at hactive'
  obtain ⟨sn, tx', result⟩ := begun
  cases result with
  | error e => rfl
  | ok =>
    dsimp only at hactive' ⊢
    generalize wbufWrite cfg.capacity (codec.writes q.msg) tx'.wbuf = written
    obtain ⟨wbuf, written⟩ := written
    cases written with
    | error e => rfl
    | ok =>
      dsimp only
      rw [flushOrIncrBatch, if_pos hactive']

/-- What a call does to a ledger -/
inductive Ledger.Follows (cfg : TxConfig) (codec : NetworkCodec Msg) (tx : TxCommon Sock)
    (L : Ledger Sock Msg) : TxCall Sock Msg → Ledger Sock Msg → Prop
  | startBatching : Follows cfg codec tx L .startBatching L
  | stopBatching : Follows cfg codec tx L .stopBatching L
  | sendNBatch (dest : Destination Sock) : Follows cfg codec tx L (.sendNBatch dest) (L.ship dest)
  | newFrame {q : Request Sock Msg} {L' : Ledger Sock Msg} (hbegins : Begins cfg codec q.msg tx)
    (htakes : (L.ship q.dest).Takes cfg codec q (tx.counter q.reliability) L') :
    Follows cfg codec tx L (.sendNMsg q) L'
  | behind {q : Request Sock Msg} {L' : Ledger Sock Msg} (hbehind : ¬ Begins cfg codec q.msg tx)
    (htakes : L.Takes cfg codec q (tx.counter q.reliability) L') :
    Follows cfg codec tx L (.sendNMsg q) L'
  | tMsg (tMsg : Writes) (dest : Destination Sock) :
    Follows cfg codec tx L (.sendTMsg tMsg dest) ((L.ship dest).post dest (.tMsg tMsg))
  | refused (tMsg : Writes) (dest : Destination Sock) :
    Follows cfg codec tx L (.sendTMsg tMsg dest) (L.ship dest)

theorem SendAccounts.sendNMsg (h : SendAccounts cfg codec tx calls L)
    (horderly : Orderly cfg codec tx (.sendNMsg q)) {n : ℕ} {result : Except ZError Unit}
    (hsend : sendNMsgInner cfg codec n q.msg q.reliability q.dest.peers tx = some (tx', result)) :
    ∃ L', SendAccounts cfg codec tx' (calls ++ [.sendNMsg q]) L' ∧
      L.Follows cfg codec tx (.sendNMsg q) L' := by
  obtain ⟨hstopped, hopens⟩ := horderly
  cases hdata : tx.batchHasData with
  | false =>
    have hbegins : Begins cfg codec q.msg tx := fun htrue ↦
      absurd (hdata.symm.trans htrue) Bool.false_ne_true
    have hcount := hstopped.count hdata
    obtain ⟨L', haccounts, htakes⟩ := h.newFrame hcount (hopens hbegins) hsend
    exact ⟨L', haccounts, .newFrame hbegins
      ((L.ship_of_none (h.held_none hcount) q.dest).symm ▸ htakes)⟩
  | true =>
    have hcount := batchHasData_count hdata
    have hactive : tx.batchActive = true := by
      rw [TxCommon.batchHasData, Bool.and_eq_true] at hdata
      exact hdata.1
    by_cases hfits : tx.wbuf.length + (codec.encode q.msg).length ≤ cfg.capacity
    · have hbehind : ¬ Begins cfg codec q.msg tx := fun hbegins ↦
        absurd (hbegins hdata) (Nat.not_lt_of_le hfits)
      have hheld := h.append hcount hfits (tx.counter q.reliability)
      have hshipped := hheld.flush (Nat.succ_pos _) q.dest
      rw [sendNMsgInner, hdata, if_pos rfl] at hsend
      dsimp only at hsend
      rw [wbufWrite_fits hfits] at hsend
      dsimp only at hsend
      split_ifs at hsend with hexpress
      · obtain ⟨rfl, -⟩ := Prod.mk.inj (some.inj hsend)
        exact ⟨_, hshipped, .behind hbehind .ship⟩
      · obtain ⟨rfl, -⟩ := Prod.mk.inj (some.inj hsend)
        rw [flushOrIncrBatch, if_pos hactive]
        exact ⟨_, hheld, .behind hbehind .hold⟩
    · have hlong := Nat.lt_of_not_le hfits
      have hbegins : Begins cfg codec q.msg tx := fun _ ↦ hlong
      obtain ⟨f, hf⟩ := h.held_some hcount
      obtain ⟨part, hfull⟩ := wbufWrite_full (h.buffer f hf).2 hlong
      rw [sendNMsgInner, hdata, if_pos rfl] at hsend
      dsimp only at hsend
      rw [hfull] at hsend
      dsimp only at hsend
      rw [if_pos rfl, batchOverflow_eq n part hactive] at hsend
      obtain ⟨L', haccounts, htakes⟩ :=
        (h.flush hcount q.dest).newFrame rfl
          ((counter_flushBuffer q.dest.peers tx q.reliability).symm ▸ hopens hbegins) hsend
      rw [counter_flushBuffer] at htakes
      exact ⟨L', haccounts, .newFrame hbegins htakes⟩

theorem SendAccounts.sendTMsg (h : SendAccounts cfg codec tx calls L) (hstopped : NoneStopped tx)
    (tMsg : Writes) (dest : Destination Sock) :
    ∃ L', SendAccounts cfg codec (sendTMsgInner cfg tMsg dest.peers tx).1
        (calls ++ [.sendTMsg tMsg dest]) L' ∧ L.Follows cfg codec tx (.sendTMsg tMsg dest) L' := by
  obtain ⟨tx₁, htx₁, hcount, haccounts⟩ : ∃ tx₁,
      (if tx.batchHasData then flushBuffer cfg dest.peers tx else tx) = tx₁ ∧ tx₁.batchCount = 0 ∧
        SendAccounts cfg codec tx₁ calls (L.ship dest) := by
    cases hdata : tx.batchHasData with
    | false =>
      have hcount := hstopped.count hdata
      exact ⟨tx, rfl, hcount, (L.ship_of_none (h.held_none hcount) dest).symm ▸ h⟩
    | true => exact ⟨_, rfl, rfl, h.flush (batchHasData_count hdata) dest⟩
  rw [sendTMsgInner, htx₁]
  cases hwritten : wbufWrite cfg.capacity tMsg (prepareWbuf cfg) with
  | mk wbuf result =>
    cases result with
    | error e => exact ⟨_, (haccounts.wbuf hcount wbuf).quiet rfl, .refused tMsg dest⟩
    | ok =>
      rw [wbufWrite_ok hwritten]
      exact ⟨_, haccounts.tMsg hcount tMsg dest, .tMsg tMsg dest⟩

/-- What an orderly call does to the ledger of a transport -/
theorem SendAccounts.step {call : TxCall Sock Msg} (h : SendAccounts cfg codec tx calls L)
    (horderly : Orderly cfg codec tx call) (hstep : TxStep cfg codec tx call tx') :
    ∃ L', SendAccounts cfg codec tx' (calls ++ [call]) L' ∧ L.Follows cfg codec tx call L' := by
  cases hstep with
  | startBatching =>
    refine ⟨L, SendAccounts.quiet ?_ rfl, .startBatching⟩
    unfold startBatching
    split_ifs with hactive
    · exact h
    · have hcount := horderly (Bool.eq_false_iff.mpr hactive)
      exact ⟨h.sent, h.requests, h.tMsgs, h.whole, h.count.trans hcount, h.buffer, h.numbers⟩
  | stopBatching =>
    refine ⟨L, SendAccounts.quiet ?_ rfl, .stopBatching⟩
    exact ⟨h.sent, h.requests, h.tMsgs, h.whole, h.count, h.buffer, h.numbers⟩
  | sendNBatch dest =>
    refine ⟨L.ship dest, SendAccounts.quiet ?_ rfl, .sendNBatch dest⟩
    unfold txSendNBatch
    split_ifs with hcount
    · exact h.flush hcount dest
    · exact (L.ship_of_none (h.held_none (Nat.eq_zero_of_not_pos hcount)) dest).symm ▸ h
  | sendNMsg hsettles =>
    obtain ⟨n, hn⟩ := hsettles
    exact h.sendNMsg horderly (hn n le_rfl)
  | sendTMsg tMsg dest => exact h.sendTMsg horderly tMsg dest

/-- A property of ledgers that every allowed call keeps is one of each run of such calls. -/
theorem Sending.exists_ledger {Allowed : TxCommon Sock → List (TxCall Sock Msg) →
      TxCall Sock Msg → Prop} {Good : Ledger Sock Msg → Prop} (hinit : Good ⟨[], none⟩)
    (horderly : ∀ {tx calls call}, Allowed tx calls call → Orderly cfg codec tx call)
    (hgood : ∀ {tx calls call L L'}, SendAccounts cfg codec tx calls L → Good L →
      Allowed tx calls call → L.Follows cfg codec tx call L' → Good L')
    (h : Sending cfg codec Allowed tx calls) : ∃ L, SendAccounts cfg codec tx calls L ∧ Good L := by
  induction h with
  | init => exact ⟨_, .init, hinit⟩
  | call _ hallowed hstep ih =>
    obtain ⟨L, haccounts, hL⟩ := ih
    obtain ⟨L', haccounts', hfollows⟩ := haccounts.step (horderly hallowed) hstep
    exact ⟨L', haccounts', hgood haccounts hL hallowed hfollows⟩

/-- The message that was to be sent last is in the frame that is held back. -/
theorem SendAccounts.last (h : SendAccounts cfg codec tx calls L) {f : OutFrame Sock Msg}
    (hf : f ∈ L.held) : ∃ last ∈ f.requests, last ∈ (asked calls).getLast? := by
  have hne := h.held_nonempty hf
  refine ⟨f.requests.getLast hne, getLast_mem hne, ?_⟩
  rw [← h.requests, L.requests_eq, Ledger.waiting, mem_def.mp hf, toList_some,
    flatMap_singleton, List.getLast?_append_of_ne_nil _ hne]
  exact List.getLast?_eq_getLast_of_ne_nil hne

end SendAccounts

end ZenohPico.Transport
