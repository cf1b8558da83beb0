import ZenohPico.Transport.SendLedger

/-!
The channels and the destinations of network messages (`src/transport/common/tx.c`).

A message that is put behind others in a batch goes on the channel of the first one, and the batch
goes wherever the call that writes it sends. So a message keeps its reliability if it is put behind
messages of its own reliability only (`Sending.keepsReliability`), and each peer gets what is for it
if a call finds messages for its own destination only (`Sending.reachesPeers`).
-/

namespace ZenohPico.Transport

open Foundations Protocol List Option

variable {Sock Msg : Type} {cfg : TxConfig} {codec : NetworkCodec Msg}
  {tx tx' : TxCommon Sock} {calls : List (TxCall Sock Msg)} {call : TxCall Sock Msg}
  {L L' : Ledger Sock Msg} {q : Request Sock Msg}

/-! ### What a ledger leaves open -/

variable {cargo : Cargo Sock Msg}

theorem Cargo.batches_ne_nil (h : cargo.Whole cfg codec) : cargo.batches cfg codec ≠ [] := by
  cases cargo with
  | frame f => exact cons_ne_nil _ _
  | fragments r sn q chunks =>
    cases chunks with
    | nil => exact absurd h.1.symm (codec.encode_ne_nil q.msg)
    | cons chunk chunks =>
      rw [Cargo.batches, fragmentRun, map_cons]
      exact cons_ne_nil _ _
  | tMsg writes => exact cons_ne_nil _ _

theorem Parcel.writes_ne_nil {p : Parcel Sock Msg} (h : p.cargo.Whole cfg codec) :
    p.writes cfg codec ≠ [] := by
  have hne : p.cargo.batches cfg codec ≠ [] := Cargo.batches_ne_nil h
  obtain ⟨batch, rest, hbatches⟩ := exists_cons_of_ne_nil hne
  obtain ⟨peer, peers, hpeers⟩ := exists_cons_of_ne_nil p.dest.nonempty
  rw [Parcel.writes, hbatches, toPeers_cons, hpeers]
  exact cons_ne_nil _ _

theorem length_le_flatMap {α β : Type} {f : α → List β} {l : List α} (h : ∀ a ∈ l, f a ≠ []) :
    l.length ≤ (l.flatMap f).length := by
  induction l with
  | nil => exact Nat.le_refl 0
  | cons a l ih =>
    have hpos := length_pos_iff.mpr (h a mem_cons_self)
    have hrest := ih fun a ha ↦ h a (mem_cons_of_mem _ ha)
    rw [flatMap_cons, length_append, length_cons]
    omega

theorem SendAccounts.whole_log (h : SendAccounts cfg codec tx calls L) :
    ∀ p ∈ L.log, p.cargo.Whole cfg codec := fun _ hp ↦
  h.whole _ (mem_append_left _ (mem_map_of_mem hp))

/-- There is a write for each parcel at least. -/
theorem SendAccounts.length_log_le_sent (h : SendAccounts cfg codec tx calls L) :
    L.log.length ≤ tx.sent.length := by
  rw [h.sent]
  exact length_le_flatMap fun p hp ↦ Parcel.writes_ne_nil (h.whole_log p hp)

/-- Without transport messages, there is a network message for each parcel at least. -/
theorem SendAccounts.length_log_le_asked (h : SendAccounts cfg codec tx calls L)
    (hnone : calls.flatMap TxCall.tMsgs = []) : L.log.length ≤ (asked calls).length := by
  have htMsgs : ∀ p ∈ L.log, p.cargo.tMsgs = [] := by
    have hnil := eq_nil_of_sublist_nil (hnone ▸ h.tMsgs)
    rw [Ledger.tMsgs_eq, flatMap_eq_nil_iff] at hnil
    exact hnil
  rw [← h.requests, L.requests_eq, length_append]
  refine le_trans (length_le_flatMap ?_) (Nat.le_add_right _ _)
  intro p hp
  have hwhole := h.whole_log p hp
  have htMsg := htMsgs p hp
  revert hwhole htMsg
  cases p.cargo with
  | frame f => exact fun hwhole _ ↦ hwhole
  | fragments r sn q chunks => exact fun _ _ ↦ cons_ne_nil _ _
  | tMsg writes => exact fun _ htMsg ↦ absurd htMsg (cons_ne_nil _ _)

/-! ### Reliability -/

/-- The messages go on the channel that they are for. -/
def Cargo.KeepsReliability : Cargo Sock Msg → Prop
  | .frame f => ∀ q ∈ f.requests, q.reliability = f.reliability
  | .fragments r _ q _ => q.reliability = r
  | .tMsg _ => True

/-- A transport has put each message on the channel that it is for, in a frame or in fragments, and
the numbers of each channel have no gap. -/
def KeepsReliability (cfg : TxConfig) (codec : NetworkCodec Msg) (tx : TxCommon Sock)
    (calls : List (TxCall Sock Msg)) : Prop :=
  ∃ L, SendAccounts cfg codec tx calls L ∧ ∀ cargo ∈ L.all, cargo.KeepsReliability

/-- An orderly call, where a message that is put behind others is for the channel of the last one -/
def OrderlyReliability (cfg : TxConfig) (codec : NetworkCodec Msg) (tx : TxCommon Sock)
    (calls : List (TxCall Sock Msg)) (call : TxCall Sock Msg) : Prop :=
  Orderly cfg codec tx call ∧ ∀ q ∈ call.requests, ¬ Begins cfg codec q.msg tx →
    ∀ last ∈ (asked calls).getLast?, last.reliability = q.reliability

theorem Ledger.Takes.keeps {sn : UInt64} (h : L.Takes cfg codec q sn L')
    (hkeeps : ∀ cargo ∈ L.all, cargo.KeepsReliability)
    (hjoin : ∀ f ∈ L.held, f.reliability = q.reliability) :
    ∀ cargo ∈ L'.all, cargo.KeepsReliability := by
  have hhold (sn : UInt64) : ∀ cargo ∈ (L.hold q sn).all, cargo.KeepsReliability := by
    cases hheld : L.held with
    | none =>
      rw [Ledger.all_hold_of_none hheld, forall_mem_append, forall_mem_singleton]
      refine ⟨hkeeps, fun q' hq' ↦ ?_⟩
      rw [mem_singleton.mp hq']
    | some f =>
      rw [Ledger.all_of_some hheld, forall_mem_append, forall_mem_singleton] at hkeeps
      rw [Ledger.all_hold_of_some hheld, forall_mem_append, forall_mem_singleton]
      refine ⟨hkeeps.1, fun q' hq' ↦ ?_⟩
      rcases mem_append.mp hq' with hq' | hq'
      · exact hkeeps.2 q' hq'
      · rw [mem_singleton.mp hq']
        exact (hjoin f hheld).symm
  cases h with
  | hold => exact hhold sn
  | ship => exact (L.hold q sn).all_ship q.dest ▸ hhold sn
  | post hnone _ chunks =>
    rw [Ledger.all_post hnone, forall_mem_append, forall_mem_singleton]
    exact ⟨hkeeps, rfl⟩

theorem Ledger.Follows.keeps (haccounts : SendAccounts cfg codec tx calls L)
    (hkeeps : ∀ cargo ∈ L.all, cargo.KeepsReliability)
    (horderly : OrderlyReliability cfg codec tx calls call) (h : L.Follows cfg codec tx call L') :
    ∀ cargo ∈ L'.all, cargo.KeepsReliability := by
  have hship (dest : Destination Sock) : ∀ cargo ∈ (L.ship dest).all, cargo.KeepsReliability :=
    (L.all_ship dest).symm ▸ hkeeps
  cases h with
  | startBatching => exact hkeeps
  | stopBatching => exact hkeeps
  | sendNBatch dest => exact hship dest
  | newFrame _ htakes =>
    exact htakes.keeps (hship _) fun f hf ↦ absurd hf (not_mem_none f)
  | behind hbehind htakes =>
    refine htakes.keeps hkeeps fun f hf ↦ ?_
    obtain ⟨last, hmem, hlast⟩ := haccounts.last hf
    have hframe : ∀ q ∈ f.requests, q.reliability = f.reliability :=
      hkeeps _ (Ledger.held_mem_all hf)
    rw [← hframe last hmem]
    exact horderly.2 _ (mem_singleton_self _) hbehind last hlast
  | tMsg tMsg dest =>
    rw [Ledger.all_post rfl, forall_mem_append, forall_mem_singleton]
    exact ⟨hship dest, trivial⟩
  | refused tMsg dest => exact hship dest

/-- Calls that put no message behind others of another reliability keep the reliability of each
message, and leave no gap in the numbers of a channel. -/
theorem Sending.keepsReliability (h : Sending cfg codec (OrderlyReliability cfg codec) tx calls) :
    KeepsReliability cfg codec tx calls :=
  h.exists_ledger (fun _ hmem ↦ absurd hmem not_mem_nil) And.left
    fun haccounts hkeeps horderly hfollows ↦ hfollows.keeps haccounts hkeeps horderly

/-- The only peer on a link -/
def linkPeer : Destination Unit := ⟨[()], cons_ne_nil _ _, nodup_singleton ()⟩

/-- A put to the only peer on a link -/
def linkPut (r : Reliability) : TxCall Unit (Fin 64) := .sendNMsg ⟨0, r, linkPeer⟩

/-- Batching is started on a transport that was just created. -/
theorem sending_started {Allowed : TxCommon Sock → List (TxCall Sock (Fin 64)) →
      TxCall Sock (Fin 64) → Prop} (h : Allowed (TxCommon.init Sock) [] .startBatching) :
    Sending (datagramTxConfig 64) putCodec Allowed ⟨0, 0, [], true, 0, []⟩ [.startBatching] :=
  .call .init h .startBatching

theorem putCodec_writes_zero :
    putCodec.writes 0 = [[0x7D], [0x00], [0x01], [0x61], [0x01], [0], []] := by
  decide +kernel

theorem frameHeaderWrites_zero : frameHeaderWrites 0 .reliable = [[0x25], [0]] := by
  decide +kernel

theorem linkPut_step {r : Reliability} {tx tx' : TxCommon Unit}
    (h : ∀ n, sendNMsgInner (datagramTxConfig 64) putCodec n 0 r [()] tx = some (tx', .ok ())) :
    TxStep (datagramTxConfig 64) putCodec tx (linkPut r) tx' := .sendNMsg ⟨0, fun n _ ↦ h n⟩

theorem sendNMsgInner_first (peers : List Sock) (n : ℕ) :
    sendNMsgInner (datagramTxConfig 64) putCodec n 0 .reliable peers ⟨0, 0, [], true, 0, []⟩ =
      some (⟨1, 0, [0x25, 0, 0x7D, 0, 1, 0x61, 1, 0], true, 1, []⟩, .ok ()) := by
  simp only [sendNMsgInner, initBuffer, TxCommon.getSn, frameHeaderWrites_zero,
    putCodec_writes_zero]
  rfl

theorem sendNMsgInner_second (peers : List Sock) (n : ℕ) :
    sendNMsgInner (datagramTxConfig 64) putCodec n 0 .bestEffort peers
        ⟨1, 0, [0x25, 0, 0x7D, 0, 1, 0x61, 1, 0], true, 1, []⟩ =
      some (⟨1, 0, [0x25, 0, 0x7D, 0, 1, 0x61, 1, 0, 0x7D, 0, 1, 0x61, 1, 0], true, 2, []⟩,
        .ok ()) := by
  simp only [sendNMsgInner, putCodec_writes_zero]
  rfl

/-- A put on each channel, each in a batch of its own -/
def twoBatches (first second : Destination Sock) : List (TxCall Sock (Fin 64)) :=
  [.startBatching, .sendNMsg ⟨0, .reliable, first⟩, .sendNBatch first,
    .sendNMsg ⟨0, .bestEffort, second⟩, .sendNBatch second]

/-- The transport after the two batches -/
def afterTwoBatches (first second : Destination Sock) : TxCommon Sock :=
  ⟨1, 1, [0x05, 0, 0x7D, 0, 1, 0x61, 1, 0], true, 0,
    first.peers.map (·, [0x25, 0, 0x7D, 0, 1, 0x61, 1, 0]) ++
      second.peers.map (·, [0x05, 0, 0x7D, 0, 1, 0x61, 1, 0])⟩

theorem sendNMsgInner_other (sent : List (Sock × List UInt8)) (peers : List Sock) (n : ℕ) :
    sendNMsgInner (datagramTxConfig 64) putCodec n 0 .bestEffort peers
        ⟨1, 0, [0x25, 0, 0x7D, 0, 1, 0x61, 1, 0], true, 0, sent⟩ =
      some (⟨1, 1, [0x05, 0, 0x7D, 0, 1, 0x61, 1, 0], true, 1, sent⟩, .ok ()) := by
  have hheader : frameHeaderWrites 0 .bestEffort = [[0x05], [0]] := by decide +kernel
  simp only [sendNMsgInner, initBuffer, TxCommon.getSn, hheader, putCodec_writes_zero]
  rfl

/-- The first message of a channel can be sent in a frame of its own. -/
theorem orderly_put {tx : TxCommon Sock} {q : Request Sock (Fin 64)} (hactive : tx.batchActive = true)
    (hmsg : q.msg = 0) (hsn : tx.counter q.reliability = 0) :
    Orderly (datagramTxConfig 64) putCodec tx (.sendNMsg q) := by
  refine ⟨fun hstopped ↦ absurd (hactive.symm.trans hstopped) (by decide), fun _ ↦ ?_⟩
  rw [hmsg, hsn]
  exact ⟨by decide +kernel, fun hfull ↦ absurd hfull (by decide +kernel)⟩

theorem begins_of_batchCount {tx : TxCommon Sock} {q : Request Sock (Fin 64)}
    (hcount : tx.batchCount = 0) : Begins (datagramTxConfig 64) putCodec q.msg tx := by
  intro hdata
  rw [TxCommon.batchHasData, hcount] at hdata
  simp at hdata

theorem sending_twoBatches {Allowed : TxCommon Sock → List (TxCall Sock (Fin 64)) →
      TxCall Sock (Fin 64) → Prop} (first second : Destination Sock)
    (hstart : Allowed (TxCommon.init Sock) [] .startBatching)
    (hput : ∀ tx calls q, tx.batchActive = true → tx.batchCount = 0 → q.msg = 0 →
      tx.counter q.reliability = 0 → Allowed tx calls (.sendNMsg q))
    (hbatch : ∀ tx calls q, Allowed tx (calls ++ [.sendNMsg q]) (.sendNBatch q.dest)) :
    Sending (datagramTxConfig 64) putCodec Allowed (afterTwoBatches first second)
      (twoBatches first second) := by
  have hfirst := Sending.call (sending_started hstart)
    (hput _ _ ⟨0, .reliable, first⟩ rfl rfl rfl rfl)
    (.sendNMsg ⟨0, fun n _ ↦ sendNMsgInner_first first.peers n⟩)
  have hsent := Sending.call hfirst (hbatch _ [.startBatching] ⟨0, .reliable, first⟩)
    (.sendNBatch first)
  have hsecond := Sending.call hsent (hput _ _ ⟨0, .bestEffort, second⟩ rfl rfl rfl rfl)
    (.sendNMsg ⟨0, fun n _ ↦ sendNMsgInner_other _ second.peers n⟩)
  exact Sending.call hsecond (hbatch _ [_, _, _] ⟨0, .bestEffort, second⟩) (.sendNBatch second)

/-- A put on each channel, in a batch that is sent, keeps its reliability. -/
theorem keepsReliability_put : KeepsReliability (datagramTxConfig 64) putCodec
    (afterTwoBatches linkPeer linkPeer) (twoBatches linkPeer linkPeer) :=
  Sending.keepsReliability (sending_twoBatches linkPeer linkPeer
    ⟨fun _ ↦ rfl, fun _ hq ↦ absurd hq not_mem_nil⟩
    (fun _ _ _ hactive hcount hmsg hsn ↦ ⟨orderly_put hactive hmsg hsn, fun _ _ hbehind ↦
      absurd (begins_of_batchCount hcount) hbehind⟩)
    fun _ _ _ ↦ ⟨trivial, fun _ hq ↦ absurd hq not_mem_nil⟩)

/-- A best-effort put behind a reliable one goes out as reliable. -/
theorem not_keepsReliability_mixed : ∃ tx : TxCommon Unit, Sending (datagramTxConfig 64) putCodec
      (fun _ _ _ ↦ True) tx
      [.startBatching, linkPut .reliable, linkPut .bestEffort, .sendNBatch linkPeer] ∧
    ¬ KeepsReliability (datagramTxConfig 64) putCodec tx
      [.startBatching, linkPut .reliable, linkPut .bestEffort, .sendNBatch linkPeer] := by
  have hstart := @sending_started Unit (fun _ _ _ ↦ True) trivial
  have hfirst : Sending (datagramTxConfig 64) putCodec (fun _ _ _ ↦ True)
      ⟨1, 0, [0x25, 0, 0x7D, 0, 1, 0x61, 1, 0], true, 1, []⟩
      [.startBatching, linkPut .reliable] :=
    .call hstart trivial (linkPut_step (sendNMsgInner_first [()]))
  have hsecond : Sending (datagramTxConfig 64) putCodec (fun _ _ _ ↦ True)
      ⟨1, 0, [0x25, 0, 0x7D, 0, 1, 0x61, 1, 0, 0x7D, 0, 1, 0x61, 1, 0], true, 2, []⟩
      [.startBatching, linkPut .reliable, linkPut .bestEffort] :=
    .call hfirst trivial (linkPut_step (sendNMsgInner_second [()]))
  have hall := Sending.call hsecond trivial (.sendNBatch linkPeer)
  refine ⟨_, hall, ?_⟩
  rintro ⟨L, haccounts, hkeeps⟩
  have hnone := haccounts.held_none rfl
  have hlen : L.log.length ≤ 1 := haccounts.length_log_le_sent
  have hrequests := haccounts.requests
  rw [L.requests_eq, Ledger.waiting, hnone, toList_none, flatMap_nil, append_nil] at hrequests
  rcases hlog : L.log with _ | ⟨p, _ | ⟨p', log⟩⟩
  · rw [hlog] at hrequests
    cases hrequests
  · have hcargo := hkeeps p.cargo (by
      rw [Ledger.all_of_none hnone, hlog]
      exact mem_singleton_self _)
    rw [hlog, flatMap_singleton] at hrequests
    revert hcargo hrequests
    cases p.cargo with
    | frame f =>
      intro (hrequests : f.requests = [⟨0, .reliable, linkPeer⟩, ⟨0, .bestEffort, linkPeer⟩]) hcargo
      have hreliable := hcargo ⟨0, .reliable, linkPeer⟩ (hrequests ▸ by simp)
      have hbestEffort := hcargo ⟨0, .bestEffort, linkPeer⟩ (hrequests ▸ by simp)
      cases hreliable.trans hbestEffort.symm
    | fragments r sn q chunks =>
      exact fun hrequests ↦ absurd (congrArg List.length hrequests) (show ¬ 1 = 2 by decide)
    | tMsg writes =>
      exact fun hrequests ↦ absurd (congrArg List.length hrequests) (show ¬ 0 = 2 by decide)
  · rw [hlog] at hlen
    simp at hlen

/-! ### Destinations -/

/-- Two destinations are the same peers. -/
def Destination.Same (dest dest' : Destination Sock) : Prop :=
  ∀ peer, peer ∈ dest.peers ↔ peer ∈ dest'.peers

/-- Where a call sends -/
def TxCall.dest? : TxCall Sock Msg → Option (Destination Sock)
  | .startBatching => none
  | .stopBatching => none
  | .sendNBatch dest => some dest
  | .sendNMsg request => some request.dest
  | .sendTMsg _ dest => some dest

section Peers

variable [DecidableEq Sock]

/-- What was written to the socket of a peer -/
def TxCommon.batchesTo (tx : TxCommon Sock) (peer : Sock) : List (List UInt8) :=
  (tx.sent.filter (·.1 = peer)).map Prod.snd

/-- The parcels of a peer -/
def Ledger.parcelsTo (L : Ledger Sock Msg) (peer : Sock) : List (Parcel Sock Msg) :=
  L.log.filter (peer ∈ ·.dest.peers)

/-- The messages for a peer -/
def forPeer (peer : Sock) (requests : List (Request Sock Msg)) : List (Request Sock Msg) :=
  requests.filter (peer ∈ ·.dest.peers)

/-- Each peer was sent the messages for it in order, and no others, but for those that are held
back. -/
def ReachesPeers (cfg : TxConfig) (codec : NetworkCodec Msg) (tx : TxCommon Sock)
    (calls : List (TxCall Sock Msg)) : Prop :=
  ∃ L, SendAccounts cfg codec tx calls L ∧ ∀ peer,
    tx.batchesTo peer = (L.parcelsTo peer).flatMap (fun p ↦ p.cargo.batches cfg codec) ∧
      (L.parcelsTo peer).flatMap (fun p ↦ p.cargo.requests) ++ forPeer peer L.waiting =
        forPeer peer (asked calls)

theorem filter_toPeers {peers : List Sock} (hnodup : peers.Nodup) (peer : Sock)
    (batches : List (List UInt8)) : ((toPeers peers batches).filter (·.1 = peer)).map Prod.snd =
      if peer ∈ peers then batches else [] := by
  have hone (batch : List UInt8) : ((peers.map (·, batch)).filter (·.1 = peer)).map Prod.snd =
        if peer ∈ peers then [batch] else [] := by
    rw [List.filter_map, List.map_map]
    change (peers.filter (· = peer)).map (fun _ ↦ batch) = _
    rw [filter_eq, map_replicate]
    split_ifs with hmem
    · rw [count_eq_one_of_mem hnodup hmem]
      rfl
    · rw [count_eq_zero_of_not_mem hmem]
      rfl
  induction batches with
  | nil => split_ifs <;> rfl
  | cons batch batches ih =>
    rw [toPeers, flatMap_cons, ← toPeers, filter_append, map_append, hone, ih]
    split_ifs <;> rfl

/-- What was written to a peer is what is in its parcels. -/
theorem SendAccounts.batchesTo (h : SendAccounts cfg codec tx calls L) (peer : Sock) :
    tx.batchesTo peer = (L.parcelsTo peer).flatMap fun p ↦ p.cargo.batches cfg codec := by
  rw [TxCommon.batchesTo, h.sent, Ledger.parcelsTo]
  induction L.log with
  | nil => rfl
  | cons p log ih =>
    rw [flatMap_cons, filter_append, map_append, ih, Parcel.writes,
      filter_toPeers p.dest.nodup, filter_cons]
    simp only [decide_eq_true_eq]
    split_ifs
    · rw [flatMap_cons]
    · rw [nil_append]

/-- Messages in parcels for their own destinations -/
theorem flatMap_requests_parcelsTo {L : Ledger Sock Msg}
    (hlog : ∀ p ∈ L.log, ∀ q ∈ p.cargo.requests, q.dest.Same p.dest) (peer : Sock) :
    (L.parcelsTo peer).flatMap (fun p ↦ p.cargo.requests) =
      forPeer peer (L.log.flatMap fun p ↦ p.cargo.requests) := by
  unfold Ledger.parcelsTo forPeer
  revert hlog
  induction L.log with
  | nil => exact fun _ ↦ rfl
  | cons p log ih =>
    intro hlog
    rw [forall_mem_cons] at hlog
    rw [flatMap_cons, filter_append, ← ih hlog.2, filter_cons]
    simp only [decide_eq_true_eq]
    split_ifs with hmem
    · have hfor : p.cargo.requests.filter (peer ∈ ·.dest.peers) = p.cargo.requests :=
        filter_eq_self.mpr fun q hq ↦ decide_eq_true ((hlog.1 q hq peer).mpr hmem)
      rw [flatMap_cons, hfor]
    · have hother : p.cargo.requests.filter (peer ∈ ·.dest.peers) = [] :=
        filter_eq_nil_iff.mpr fun q hq hfor ↦
          hmem ((hlog.1 q hq peer).mp (of_decide_eq_true hfor))
      rw [hother, nil_append]

end Peers

/-- An orderly call, where messages that are held back are for the destination of the call -/
def OrderlyDestination (cfg : TxConfig) (codec : NetworkCodec Msg) (tx : TxCommon Sock)
    (calls : List (TxCall Sock Msg)) (call : TxCall Sock Msg) : Prop :=
  Orderly cfg codec tx call ∧ ∀ dest ∈ call.dest?, 0 < tx.batchCount →
    ∀ last ∈ (asked calls).getLast?, last.dest.Same dest

/-- What was written went to the destinations of its messages, and what is held back has one
destination. -/
structure Ledger.Addressed (L : Ledger Sock Msg) : Prop where
  log : ∀ p ∈ L.log, ∀ q ∈ p.cargo.requests, q.dest.Same p.dest
  held : ∀ f ∈ L.held, ∀ q ∈ f.requests, ∀ q' ∈ f.requests, q.dest.Same q'.dest

variable {dest : Destination Sock}

theorem Ledger.Addressed.ship (h : L.Addressed)
    (hdest : ∀ f ∈ L.held, ∀ q ∈ f.requests, q.dest.Same dest) : (L.ship dest).Addressed where
  log := by
    rw [Ledger.ship, forall_mem_append]
    refine ⟨h.log, fun p hp ↦ ?_⟩
    obtain ⟨f, hf, rfl⟩ := List.mem_map.mp hp
    exact hdest f (mem_toList.mp hf)
  held f hf := absurd hf (not_mem_none f)

theorem Ledger.Addressed.hold (h : L.Addressed)
    (hdest : ∀ f ∈ L.held, ∀ q' ∈ f.requests, q'.dest.Same q.dest) (sn : UInt64) :
    (L.hold q sn).Addressed ∧ ∀ f ∈ (L.hold q sn).held, ∀ q' ∈ f.requests, q'.dest.Same q.dest := by
  have hsame : ∀ f ∈ (L.hold q sn).held, ∀ q' ∈ f.requests, q'.dest.Same q.dest := by
    intro f hf q' hq'
    obtain rfl := some.inj hf
    rcases mem_append.mp hq' with hq' | hq'
    · cases hheld : L.held with
      | none =>
        rw [hheld] at hq'
        exact absurd hq' not_mem_nil
      | some f =>
        rw [hheld] at hq'
        exact hdest f hheld q' hq'
    · rw [mem_singleton.mp hq']
      exact fun _ ↦ Iff.rfl
  refine ⟨⟨h.log, fun f hf q' hq' q'' hq'' peer ↦ ?_⟩, hsame⟩
  exact (hsame f hf q' hq' peer).trans (hsame f hf q'' hq'' peer).symm

theorem Ledger.Addressed.post (h : L.Addressed) (hnone : L.held = none)
    (hdest : ∀ q ∈ cargo.requests, q.dest.Same dest) : (L.post dest cargo).Addressed where
  log := by
    rw [Ledger.post, forall_mem_append, forall_mem_singleton]
    exact ⟨h.log, hdest⟩
  held f hf := by
    rw [Ledger.post, hnone] at hf
    exact absurd hf (not_mem_none f)

theorem Ledger.Takes.addressed {sn : UInt64} (h : L.Takes cfg codec q sn L') (haddressed : L.Addressed)
    (hdest : ∀ f ∈ L.held, ∀ q' ∈ f.requests, q'.dest.Same q.dest) : L'.Addressed := by
  cases h with
  | hold => exact (haddressed.hold hdest sn).1
  | ship =>
    obtain ⟨hhold, hheld⟩ := haddressed.hold hdest sn
    exact hhold.ship hheld
  | post hnone _ chunks =>
    refine haddressed.post hnone fun q' hq' ↦ ?_
    rw [mem_singleton.mp hq']
    exact fun _ ↦ Iff.rfl

theorem Ledger.Follows.addressed (haccounts : SendAccounts cfg codec tx calls L)
    (haddressed : L.Addressed) (horderly : OrderlyDestination cfg codec tx calls call)
    (h : L.Follows cfg codec tx call L') : L'.Addressed := by
  have hheld {dest : Destination Sock} (hdest : dest ∈ call.dest?) :
      ∀ f ∈ L.held, ∀ q ∈ f.requests, q.dest.Same dest := by
    intro f hf q hq
    have hcount : 0 < tx.batchCount := by
      refine Nat.pos_of_ne_zero fun hzero ↦ ?_
      rw [haccounts.held_none hzero] at hf
      exact absurd hf (not_mem_none f)
    obtain ⟨last, hmem, hlast⟩ := haccounts.last hf
    intro peer
    exact (haddressed.held f hf q hq last hmem peer).trans
      (horderly.2 dest hdest hcount last hlast peer)
  cases h with
  | startBatching => exact haddressed
  | stopBatching => exact haddressed
  | sendNBatch dest => exact haddressed.ship (hheld rfl)
  | newFrame _ htakes =>
    exact htakes.addressed (haddressed.ship (hheld rfl)) fun f hf ↦
      absurd hf (not_mem_none f)
  | behind hbehind htakes => exact htakes.addressed haddressed (hheld rfl)
  | tMsg tMsg dest =>
    exact (haddressed.ship (hheld rfl)).post rfl fun q hq ↦ absurd hq not_mem_nil
  | refused tMsg dest => exact haddressed.ship (hheld rfl)

/-- Calls that find messages for their own destination only send each peer what is for it. -/
theorem Sending.reachesPeers [DecidableEq Sock]
    (h : Sending cfg codec (OrderlyDestination cfg codec) tx calls) :
    ReachesPeers cfg codec tx calls := by
  obtain ⟨L, haccounts, haddressed⟩ : ∃ L, SendAccounts cfg codec tx calls L ∧ L.Addressed :=
    h.exists_ledger ⟨fun p hp ↦ absurd hp not_mem_nil,
        fun f hf ↦ absurd hf (not_mem_none f)⟩ And.left
      fun haccounts haddressed horderly hfollows ↦
        hfollows.addressed haccounts haddressed horderly
  refine ⟨L, haccounts, fun peer ↦ ⟨haccounts.batchesTo peer, ?_⟩⟩
  rw [flatMap_requests_parcelsTo haddressed.log, ← haccounts.requests, L.requests_eq]
  exact (filter_append _ _).symm

/-- The first of two peers -/
def firstPeer : Destination (Fin 2) := ⟨[0], cons_ne_nil _ _, nodup_singleton 0⟩

theorem nodup_bothPeers : [(0 : Fin 2), 1].Nodup := by decide

/-- Both of two peers -/
def bothPeers : Destination (Fin 2) := ⟨[0, 1], cons_ne_nil _ _, nodup_bothPeers⟩

/-- A reliable put to one of two peers -/
def peerPut (dest : Destination (Fin 2)) : TxCall (Fin 2) (Fin 64) := .sendNMsg ⟨0, .reliable, dest⟩

/-- A put in a batch to the first peer, and one in a batch to both -/
theorem reachesPeers_put : ReachesPeers (datagramTxConfig 64) putCodec
    (afterTwoBatches firstPeer bothPeers) (twoBatches firstPeer bothPeers) := by
  refine Sending.reachesPeers (sending_twoBatches firstPeer bothPeers
    ⟨fun _ ↦ rfl, fun _ hdest ↦ absurd hdest (not_mem_none _)⟩
    (fun _ _ _ hactive hcount hmsg hsn ↦ ⟨orderly_put hactive hmsg hsn, fun _ _ hpos ↦
      absurd hpos (Nat.not_lt_of_le hcount.le)⟩)
    fun _ calls q ↦ ⟨trivial, fun dest hdest _ last hlast ↦ ?_⟩)
  obtain rfl := some.inj hdest
  rw [asked, flatMap_append, flatMap_singleton, TxCall.requests, getLast?_concat] at hlast
  obtain rfl := some.inj hlast
  exact fun _ ↦ Iff.rfl

/-- A put to the first peer goes to both when the batch is sent to both. -/
theorem not_reachesPeers_batch : ∃ tx : TxCommon (Fin 2), Sending (datagramTxConfig 64) putCodec
      (fun _ _ _ ↦ True) tx [.startBatching, peerPut firstPeer, .sendNBatch bothPeers] ∧
    ¬ ReachesPeers (datagramTxConfig 64) putCodec tx
      [.startBatching, peerPut firstPeer, .sendNBatch bothPeers] := by
  have hput : Sending (datagramTxConfig 64) putCodec (fun _ _ _ ↦ True)
      ⟨1, 0, [0x25, 0, 0x7D, 0, 1, 0x61, 1, 0], true, 1, []⟩
      [.startBatching, peerPut firstPeer] :=
    .call (@sending_started (Fin 2) (fun _ _ _ ↦ True) trivial) trivial
      (.sendNMsg ⟨0, fun n _ ↦ sendNMsgInner_first [0] n⟩)
  have hall := Sending.call hput trivial (.sendNBatch bothPeers)
  refine ⟨_, hall, ?_⟩
  rintro ⟨L, haccounts, hpeers⟩
  obtain ⟨hbatches, hfor⟩ := hpeers 1
  have hlen : L.log.length ≤ 1 := haccounts.length_log_le_asked rfl
  have hrequests := haccounts.requests
  rw [L.requests_eq, Ledger.waiting, haccounts.held_none rfl, toList_none,
    flatMap_nil, append_nil] at hrequests
  -- something was written to the second peer, so that it has a parcel
  obtain ⟨p, hp⟩ : ∃ p, p ∈ L.parcelsTo 1 := by
    refine exists_mem_of_ne_nil _ fun hnil ↦ ?_
    rw [hnil] at hbatches
    exact absurd hbatches (cons_ne_nil _ _)
  have hnone : p.cargo.requests = [] :=
    flatMap_eq_nil_iff.mp (append_eq_nil_iff.mp hfor).1 p hp
  have hlog : L.log = [p] := by
    have hmem := mem_of_mem_filter hp
    obtain ⟨p', hp'⟩ := length_eq_one_iff.mp
      (le_antisymm hlen (length_pos_of_mem hmem))
    rw [hp', mem_singleton] at hmem
    rw [hp', hmem]
  rw [hlog, flatMap_singleton, hnone] at hrequests
  cases hrequests

end ZenohPico.Transport
