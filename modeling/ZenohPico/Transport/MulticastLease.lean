import ZenohPico.Protocol.TransportMessage

/-!
The lease of the peers of a multicast transport (`src/transport/multicast/lease.c`,
`src/transport/multicast/rx.c`).

One task serves all peers: at each tick it drops the peers that were not heard since the last one,
and it sleeps for the shortest lease there is. A peer is dropped after one silent period, which is
its own lease only where no lease is shorter (`leaseTask_dropsExpired_iff`).

Where a JOIN of a known peer announces other sizes, the peer is dropped without the new head of the
list being kept. If its entry was the first one, the transport goes on with a list that begins in
freed memory, and there is no result (`dropPeerInPlace`).
-/

namespace ZenohPico.Transport

open Protocol List Option

/-! ### The peers -/

/-- The fields of `_z_transport_peer_multicast_t` that the lease is about -/
structure MulticastPeer where
  remoteAddr : List UInt8
  remoteZid : ZenohId
  lease : UInt64
  received : Bool
deriving DecidableEq

/-- The peers of a `_z_transport_multicast_t`, and the lease of the node itself -/
structure MulticastTransport where
  peers : List MulticastPeer
  lease : UInt64

/-- `_z_find_peer_entry`: the last entry of the address -/
def findPeerEntry (peers : List MulticastPeer) (addr : List UInt8) : Option MulticastPeer :=
  (peers.filter fun peer ↦ peer.remoteAddr == addr).getLast?

/-- A write through the entry of an address -/
def updatePeer (addr : List UInt8) (write : MulticastPeer → MulticastPeer)
    (peers : List MulticastPeer) : List MulticastPeer :=
  peers.map fun peer ↦ if peer.remoteAddr = addr then write peer else peer

/-- `_z_transport_peer_multicast_slist_drop_first_filter` with `_z_transport_peer_multicast_eq`,
which compares the ids of the nodes -/
def dropPeer (entry : MulticastPeer) (peers : List MulticastPeer) : List MulticastPeer :=
  peers.eraseP fun peer ↦ peer.remoteZid == entry.remoteZid

/-- The same where the head of the list is not assigned. There is no result where it was dropped. -/
def dropPeerInPlace (entry : MulticastPeer) : List MulticastPeer → Option (List MulticastPeer)
  | [] => some []
  | head :: rest =>
    if head.remoteZid == entry.remoteZid then none else some (head :: dropPeer entry rest)

variable {entry peer : MulticastPeer} {peers : List MulticastPeer}

theorem dropPeerInPlace_eq_some {after : List MulticastPeer}
    (h : dropPeerInPlace entry peers = some after) : after = dropPeer entry peers := by
  cases peers with
  | nil => exact (some.inj h).symm
  | cons head rest =>
    rw [dropPeerInPlace] at h
    split at h
    · cases h
    · next hid =>
      have hkeeps : dropPeer entry (head :: rest) = head :: dropPeer entry rest :=
        eraseP_cons_of_neg hid
      rw [hkeeps]
      exact (some.inj h).symm

/-- The peer is noted as heard. -/
def MulticastPeer.note (peer : MulticastPeer) : MulticastPeer := { peer with received := true }

/-! ### Receiving -/

section Builds

variable (cfg : BuildConfig) (batchMulticastSize : UInt16)

/-- The sizes that a JOIN announces are the ones of the build. -/
def TMsgJoin.Fits (msg : TMsgJoin) : Prop :=
  msg.seqNumRes = cfg.snResolution ∧ msg.reqIdRes = cfg.reqResolution ∧
    msg.batchSize = batchMulticastSize

instance (msg : TMsgJoin) : Decidable (TMsgJoin.Fits cfg batchMulticastSize msg) :=
  inferInstanceAs (Decidable (_ ∧ _ ∧ _))

/-- `_z_multicast_handle_join_inner` -/
def handleJoin (addr : List UInt8) (msg : TMsgJoin) (ztm : MulticastTransport) :
    Option MulticastTransport :=
  if msg.version ≠ cfg.protoVersion then some ztm
  else
    match findPeerEntry ztm.peers addr with
    | none =>
      if TMsgJoin.Fits cfg batchMulticastSize msg then
        some { ztm with peers := ⟨addr, msg.zid, msg.lease, true⟩ :: ztm.peers }
      else some ztm
    | some entry =>
      if TMsgJoin.Fits cfg batchMulticastSize msg then
        some { ztm with
          peers := updatePeer addr (fun peer ↦ { peer with lease := msg.lease })
            (updatePeer addr MulticastPeer.note ztm.peers) }
      else
        (dropPeerInPlace entry (updatePeer addr MulticastPeer.note ztm.peers)).map
          fun peers ↦ { ztm with peers }

/-- `_z_multicast_handle_transport_message` -/
def handleTransportMessage (addr : List UInt8) (msg : TransportMessage)
    (ztm : MulticastTransport) : Option MulticastTransport :=
  match msg.body with
  | .frame _ | .fragment _ | .keepAlive =>
    some { ztm with peers := updatePeer addr MulticastPeer.note ztm.peers }
  | .init _ | .opening _ => some ztm
  | .join join => handleJoin cfg batchMulticastSize addr join ztm
  | .close _ =>
    match findPeerEntry ztm.peers addr with
    | none => some ztm
    | some entry => some { ztm with peers := dropPeer entry ztm.peers }

end Builds

/-! ### The lease task -/

/-- `_zp_multicast_peer_is_expired` -/
def peerIsExpired (peer : MulticastPeer) : Bool := !peer.received

/-- `_z_get_minimum_lease` -/
def getMinimumLease (peers : List MulticastPeer) (localLease : UInt64) : UInt64 :=
  peers.foldl (fun least peer ↦ if peer.lease < least then peer.lease else least) localLease

/-- What `_zp_multicast_lease_task_fn` leaves, drops, and sleeps for -/
structure LeaseTick where
  transport : MulticastTransport
  dropped : List MulticastPeer
  wakeUpAfter : UInt64

/-- `_zp_multicast_lease_task_fn` of an open transport -/
def leaseTask (ztm : MulticastTransport) : LeaseTick :=
  let stay := ztm.peers.filter fun peer ↦ !peerIsExpired peer
  let silenced := stay.map fun peer ↦ { peer with received := false }
  { transport := { ztm with peers := silenced }
    dropped := ztm.peers.filter peerIsExpired
    wakeUpAfter := getMinimumLease silenced ztm.lease }

variable {ztm : MulticastTransport}

theorem mem_leaseTask_peers : peer ∈ (leaseTask ztm).transport.peers ↔
      ∃ heard ∈ ztm.peers, heard.received = true ∧ { heard with received := false } = peer := by
  simp [leaseTask, peerIsExpired, and_assoc]

theorem mem_leaseTask_dropped :
    peer ∈ (leaseTask ztm).dropped ↔ peer ∈ ztm.peers ∧ peer.received = false := by
  simp [leaseTask, peerIsExpired]

/-! ### Runs -/

/-- What happens to a transport -/
inductive LeaseEvent where
  | receive (addr : List UInt8) (msg : TransportMessage)
  | tick

/-- A transport with what an observer of the link has counted: how long each address was quiet, in
whole periods, and whether it was heard since the last tick. The period is the time between the
last tick and the next one. -/
structure LeaseWatch where
  transport : MulticastTransport
  period : ℕ
  quiet : List UInt8 → ℕ
  heard : List UInt8 → Bool

/-- The transport that was just opened; its task is started at once. -/
def LeaseWatch.opened (cfg : BuildConfig) : LeaseWatch where
  transport := ⟨[], cfg.transportLease⟩
  period := 0
  quiet _ := 0
  heard _ := false

/-- How long an address was quiet when the period is over -/
def LeaseWatch.quietAtTick (watch : LeaseWatch) (addr : List UInt8) : ℕ :=
  if watch.heard addr then 0 else watch.quiet addr + watch.period

/-- One event. Whatever arrives from an address counts for it. -/
def LeaseWatch.step (cfg : BuildConfig) (batchMulticastSize : UInt16) (watch : LeaseWatch) :
    LeaseEvent → Option LeaseWatch
  | .receive addr msg =>
    (handleTransportMessage cfg batchMulticastSize addr msg watch.transport).map fun transport ↦
      { watch with
        transport
        quiet := Function.update watch.quiet addr 0
        heard := Function.update watch.heard addr true }
  | .tick =>
    some {
      transport := (leaseTask watch.transport).transport
      period := (leaseTask watch.transport).wakeUpAfter.toNat
      quiet := watch.quietAtTick
      heard := fun _ ↦ false }

/-- The peers that a tick drops were quiet for their own lease. -/
def LeaseWatch.DropsExpired (watch : LeaseWatch) : Prop :=
  ∀ peer ∈ (leaseTask watch.transport).dropped, peer.lease.toNat ≤ watch.quietAtTick peer.remoteAddr

/-- A message that a multicast transport is expected to handle: not an INIT or an OPEN, nor a JOIN
of another version of the protocol, and a CLOSE from a peer whose id no other peer has -/
def Expected (cfg : BuildConfig) (ztm : MulticastTransport) (addr : List UInt8)
    (msg : TransportMessage) : Prop :=
  match msg.body with
  | .init _ | .opening _ => False
  | .join join => join.version = cfg.protoVersion
  | .close _ => ∀ entry, findPeerEntry ztm.peers addr = some entry →
      ∀ peer ∈ ztm.peers, peer.remoteZid = entry.remoteZid → peer.remoteAddr = addr
  | .frame _ | .fragment _ | .keepAlive => True

/-- The states that a transport comes to, up to a JOIN that leaves it without its peers -/
inductive LeaseWatch.Reached (cfg : BuildConfig) (batchMulticastSize : UInt16) :
    LeaseWatch → Prop where
  | opened : Reached cfg batchMulticastSize (.opened cfg)
  | receive {watch watch' : LeaseWatch} (addr : List UInt8) {msg : TransportMessage}
      (h : Reached cfg batchMulticastSize watch)
      (hmsg : Expected cfg watch.transport addr msg)
      (hstep : watch.step cfg batchMulticastSize (.receive addr msg) = some watch') :
      Reached cfg batchMulticastSize watch'
  | tick {watch watch' : LeaseWatch} (h : Reached cfg batchMulticastSize watch)
      (hstep : watch.step cfg batchMulticastSize .tick = some watch') :
      Reached cfg batchMulticastSize watch'

/-! ### What is known of a peer -/

/-- The mark of a peer says whether its address was heard since the last tick, and an address that
was not heard since then was heard in the period before. -/
structure MulticastPeer.Tracked (watch : LeaseWatch) (peer : MulticastPeer) : Prop where
  heard : peer.received = true → watch.heard peer.remoteAddr = true
  silent : peer.received = false →
    watch.heard peer.remoteAddr = false ∧ watch.quiet peer.remoteAddr = 0

section Steps

variable {cfg : BuildConfig} {batchMulticastSize : UInt16} {watch : LeaseWatch}

variable {addr : List UInt8}

theorem mem_updatePeer {write : MulticastPeer → MulticastPeer}
    (h : peer ∈ updatePeer addr write peers) :
    ∃ before ∈ peers, (before.remoteAddr = addr ∧ peer = write before) ∨
      (before.remoteAddr ≠ addr ∧ peer = before) := by
  obtain ⟨before, hmem, heq⟩ := List.mem_map.mp h
  refine ⟨before, hmem, ?_⟩
  split at heq
  · next haddr => exact .inl ⟨haddr, heq.symm⟩
  · next haddr => exact .inr ⟨haddr, heq.symm⟩

/-- A peer whose address was noted, or one of another address -/
def NotedOrOther (addr : List UInt8) (peers : List MulticastPeer) (peer : MulticastPeer) : Prop :=
  (peer.remoteAddr = addr ∧ peer.received = true) ∨ (peer.remoteAddr ≠ addr ∧ peer ∈ peers)

theorem notedOrOther_of_note (h : peer ∈ updatePeer addr MulticastPeer.note peers) :
    NotedOrOther addr peers peer := by
  obtain ⟨before, hmem, ⟨haddr, rfl⟩ | ⟨haddr, rfl⟩⟩ := mem_updatePeer h
  · exact .inl ⟨haddr, rfl⟩
  · exact .inr ⟨haddr, hmem⟩

theorem notedOrOther_of_find_eq_none (hnone : findPeerEntry peers addr = none) (h : peer ∈ peers) :
    NotedOrOther addr peers peer := by
  rw [findPeerEntry, List.getLast?_eq_none_iff, filter_eq_nil_iff] at hnone
  exact .inr ⟨fun haddr ↦ hnone peer h (beq_iff_eq.mpr haddr), h⟩

variable {after : MulticastTransport}

theorem handleJoin_notedOrOther {addr : List UInt8} {msg : TMsgJoin} {ztm after : MulticastTransport}
    (hversion : msg.version = cfg.protoVersion)
    (hafter : handleJoin cfg batchMulticastSize addr msg ztm = some after) {peer : MulticastPeer}
    (h : peer ∈ after.peers) : NotedOrOther addr ztm.peers peer := by
  rw [handleJoin, if_neg (not_not.mpr hversion)] at hafter
  split at hafter
  · next hnone =>
    split at hafter
    · obtain rfl := some.inj hafter
      rcases mem_cons.mp h with rfl | hmem
      · exact .inl ⟨rfl, rfl⟩
      · exact notedOrOther_of_find_eq_none hnone hmem
    · obtain rfl := some.inj hafter
      exact notedOrOther_of_find_eq_none hnone h
  · split at hafter
    · obtain rfl := some.inj hafter
      obtain ⟨noted, hmem, ⟨haddr, rfl⟩ | ⟨haddr, rfl⟩⟩ := mem_updatePeer h
      · rcases notedOrOther_of_note hmem with ⟨-, hreceived⟩ | ⟨hother, -⟩
        · exact .inl ⟨haddr, hreceived⟩
        · exact absurd haddr hother
      · exact notedOrOther_of_note hmem
    · obtain ⟨peers, hpeers, rfl⟩ := map_eq_some_iff.mp hafter
      obtain rfl := dropPeerInPlace_eq_some hpeers
      exact notedOrOther_of_note (mem_of_mem_eraseP h)

theorem findPeerEntry_some (h : findPeerEntry peers addr = some entry) :
    entry ∈ peers ∧ entry.remoteAddr = addr := by
  have hmem := mem_of_getLast? h
  rw [mem_filter, beq_iff_eq] at hmem
  exact hmem

/-- What is left after a CLOSE is of another address, where addresses are distinct. -/
theorem remoteAddr_ne_of_mem_dropPeer (hnodup : (peers.map MulticastPeer.remoteAddr).Nodup)
    (hentry : entry ∈ peers)
    (hid : ∀ peer ∈ peers, peer.remoteZid = entry.remoteZid → peer.remoteAddr = addr)
    (h : peer ∈ dropPeer entry peers) : peer.remoteAddr ≠ addr := by
  obtain ⟨gone, before, after, -, hgone, hsplit, hleft⟩ :=
    exists_of_eraseP (p := fun peer ↦ peer.remoteZid == entry.remoteZid) hentry
      (beq_iff_eq.mpr rfl)
  have haddr : gone.remoteAddr = addr := by
    refine hid gone ?_ (beq_iff_eq.mp hgone)
    rw [hsplit]
    exact mem_append_right _ mem_cons_self
  rw [hsplit, map_append, map_cons, perm_middle.nodup_iff, nodup_cons, ← map_append] at hnodup
  rw [dropPeer, hleft] at h
  intro hsame
  exact hnodup.1 (haddr.trans hsame.symm ▸ mem_map_of_mem h)

theorem handleTransportMessage_notedOrOther {msg : TransportMessage}
    (hmsg : Expected cfg ztm addr msg) (hnodup : (ztm.peers.map MulticastPeer.remoteAddr).Nodup)
    (hafter : handleTransportMessage cfg batchMulticastSize addr msg ztm = some after)
    (h : peer ∈ after.peers) : NotedOrOther addr ztm.peers peer := by
  rw [handleTransportMessage] at hafter
  rw [Expected] at hmsg
  have hnoted : ∀ {peers : List MulticastPeer}, some { ztm with peers } = some after →
      peer ∈ peers := by
    intro peers heq
    obtain rfl := some.inj heq
    exact h
  split at hafter
  · exact notedOrOther_of_note (hnoted hafter)
  · exact notedOrOther_of_note (hnoted hafter)
  · exact notedOrOther_of_note (hnoted hafter)
  · next hbody => exact absurd hmsg (by rw [hbody]; exact not_false)
  · next hbody => exact absurd hmsg (by rw [hbody]; exact not_false)
  · next hbody =>
    rw [hbody] at hmsg
    exact handleJoin_notedOrOther hmsg hafter h
  · next hbody =>
    rw [hbody] at hmsg
    split at hafter
    · next hnone => exact notedOrOther_of_find_eq_none hnone (some.inj hafter ▸ h)
    · next entry hentry =>
      obtain rfl := some.inj hafter
      exact .inr ⟨remoteAddr_ne_of_mem_dropPeer hnodup (findPeerEntry_some hentry).1
        (hmsg entry hentry) h, mem_of_mem_eraseP h⟩

/-! ### Addresses stay distinct -/

theorem nodup_updatePeer (addr : List UInt8) (write : MulticastPeer → MulticastPeer)
    (hwrite : ∀ peer, (write peer).remoteAddr = peer.remoteAddr)
    (h : (peers.map MulticastPeer.remoteAddr).Nodup) :
    ((updatePeer addr write peers).map MulticastPeer.remoteAddr).Nodup := by
  have hmap : (updatePeer addr write peers).map MulticastPeer.remoteAddr =
      peers.map MulticastPeer.remoteAddr := by
    rw [updatePeer, List.map_map]
    refine map_congr_left fun peer _ ↦ ?_
    rw [Function.comp_apply]
    split
    · exact hwrite peer
    · rfl
  exact hmap ▸ h

theorem nodup_dropPeer (entry : MulticastPeer) (h : (peers.map MulticastPeer.remoteAddr).Nodup) :
    ((dropPeer entry peers).map MulticastPeer.remoteAddr).Nodup :=
  h.sublist (eraseP_sublist.map _)

theorem nodup_handleJoin {msg : TMsgJoin} (h : (ztm.peers.map MulticastPeer.remoteAddr).Nodup)
    (hafter : handleJoin cfg batchMulticastSize addr msg ztm = some after) :
    (after.peers.map MulticastPeer.remoteAddr).Nodup := by
  have hnoted : ((updatePeer addr MulticastPeer.note ztm.peers).map
      MulticastPeer.remoteAddr).Nodup :=
    nodup_updatePeer addr MulticastPeer.note (fun _ ↦ rfl) h
  rw [handleJoin] at hafter
  split at hafter
  · exact some.inj hafter ▸ h
  split at hafter
  · next hnone =>
    split at hafter
    · obtain rfl := some.inj hafter
      refine nodup_cons.mpr ⟨?_, h⟩
      intro hmem
      obtain ⟨peer, hpeer, haddr⟩ := List.mem_map.mp hmem
      rcases notedOrOther_of_find_eq_none hnone hpeer with ⟨-, _⟩ | ⟨hother, -⟩
      · rw [findPeerEntry, List.getLast?_eq_none_iff, filter_eq_nil_iff] at hnone
        exact hnone peer hpeer (beq_iff_eq.mpr haddr)
      · exact hother haddr
    · exact some.inj hafter ▸ h
  · split at hafter
    · obtain rfl := some.inj hafter
      exact nodup_updatePeer addr (fun peer ↦ { peer with lease := msg.lease })
        (fun _ ↦ rfl) hnoted
    · obtain ⟨peers, hpeers, rfl⟩ := map_eq_some_iff.mp hafter
      obtain rfl := dropPeerInPlace_eq_some hpeers
      exact nodup_dropPeer _ hnoted

theorem nodup_handleTransportMessage {msg : TransportMessage}
    (h : (ztm.peers.map MulticastPeer.remoteAddr).Nodup)
    (hafter : handleTransportMessage cfg batchMulticastSize addr msg ztm = some after) :
    (after.peers.map MulticastPeer.remoteAddr).Nodup := by
  have hnoted : ((updatePeer addr MulticastPeer.note ztm.peers).map
      MulticastPeer.remoteAddr).Nodup :=
    nodup_updatePeer addr MulticastPeer.note (fun _ ↦ rfl) h
  rw [handleTransportMessage] at hafter
  split at hafter
  · exact some.inj hafter ▸ hnoted
  · exact some.inj hafter ▸ hnoted
  · exact some.inj hafter ▸ hnoted
  · exact some.inj hafter ▸ h
  · exact some.inj hafter ▸ h
  · exact nodup_handleJoin h hafter
  · split at hafter
    · exact some.inj hafter ▸ h
    · exact some.inj hafter ▸ nodup_dropPeer _ h

/-! ### Runs -/

/-- What holds in every state -/
structure LeaseWatch.Inv (watch : LeaseWatch) : Prop where
  nodup : (watch.transport.peers.map MulticastPeer.remoteAddr).Nodup
  tracked : ∀ peer ∈ watch.transport.peers, peer.Tracked watch

theorem LeaseWatch.Inv.receive {watch' : LeaseWatch} (h : watch.Inv) {addr : List UInt8}
    {msg : TransportMessage} (hmsg : Expected cfg watch.transport addr msg)
    (hstep : watch.step cfg batchMulticastSize (.receive addr msg) = some watch') : watch'.Inv := by
  obtain ⟨transport, hafter, rfl⟩ := map_eq_some_iff.mp hstep
  refine ⟨nodup_handleTransportMessage h.nodup hafter, fun peer hpeer ↦ ?_⟩
  · rcases handleTransportMessage_notedOrOther hmsg h.nodup hafter hpeer with
      ⟨haddr, hreceived⟩ | ⟨haddr, hmem⟩
    · refine ⟨fun _ ↦ ?_, fun hsilent ↦ absurd (hreceived.symm.trans hsilent) (by decide)⟩
      rw [haddr]
      exact Function.update_self ..
    · have hbefore := h.tracked peer hmem
      refine ⟨fun hreceived ↦ ?_, fun hsilent ↦ ⟨?_, ?_⟩⟩
      · exact (Function.update_of_ne haddr ..).trans (hbefore.heard hreceived)
      · exact (Function.update_of_ne haddr ..).trans (hbefore.silent hsilent).1
      · exact (Function.update_of_ne haddr ..).trans (hbefore.silent hsilent).2

theorem LeaseWatch.Inv.tick {watch' : LeaseWatch} (h : watch.Inv)
    (hstep : watch.step cfg batchMulticastSize .tick = some watch') : watch'.Inv := by
  obtain rfl := some.inj hstep
  refine ⟨?_, fun peer hpeer ↦ ?_⟩
  · have hmap : (leaseTask watch.transport).transport.peers.map MulticastPeer.remoteAddr =
        (watch.transport.peers.filter fun peer ↦ !peerIsExpired peer).map
          MulticastPeer.remoteAddr := map_map ..
    exact hmap ▸ h.nodup.sublist (filter_sublist.map _)
  · obtain ⟨heard, hmem, hreceived, rfl⟩ := mem_leaseTask_peers.mp hpeer
    refine ⟨fun hfalse ↦ absurd hfalse Bool.false_ne_true, fun _ ↦ ⟨rfl, ?_⟩⟩
    exact if_pos ((h.tracked heard hmem).heard hreceived)

theorem LeaseWatch.Reached.inv (h : watch.Reached cfg batchMulticastSize) : watch.Inv := by
  induction h with
  | opened => exact ⟨nodup_nil, fun peer hpeer ↦ absurd hpeer not_mem_nil⟩
  | receive addr _ hmsg hstep ih => exact ih.receive hmsg hstep
  | tick _ hstep ih => exact ih.tick hstep

/-- A tick drops expired peers only where no peer that was silent since the last tick has a lease
that is longer than the time since then. -/
theorem leaseTask_dropsExpired_iff (h : watch.Reached cfg batchMulticastSize) :
    watch.DropsExpired ↔ ∀ peer ∈ watch.transport.peers, peer.received = false →
      peer.lease.toNat ≤ watch.period := by
  have hquiet : ∀ peer ∈ watch.transport.peers, peer.received = false →
      watch.quietAtTick peer.remoteAddr = watch.period := by
    intro peer hpeer hsilent
    obtain ⟨hheard, hzero⟩ := (h.inv.tracked peer hpeer).silent hsilent
    rw [LeaseWatch.quietAtTick, hheard, hzero, Nat.zero_add]
    rfl
  constructor
  · intro hdrops peer hpeer hsilent
    rw [← hquiet peer hpeer hsilent]
    exact hdrops peer (mem_leaseTask_dropped.mpr ⟨hpeer, hsilent⟩)
  · intro hleases peer hdropped
    obtain ⟨hpeer, hsilent⟩ := mem_leaseTask_dropped.mp hdropped
    rw [hquiet peer hpeer hsilent]
    exact hleases peer hpeer hsilent

end Steps

theorem default_resolution_le : (2 : UInt8) ≤ 0x03 := by decide

/-- A build with the default lease -/
def leaseConfig : BuildConfig :=
  ⟨9, 2, default_resolution_le, 2, default_resolution_le, 2048, 10000, true⟩

/-- The JOIN of a node of the same build that has an id and a lease of its own -/
def leaseJoin (id : UInt8) (lease : UInt64) : TransportMessage where
  header := 0x07
  body := .join { zid := .ofBytes [id], lease, nextSn := .ofPlain ⟨0, 0⟩, batchSize := 8192,
                  whatami := .peer, reqIdRes := 2, seqNumRes := 2, version := 9, patch := 1 }

/-- Two nodes of different leases join, the third event is a tick, and then only the node of the
short lease speaks: the other one is dropped after the period of the short lease. -/
theorem reached_shortLease : ∃ watch : LeaseWatch, watch.Reached leaseConfig 8192 ∧
    MulticastPeer.mk [1] (.ofBytes [1]) 10000 false ∈ (leaseTask watch.transport).dropped ∧
      watch.quietAtTick [1] = 1000 := by
  have h₁ := (.opened : LeaseWatch.Reached leaseConfig 8192 _).receive [1]
    (show Expected leaseConfig _ _ (leaseJoin 1 10000) from rfl) rfl
  have h₂ := h₁.receive [2] (show Expected leaseConfig _ _ (leaseJoin 2 1000) from rfl) rfl
  have h₃ := (h₂.tick rfl).receive [2]
    (show Expected leaseConfig _ _ ⟨0x04, .keepAlive⟩ from trivial) rfl
  exact ⟨_, h₃, by decide +kernel, by decide +kernel⟩

theorem leaseTask_dropsExpired_iff_shortLease : ∃ watch : LeaseWatch, watch.quietAtTick [1] = 1000 ∧
      (watch.DropsExpired ↔ ∀ peer ∈ watch.transport.peers,
        peer.received = false → peer.lease.toNat ≤ watch.period) := by
  obtain ⟨watch, hreached, -, hquiet⟩ := reached_shortLease
  exact ⟨watch, hquiet, leaseTask_dropsExpired_iff hreached⟩

/-- A peer of a long lease is dropped after the shortest one. -/
theorem dropped_before_lease :
    ¬ ∀ (cfg : BuildConfig) (batchMulticastSize : UInt16) (watch : LeaseWatch),
      watch.Reached cfg batchMulticastSize → watch.DropsExpired := by
  intro h
  obtain ⟨watch, hreached, hdropped, hquiet⟩ := reached_shortLease
  have hlong : 10000 ≤ watch.quietAtTick [1] := h leaseConfig 8192 watch hreached _ hdropped
  rw [hquiet] at hlong
  exact absurd hlong (by decide)

end ZenohPico.Transport
