import Mathlib.Data.List.Basic
import Mathlib.Logic.Function.Basic

/-!
The lease and the keep-alives of unicast links (`src/transport/unicast/lease.c`).

The lease task of a node drops the peers that it has not heard since its last run, and sleeps for
the lease. The keep-alive task at the other end of a link sends a message where none was sent since
its last run, and sleeps for a part of the lease. A task runs after the time it has asked for; how
late it is depends on its executor, and the link takes its time as well. A session has one
keep-alive task and one `_transmitted` for all of its links: they are in some state when the link to
the node is made, and run on. The `live` peers are those whose task is late by at most `late` while
they are peers of the node, and whose messages all go to the node and arrive within `delay`. What a
peer sends to other peers only is sent and lost.

A keep-alive task that has sent nothing in one period may have let pass two of them: what it found
sent was sent just after its last run. This is why two periods have to fit into a lease
(`leaseTask_keeps_live`).
-/

open List

namespace ZenohPico.Transport.UnicastLease

variable {ι : Type}

/-- What the lease task reads of a `_z_transport_peer_unicast_t` -/
structure Peer (ι : Type) where
  id : ι
  received : Bool
deriving DecidableEq

/-- The session at the other end of a link: `_transmitted`, whether its keep-alive task runs and until
when it sleeps, and the times at which the messages to the node were sent that have not arrived -/
structure Sender where
  transmitted : Bool
  running : Bool
  keepAliveAt : ℕ
  inFlight : List ℕ

/-- The node's `_lease` and that of the other ends, `Z_TRANSPORT_LEASE_EXPIRE_FACTOR`, and the
bounds that the live peers meet -/
structure Config (ι : Type) where
  lease : ℕ
  remoteLease : ι → ℕ
  expireFactor : ℕ
  late : ℕ
  delay : ℕ
  live : ι → Prop

/-- The time for which a keep-alive task sleeps -/
def Config.period (cfg : Config ι) (i : ι) : ℕ := cfg.remoteLease i / cfg.expireFactor

/-- `_zp_unicast_peer_is_expired` -/
def peerIsExpired (peer : Peer ι) : Bool := !peer.received

/-- `_zp_unicast_lease_task_fn` of a peer: the peers that stay, and those that are dropped -/
def leaseTask (peers : List (Peer ι)) : List (Peer ι) × List (Peer ι) :=
  ((peers.filter fun peer ↦ !peerIsExpired peer).map fun peer ↦ { peer with received := false },
    peers.filter peerIsExpired)

/-- `_zp_unicast_lease_task_fn` of a client, which looks at its first peer. Without a result, the
session is closed. -/
def clientLeaseTask : List (Peer ι) → Option (List (Peer ι))
  | [] => none
  | peer :: peers => if peer.received then some ({ peer with received := false } :: peers) else none

/-- A message is sent: `_z_transport_tx_flush_buffer`. -/
def Sender.transmit (now : ℕ) (sender : Sender) : Sender :=
  { sender with transmitted := true, inFlight := now :: sender.inFlight }

/-- `_zp_unicast_keep_alive_task_fn` -/
def keepAliveTask (period now : ℕ) (sender : Sender) : Sender :=
  { (if sender.transmitted then sender else sender.transmit now) with
    transmitted := false, keepAliveAt := now + period }

/-- The node, and the other ends of its links -/
structure State (ι : Type) where
  now : ℕ
  peers : List (Peer ι)
  leaseAt : ℕ
  sender : ι → Sender

/-- A message of a peer arrives. -/
def hear [DecidableEq ι] (i : ι) (peers : List (Peer ι)) : List (Peer ι) :=
  peers.map fun peer ↦ if peer.id = i then { peer with received := true } else peer

/-- One step of the time, of a task or of a message -/
inductive Step [DecidableEq ι] (cfg : Config ι) (s : State ι) : State ι → Prop
  /-- Time passes, but for what a live peer has to do. -/
  | elapse {now : ℕ} (hnow : s.now ≤ now) (hlive : ∀ peer ∈ s.peers, cfg.live peer.id →
      now ≤ (s.sender peer.id).keepAliveAt + cfg.late ∧
        ∀ sent ∈ (s.sender peer.id).inFlight, now ≤ sent + cfg.delay) : Step cfg s { s with now }
  /-- A session starts its keep-alive task, with or without links. -/
  | startTask {i : ι} (hrunning : (s.sender i).running = false) (transmitted : Bool) :
    Step cfg s { s with
      sender := Function.update s.sender i
        { s.sender i with transmitted, running := true, keepAliveAt := s.now } }
  /-- A session ends, but that of a live peer. -/
  | endTask {i : ι} (hlive : ∀ peer ∈ s.peers, peer.id = i → ¬ cfg.live i) :
    Step cfg s { s with
      sender := Function.update s.sender i { s.sender i with running := false } }
  | keepAlive {i : ι} (hrunning : (s.sender i).running = true)
    (hdue : (s.sender i).keepAliveAt < s.now) : Step cfg s { s with
      sender := Function.update s.sender i (keepAliveTask (cfg.period i) s.now (s.sender i)) }
  | send (i : ι) :
    Step cfg s { s with sender := Function.update s.sender i ((s.sender i).transmit s.now) }
  | arrive {i : ι} {sent : ℕ} (hsent : sent ∈ (s.sender i).inFlight) :
    Step cfg s { s with
      peers := hear i s.peers
      sender := Function.update s.sender i
        { s.sender i with inFlight := (s.sender i).inFlight.erase sent } }
  | lose {i : ι} {sent : ℕ} (hlive : ¬ cfg.live i) :
    Step cfg s { s with
      sender := Function.update s.sender i
        { s.sender i with inFlight := (s.sender i).inFlight.erase sent } }
  /-- A peer is added. Nothing is on its way over the new link, and the session at its other end is
  as it was. The task of a live peer runs by then and is not too late. -/
  | accept {i : ι} (hnew : ∀ peer ∈ s.peers, peer.id ≠ i)
    (hlive : cfg.live i → (s.sender i).running = true ∧
      s.now ≤ (s.sender i).keepAliveAt + cfg.late) : Step cfg s { s with
      peers := ⟨i, true⟩ :: s.peers
      sender := Function.update s.sender i { s.sender i with inFlight := [] } }
  /-- A peer is removed for another reason than its lease. -/
  | leave (i : ι) : Step cfg s { s with peers := s.peers.filter fun peer ↦ peer.id ≠ i }
  | leasePeer (hdue : s.leaseAt < s.now) :
    Step cfg s { s with peers := (leaseTask s.peers).1, leaseAt := s.now + cfg.lease }
  | leaseClient {peers : List (Peer ι)} (hdue : s.leaseAt < s.now)
    (hkept : clientLeaseTask s.peers = some peers) :
    Step cfg s { s with peers, leaseAt := s.now + cfg.lease }

/-- The states of the runs of a node that begins without peers, before any other session -/
inductive Reached [DecidableEq ι] (cfg : Config ι) : State ι → Prop
  | start (now : ℕ) : Reached cfg ⟨now, [], now, fun _ ↦ ⟨false, false, now, []⟩⟩
  | step {s s' : State ι} (h : Reached cfg s) (hstep : Step cfg s s') : Reached cfg s'

/-! ### Live peers -/

/-- What holds of a live peer. Where it was not heard since the last run of the lease task, a
message is on its way that is not too late, or the keep-alive task is to run soon enough: for the
first time since then, or for the second time and with nothing sent. -/
structure Punctual (cfg : Config ι) (now leaseAt : ℕ) (peer : Peer ι) (sender : Sender) : Prop where
  running : sender.running = true
  due : sender.keepAliveAt ≤ now + cfg.period peer.id
  onTime : now ≤ sender.keepAliveAt + cfg.late
  arriving : ∀ sent ∈ sender.inFlight, now ≤ sent + cfg.delay
  heard : peer.received = true ∨ (∃ sent ∈ sender.inFlight,
      sent + cfg.lease ≤ leaseAt + 2 * (cfg.period peer.id + cfg.late)) ∨
    sender.keepAliveAt + cfg.lease ≤ leaseAt + cfg.period peer.id ∨ (sender.transmitted = false ∧
      sender.keepAliveAt + cfg.lease ≤ leaseAt + 2 * cfg.period peer.id + cfg.late)

variable {cfg : Config ι} {now leaseAt : ℕ} {peer : Peer ι} {sender : Sender}

/-- The message that is sent now is early enough, if none before is. -/
theorem Punctual.transmit (h : Punctual cfg now leaseAt peer sender) :
    Punctual cfg now leaseAt peer (sender.transmit now) where
  running := h.running
  due := h.due
  onTime := h.onTime
  arriving := forall_mem_cons.mpr ⟨Nat.le_add_right _ _, h.arriving⟩
  heard := by
    have honTime := h.onTime
    obtain hreceived | ⟨sent, hsent, hle⟩ | hle | ⟨-, hle⟩ := h.heard
    · exact .inl hreceived
    · exact .inr (.inl ⟨sent, mem_cons_of_mem _ hsent, hle⟩)
    · exact .inr (.inl ⟨now, mem_cons_self, by omega⟩)
    · exact .inr (.inl ⟨now, mem_cons_self, by omega⟩)

theorem Punctual.keepAlive (h : Punctual cfg now leaseAt peer sender) :
    Punctual cfg now leaseAt peer (keepAliveTask (cfg.period peer.id) now sender) := by
  rw [keepAliveTask]
  cases htransmitted : sender.transmitted with
  | true =>
    refine ⟨h.running, Nat.le_refl _, by dsimp only; omega, h.arriving, ?_⟩
    have honTime := h.onTime
    obtain hreceived | hsent | hle | ⟨hnot, -⟩ := h.heard
    · exact .inl hreceived
    · exact .inr (.inl hsent)
    · exact .inr (.inr (.inr ⟨rfl, by dsimp only [if_true]; omega⟩))
    · exact absurd (hnot.symm.trans htransmitted) Bool.false_ne_true
  | false =>
    have hsent := h.transmit
    refine ⟨h.running, Nat.le_refl _, by dsimp only; omega, hsent.arriving, ?_⟩
    have honTime := h.onTime
    obtain hreceived | hsent | hle | ⟨-, hle⟩ := h.heard
    · exact .inl hreceived
    · exact .inr (.inl (hsent.imp fun _ hmem ↦ ⟨mem_cons_of_mem _ hmem.1, hmem.2⟩))
    · exact .inr (.inl ⟨now, mem_cons_self, by omega⟩)
    · exact .inr (.inl ⟨now, mem_cons_self, by omega⟩)

/-- After a run of the lease task there is time for two more runs of the keep-alive task. -/
theorem Punctual.renew (h : Punctual cfg now leaseAt peer sender) (received : Bool) :
    Punctual cfg now (now + cfg.lease) ⟨peer.id, received⟩ sender where
  running := h.running
  due := h.due
  onTime := h.onTime
  arriving := h.arriving
  heard := by
    have hdue := h.due
    exact .inr (.inr (.inl (by dsimp only; omega)))

theorem Punctual.hear (h : Punctual cfg now leaseAt peer sender) (sent : ℕ) :
    Punctual cfg now leaseAt ⟨peer.id, true⟩
      { sender with inFlight := sender.inFlight.erase sent } where
  running := h.running
  due := h.due
  onTime := h.onTime
  arriving x hx := h.arriving x (mem_of_mem_erase hx)
  heard := .inl rfl

/-- A live peer is heard before the lease task runs again. -/
theorem Punctual.received (h : Punctual cfg now leaseAt peer sender)
    (hfits : 2 * (cfg.period peer.id + cfg.late) + cfg.delay ≤ cfg.lease)
    (hdue : leaseAt < now) : peer.received = true := by
  have honTime := h.onTime
  obtain hreceived | ⟨sent, hsent, hle⟩ | hle | ⟨-, hle⟩ := h.heard
  · exact hreceived
  · have harrives := h.arriving sent hsent
    omega
  · omega
  · omega

/-- No task sleeps for longer than a period, and every live peer is punctual. -/
structure Inv (cfg : Config ι) (s : State ι) : Prop where
  due : ∀ i, (s.sender i).keepAliveAt ≤ s.now + cfg.period i
  punctual : ∀ peer ∈ s.peers, cfg.live peer.id →
    Punctual cfg s.now s.leaseAt peer (s.sender peer.id)

variable {s : State ι} {peers : List (Peer ι)}

/-- Fewer peers -/
theorem Inv.sublist (h : Inv cfg s) (hpeers : ∀ peer ∈ peers, peer ∈ s.peers) :
    Inv cfg { s with peers } where
  due := h.due
  punctual peer hpeer hlive := h.punctual peer (hpeers peer hpeer) hlive

/-- A run of the lease task -/
theorem Inv.renew {s : State ι} (h : Inv cfg s) {peers : List (Peer ι)}
    (hpeers : ∀ peer ∈ peers, ∃ before ∈ s.peers, before.id = peer.id) :
    Inv cfg { s with peers, leaseAt := s.now + cfg.lease } where
  due := h.due
  punctual peer hpeer hlive := by
    obtain ⟨before, hbefore, hid⟩ := hpeers peer hpeer
    have hrenewed := (h.punctual before hbefore (hid ▸ hlive)).renew peer.received
    rwa [hid] at hrenewed

variable [DecidableEq ι]

theorem Inv.due_update (h : Inv cfg s) {i : ι} {after : Sender}
    (hdue : after.keepAliveAt ≤ s.now + cfg.period i) (u : ι) :
    (Function.update s.sender i after u).keepAliveAt ≤ s.now + cfg.period u := by
  by_cases hu : u = i
  · subst hu
    rw [Function.update_self]
    exact hdue
  · rw [Function.update_of_ne hu]
    exact h.due u

/-- A step of one sender that keeps its peer punctual -/
theorem Inv.update (h : Inv cfg s) {i : ι} {after : Sender}
    (hdue : after.keepAliveAt ≤ s.now + cfg.period i)
    (hkept : ∀ peer ∈ s.peers, peer.id = i → cfg.live i →
      Punctual cfg s.now s.leaseAt peer (s.sender i) → Punctual cfg s.now s.leaseAt peer after) :
    Inv cfg { s with sender := Function.update s.sender i after } where
  due := h.due_update hdue
  punctual peer hpeer hlive := by
    change Punctual cfg s.now s.leaseAt peer (Function.update s.sender i after peer.id)
    by_cases hid : peer.id = i
    · rw [hid, Function.update_self]
      exact hkept peer hpeer hid (hid ▸ hlive) (hid ▸ h.punctual peer hpeer hlive)
    · rw [Function.update_of_ne hid]
      exact h.punctual peer hpeer hlive

theorem Inv.step {s s' : State ι} (h : Inv cfg s) (hstep : Step cfg s s') : Inv cfg s' := by
  cases hstep with
  | elapse hnow hlive =>
    refine ⟨fun i ↦ Nat.le_trans (h.due i) (Nat.add_le_add_right hnow _),
      fun peer hpeer hpeerLive ↦ ?_⟩
    obtain ⟨honTime, harriving⟩ := hlive peer hpeer hpeerLive
    have hbefore := h.punctual peer hpeer hpeerLive
    exact ⟨hbefore.running, Nat.le_trans hbefore.due (Nat.add_le_add_right hnow _), honTime,
      harriving, hbefore.heard⟩
  | @startTask i hrunning transmitted =>
    refine h.update (Nat.le_add_right _ _) fun peer hpeer hid hlive hpunctual ↦ ?_
    exact absurd (hrunning.symm.trans hpunctual.running) Bool.false_ne_true
  | endTask hlive =>
    exact h.update (h.due _) fun peer hpeer hid hpeerLive _ ↦ absurd hpeerLive (hlive peer hpeer hid)
  | @keepAlive i =>
    exact h.update (Nat.le_refl _) fun peer _ hid _ hpeer ↦ hid ▸ (hid ▸ hpeer).keepAlive
  | send i => exact h.update (h.due i) fun peer _ _ _ hpeer ↦ hpeer.transmit
  | lose hlive => exact h.update (h.due _) fun peer _ _ hpeerLive _ ↦ absurd hpeerLive hlive
  | @arrive i sent hsent =>
    refine ⟨h.due_update (h.due i), fun peer hpeer hlive ↦ ?_⟩
    obtain ⟨before, hbefore, rfl⟩ := mem_map.mp hpeer
    by_cases hid : before.id = i
    · subst hid
      rw [if_pos rfl] at hlive ⊢
      change Punctual cfg _ _ _ (Function.update s.sender before.id _ before.id)
      rw [Function.update_self]
      exact (h.punctual before hbefore hlive).hear sent
    · rw [if_neg hid] at hlive ⊢
      change Punctual cfg _ _ _ (Function.update s.sender i _ before.id)
      rw [Function.update_of_ne hid]
      exact h.punctual before hbefore hlive
  | @accept i hnew htask =>
    refine ⟨h.due_update (h.due i), fun peer hpeer hlive ↦ ?_⟩
    change Punctual cfg _ _ _ (Function.update s.sender i _ peer.id)
    obtain rfl | hpeer := mem_cons.mp hpeer
    · rw [Function.update_self]
      obtain ⟨hrunning, honTime⟩ := htask hlive
      exact ⟨hrunning, h.due i, honTime, (fun sent hsent ↦ nomatch hsent), .inl rfl⟩
    · rw [Function.update_of_ne (hnew peer hpeer)]
      exact h.punctual peer hpeer hlive
  | leave i => exact h.sublist fun peer hpeer ↦ mem_of_mem_filter hpeer
  | leasePeer =>
    refine h.renew fun peer hpeer ↦ ?_
    obtain ⟨before, hbefore, rfl⟩ := mem_map.mp hpeer
    exact ⟨before, mem_of_mem_filter hbefore, rfl⟩
  | @leaseClient peers hdue hkept =>
    refine h.renew fun peer hpeer ↦ ?_
    cases hpeers : s.peers with
    | nil => rw [hpeers] at hkept; cases hkept
    | cons first rest =>
      rw [hpeers, clientLeaseTask] at hkept
      split at hkept
      · obtain rfl := Option.some.inj hkept
        obtain rfl | hrest := mem_cons.mp hpeer
        · exact ⟨first, mem_cons_self, rfl⟩
        · exact ⟨peer, mem_cons_of_mem _ hrest, rfl⟩
      · cases hkept

theorem Reached.inv (h : Reached cfg s) : Inv cfg s := by
  induction h with
  | start now => exact ⟨fun _ ↦ Nat.le_add_right _ _, fun peer hpeer ↦ nomatch hpeer⟩
  | step _ hstep ih => exact ih.step hstep

/-- Where two periods of a keep-alive task, each as late as it may be, and the time on the link fit
into a lease, the lease task never drops a live peer, and it never closes the session of a client
whose peer is live. -/
theorem leaseTask_keeps_live {s : State ι} (h : Reached cfg s)
    (hfits : ∀ i, cfg.live i → 2 * (cfg.period i + cfg.late) + cfg.delay ≤ cfg.lease)
    (hdue : s.leaseAt < s.now) : (∀ peer ∈ (leaseTask s.peers).2, ¬ cfg.live peer.id) ∧
      ∀ peer peers, s.peers = peer :: peers → cfg.live peer.id →
        (clientLeaseTask s.peers).isSome = true := by
  have hheard : ∀ peer ∈ s.peers, cfg.live peer.id → peer.received = true := fun peer hpeer hlive ↦
    (h.inv.punctual peer hpeer hlive).received (hfits peer.id hlive) hdue
  refine ⟨fun peer hpeer hlive ↦ ?_, fun peer peers hpeers hlive ↦ ?_⟩
  · obtain ⟨hmem, hexpired⟩ := mem_filter.mp hpeer
    rw [peerIsExpired, hheard peer hmem hlive] at hexpired
    cases hexpired
  · have hreceived := hheard peer (hpeers ▸ mem_cons_self) hlive
    rw [hpeers, clientLeaseTask, if_pos hreceived]
    rfl

/-- Two peers with the same leases, of which one is live: its task is late by up to 100 ms and its
messages take up to 500 ms. -/
def twoPeers : Config Bool := ⟨10000, fun _ ↦ 10000, 3, 100, 500, fun i ↦ i = true⟩

/-- Time passes while the live one of the two peers is on time. -/
theorem elapse_twoPeers {s : State Bool} (now : ℕ) (hnow : s.now ≤ now)
    (honTime : now ≤ (s.sender true).keepAliveAt + 100)
    (harriving : ∀ sent ∈ (s.sender true).inFlight, now ≤ sent + 500) :
    Step twoPeers s { s with now } :=
  .elapse hnow fun peer _ hlive ↦ by
    obtain ⟨id, received⟩ := peer
    obtain rfl : id = true := hlive
    exact ⟨honTime, harriving⟩

/-- Both peers are accepted while their tasks run. One falls silent; the other sends a keep-alive in
each of its periods, and between two of them something else. -/
theorem leaseTask_keeps_live_twoPeers : ∃ s : State Bool, Reached twoPeers s ∧
    s.leaseAt < s.now ∧ leaseTask s.peers = ([⟨true, false⟩], [⟨false, false⟩]) ∧
      ∀ peer ∈ (leaseTask s.peers).2, ¬ twoPeers.live peer.id := by
  have h₀ := ((.start 0 : Reached twoPeers _).step (.startTask (i := true) rfl true)).step
    (.startTask (i := false) rfl false)
  have h₁ := (h₀.step (elapse_twoPeers 1 (by decide) (by decide) (by decide))).step
    (.keepAlive (i := true) rfl (by decide))
  -- The task of the live peer sleeps until 3334 when the node accepts it.
  have h₂ := ((h₁.step (elapse_twoPeers 1000 (by decide) (by decide) (by decide))).step
    (.accept (i := true) (fun _ h ↦ nomatch h) fun _ ↦ ⟨rfl, by decide⟩)).step
      (.accept (i := false) (by decide) fun hlive ↦ nomatch hlive)
  have h₃ := h₂.step (.leasePeer (by decide))
  have h₄ := ((h₃.step (elapse_twoPeers 3400 (by decide) (by decide) (by decide))).step
    (.keepAlive (i := true) rfl (by decide))).step (.arrive (i := true) (.head _))
  have h₅ := ((h₄.step (elapse_twoPeers 5000 (by decide) (by decide) (by decide))).step
    (.send true)).step (.arrive (i := true) (.head _))
  have h₆ := (h₅.step (elapse_twoPeers 6800 (by decide) (by decide) (by decide))).step
    (.keepAlive (i := true) rfl (by decide))
  have h₇ := (h₆.step (elapse_twoPeers 10200 (by decide) (by decide) (by decide))).step
    (.keepAlive (i := true) rfl (by decide))
  have h₈ := (h₇.step (elapse_twoPeers 10600 (by decide) (by decide) (by decide))).step
    (.arrive (i := true) (.head _))
  have h₉ := h₈.step (elapse_twoPeers 11001 (by decide) (by decide) (by decide))
  exact ⟨_, h₉, by decide, rfl,
    (leaseTask_keeps_live h₉ (fun i _ ↦ by cases i <;> decide) (by decide)).1⟩

end ZenohPico.Transport.UnicastLease
