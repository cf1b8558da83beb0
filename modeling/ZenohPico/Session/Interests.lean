import Mathlib.Data.List.Nodup
import Mathlib.Logic.Function.Basic
import ZenohPico.Session.RemoteTokens

/-!
The interests of a session and the answers to them (`src/session/liveliness.c`,
`src/net/liveliness.c`, `src/session/interest.c`, `_z_add_interest` of `src/net/primitives.c`).

Liveliness subscribers, the write filters of publishers and queriers and the resource pull
number their interests with `_z_get_entity_id`; a liveliness query has a counter of its own.
An answer carries the number only. It is looked up among the pending liveliness queries first,
and what no query claims is an event for the liveliness subscribers.

A world is a session with the interests that are outstanding at its peers. Each peer answers an
interest with its tokens and a declare-final of its own, and the first declare-final ends the query
that asked. As long as no interest is given the number of an outstanding one, and no query ends
before all its peers have answered, every answer reaches the one that asked (`runWorld_sound`);
nothing in the code keeps the two counters apart (`collidingRun_not_sound`) or waits for the second
peer (`twoPeers_not_sound`).
-/

open List Option

namespace ZenohPico.Session

/-! ### The session -/

/-- What a session keeps for interests and tokens. A `_z_..._intmap_t` is the map it stands
for, and `_z_session_interest_t` only its number here: the write filters ask for no tokens. -/
structure SessionState (Key : Type) where
  entityId : UInt32
  livelinessQueryId : UInt32
  livelinessPendingQueries : UInt32 → Option Key
  livelinessSubscriptions : List (UInt32 × Key)
  remoteTokens : KeyexprIntmap Key
  localInterests : List UInt32

/-- What a callback of the session is run for. -/
inductive Delivery
  | queryReply (id : UInt32)
  | queryDropped (id : UInt32)
  | subscriberPut (id : UInt32)
  | subscriberDelete (id : UInt32)
  | filterFinal (id : UInt32)
deriving DecidableEq, Repr

section Functions

variable {Key : Type}

/-- `_z_session_init`, `_z_liveliness_init`, `_z_interest_init` -/
def SessionState.init : SessionState Key where
  entityId := 1
  livelinessQueryId := 1
  livelinessPendingQueries := fun _ ↦ none
  livelinessSubscriptions := []
  remoteTokens := []
  localInterests := []

/-- `_z_get_entity_id` -/
def getEntityId (zn : SessionState Key) : UInt32 × SessionState Key :=
  (zn.entityId, { zn with entityId := zn.entityId + 1 })

/-- `_z_unsafe_liveliness_register_pending_query`, with the key the caller sets -/
def livelinessRegisterPendingQuery (zn : SessionState Key) (key : Key) :
    UInt32 × SessionState Key :=
  let id := zn.livelinessQueryId
  (id, { zn with
    livelinessQueryId := zn.livelinessQueryId + 1
    livelinessPendingQueries := Function.update zn.livelinessPendingQueries id (some key) })

/-- `_z_liveliness_unregister_pending_query` -/
def livelinessUnregisterPendingQuery (zn : SessionState Key) (id : UInt32) : SessionState Key :=
  { zn with livelinessPendingQueries := Function.update zn.livelinessPendingQueries id none }

/-- The liveliness subscribers whose key expression intersects a token's -/
def matchingSubscribers (ops : KeyexprOps Key) (zn : SessionState Key) (key : Key) : List UInt32 :=
  (zn.livelinessSubscriptions.filter fun s ↦ ops.intersects s.2 key).map Prod.fst

/-- `_z_liveliness_process_remote_token_declare` -/
def livelinessProcessRemoteTokenDeclare (ops : KeyexprOps Key) (zn : SessionState Key)
    (id : UInt32) (key : Key) : SessionState Key × List Delivery :=
  let declared : SessionState Key := { zn with remoteTokens := zn.remoteTokens.insert id key }
  let puts := (matchingSubscribers ops zn key).map .subscriberPut
  match zn.remoteTokens.get id with
  | none => (declared, puts)
  | some replaced =>
    if ops.equals replaced key then (zn, [])
    else (declared, (matchingSubscribers ops zn replaced).map .subscriberDelete ++ puts)

/-- `_z_liveliness_process_token_declare`: a pending query with the interest id takes the
declaration, also when its key expression does not match. -/
def livelinessProcessTokenDeclare (ops : KeyexprOps Key) (zn : SessionState Key)
    (interestId : Option UInt32) (id : UInt32) (key : Key) : SessionState Key × List Delivery :=
  match interestId.bind fun i ↦ (zn.livelinessPendingQueries i).map fun pq ↦ (i, pq) with
  | some (i, pq) => (zn, if ops.intersects pq key then [.queryReply i] else [])
  | none => livelinessProcessRemoteTokenDeclare ops zn id key

/-- `_z_liveliness_process_remote_token_undeclare` -/
def livelinessProcessRemoteTokenUndeclare (ops : KeyexprOps Key) (zn : SessionState Key)
    (id : UInt32) : SessionState Key × List Delivery :=
  match zn.remoteTokens.get id with
  | none => (zn, [])
  | some key =>
    ({ zn with remoteTokens := zn.remoteTokens.remove id },
      (matchingSubscribers ops zn key).map .subscriberDelete)

/-- `_z_liveliness_subscription_undeclare_all` -/
def livelinessSubscriptionUndeclareAll (ops : KeyexprOps Key) (zn : SessionState Key) :
    SessionState Key × List Delivery :=
  ({ zn with remoteTokens := [] },
    zn.remoteTokens.flatMap fun token ↦ (matchingSubscribers ops zn token.2).map .subscriberDelete)

/-- `_z_liveliness_process_declare_final`, then `_z_interest_process_declare_final` -/
def processDeclareFinal (zn : SessionState Key) (interestId : Option UInt32) :
    SessionState Key × List Delivery :=
  match interestId with
  | none => (zn, [])
  | some i =>
    (livelinessUnregisterPendingQuery zn i,
      (if (zn.livelinessPendingQueries i).isSome then [.queryDropped i] else []) ++
        (if i ∈ zn.localInterests then [.filterFinal i] else []))

end Functions

/-! ### Interests at the peers -/

/-- Who put an interest on the wire -/
inductive Emitter (Key : Type)
  | livelinessQuery (key : Key)
  | livelinessSubscriber (key : Key)
  | writeFilter
  | resourcePull
deriving DecidableEq, Repr

/-- An interest on the wire, with the peers that have it: those that it was sent to and that are
still to answer, or go on answering. -/
structure Interest (Peer Key : Type) where
  id : UInt32
  emitter : Emitter Key
  peers : List Peer
deriving DecidableEq, Repr

/-- Interests in the current state only, which the declare-final of a peer ends there -/
def Emitter.currentOnly {Key : Type} : Emitter Key → Bool
  | .livelinessQuery _ => true
  | .resourcePull => true
  | _ => false

/-- A session, its peers (a client has its router), and the interests that some peer has -/
structure World (Peer Key : Type) where
  session : SessionState Key
  connected : List Peer
  outstanding : List (Interest Peer Key)

/-- What happens to a session. `sent` is the result of sending the message, `onWire` whether
the mode of the session calls for one, and `pushed` the number of interests that a new peer is sent
before sending fails. -/
inductive Event (Peer Key : Type)
  | declareEntity
  | declareLivelinessSubscriber (key : Key) (sent : Bool)
  | undeclareLivelinessSubscriber (id : UInt32) (sent : Bool)
  | addInterest (onWire sent : Bool)
  | removeInterest (id : UInt32) (onWire sent : Bool)
  | livelinessQuery (key : Key) (sent : Bool)
  | cancelLivelinessQuery (id : UInt32)
  | pullResources (sent : Bool)
  | connect (peer : Peer) (pushed : ℕ)
  | disconnect (peer : Peer)
  | transportFailed
  | tokenDeclare (peer : Peer) (interestId : Option UInt32) (id : UInt32) (key : Key)
  | tokenUndeclare (peer : Peer) (id : UInt32)
  | declareFinal (peer : Peer) (interestId : Option UInt32)
deriving DecidableEq, Repr

section Steps

variable {Peer Key : Type}

/-- The world after an interest was emitted. It is on the wire when its message was sent, to all
peers there are. -/
def World.emit (w : World Peer Key) (zn : SessionState Key) (sent : Bool) (id : UInt32)
    (emitter : Emitter Key) : World Peer Key :=
  { w with
    session := zn
    outstanding := if sent ∧ w.connected ≠ [] then ⟨id, emitter, w.connected⟩ :: w.outstanding
      else w.outstanding }

/-- The interest of the write filter with this number -/
def Interest.isWriteFilter (it : Interest Peer Key) (id : UInt32) : Bool :=
  it.id == id && match it.emitter with | .writeFilter => true | _ => false

/-- The interest of the liveliness subscriber with this number -/
def Interest.isLivelinessSubscriber (it : Interest Peer Key) (id : UInt32) : Bool :=
  it.id == id && match it.emitter with | .livelinessSubscriber _ => true | _ => false

/-- The interest of a write filter is sent to one more peer. -/
def pushInterest (peer : Peer) (outstanding : List (Interest Peer Key)) (id : UInt32) :
    List (Interest Peer Key) :=
  if outstanding.any (·.isWriteFilter id) then
    outstanding.map fun it ↦
      if it.isWriteFilter id then { it with peers := peer :: it.peers } else it
  else ⟨id, .writeFilter, [peer]⟩ :: outstanding

variable [DecidableEq Peer]

/-- A peer no longer has the interest: it is outstanding if another one has it. -/
def Interest.without (it : Interest Peer Key) (peer : Peer) : Option (Interest Peer Key) :=
  if it.peers.filter (· ≠ peer) = [] then none
  else some { it with peers := it.peers.filter (· ≠ peer) }

/-- One step, with what the session's callbacks are run for -/
def stepWorld (ops : KeyexprOps Key) (w : World Peer Key) :
    Event Peer Key → World Peer Key × List Delivery
  | .declareEntity => ({ w with session := (getEntityId w.session).2 }, [])
  | .declareLivelinessSubscriber key sent =>
    -- `_z_register_liveliness_subscriber`: unregistered again when the interest is not sent
    let (id, zn) := getEntityId w.session
    let zn := if sent then
        { zn with livelinessSubscriptions := (id, key) :: zn.livelinessSubscriptions }
      else zn
    (w.emit zn sent id (.livelinessSubscriber key), [])
  | .undeclareLivelinessSubscriber id sent =>
    -- `_z_undeclare_liveliness_subscriber`
    if sent ∧ id ∈ w.session.livelinessSubscriptions.map Prod.fst then
      ({ w with
          session := { w.session with
            livelinessSubscriptions := w.session.livelinessSubscriptions.eraseP (·.1 == id) }
          outstanding := w.outstanding.filter (!·.isLivelinessSubscriber id) }, [])
    else (w, [])
  | .addInterest onWire sent =>
    -- `_z_add_interest`: unregistered again when the interest is not sent
    let (id, zn) := getEntityId w.session
    let zn := if onWire && !sent then zn else { zn with localInterests := id :: zn.localInterests }
    (w.emit zn (onWire && sent) id .writeFilter, [])
  | .removeInterest id onWire sent =>
    -- `_z_remove_interest`
    if id ∈ w.session.localInterests ∧ (onWire → sent) then
      ({ w with
          session := { w.session with localInterests := w.session.localInterests.erase id }
          outstanding := w.outstanding.filter fun it ↦ !(onWire && it.isWriteFilter id) }, [])
    else (w, [])
  | .livelinessQuery key sent =>
    -- `_z_liveliness_query`: unregistered again when the interest is not sent
    let (id, zn) := livelinessRegisterPendingQuery w.session key
    let zn := if sent then zn else livelinessUnregisterPendingQuery zn id
    (w.emit zn sent id (.livelinessQuery key), [])
  | .cancelLivelinessQuery id =>
    -- `_z_cancel_liveliness_pending_query`: nothing is sent
    ({ w with session := livelinessUnregisterPendingQuery w.session id },
      if (w.session.livelinessPendingQueries id).isSome then [.queryDropped id] else [])
  | .pullResources sent =>
    -- `_z_interest_pull_resource_from_peers`
    let (id, zn) := getEntityId w.session
    (w.emit zn sent id .resourcePull, [])
  | .connect peer pushed =>
    -- `_z_interest_push_interests_to_peer`
    ({ w with
        connected := peer :: w.connected
        outstanding := (w.session.localInterests.take pushed).foldl (pushInterest peer)
          w.outstanding }, [])
  | .disconnect peer =>
    ({ w with
        connected := w.connected.filter (· ≠ peer)
        outstanding := w.outstanding.filterMap (·.without peer) }, [])
  | .transportFailed =>
    -- `_zp_unicast_failed_result`, `_zp_multicast_failed_result`
    let (zn, deliveries) := livelinessSubscriptionUndeclareAll ops w.session
    (⟨zn, [], []⟩, deliveries)
  | .tokenDeclare _ interestId id key =>
    let (zn, deliveries) := livelinessProcessTokenDeclare ops w.session interestId id key
    ({ w with session := zn }, deliveries)
  | .tokenUndeclare _ id =>
    let (zn, deliveries) := livelinessProcessRemoteTokenUndeclare ops w.session id
    ({ w with session := zn }, deliveries)
  | .declareFinal peer interestId =>
    let (zn, deliveries) := processDeclareFinal w.session interestId
    ({ w with
        session := zn
        outstanding := w.outstanding.filterMap fun it ↦
          if interestId = some it.id ∧ it.emitter.currentOnly then it.without peer
          else some it }, deliveries)

/-- A new session -/
def World.init : World Peer Key := ⟨.init, [], []⟩

end Steps

/-! ### The invariant -/

section Invariant

variable {Peer Key : Type} {w : World Peer Key}

/-- What keeps a world sound: no two interests have one number, each is at some peer, the pending
queries that have the number of an outstanding interest are the queries that emitted it, and the
liveliness subscribers whose interest is outstanding are registered. -/
structure World.Inv (w : World Peer Key) : Prop where
  distinct : (w.outstanding.map Interest.id).Nodup
  held : ∀ it ∈ w.outstanding, it.peers ≠ []
  pending : ∀ it ∈ w.outstanding, ∀ key,
    w.session.livelinessPendingQueries it.id = some key ↔ it.emitter = .livelinessQuery key
  subscriptions : ∀ it ∈ w.outstanding, ∀ key, it.emitter = .livelinessSubscriber key →
    (it.id, key) ∈ w.session.livelinessSubscriptions

/-- The number of an interest that is not a liveliness query's is not pending. -/
theorem World.Inv.pending_eq_none (h : w.Inv) {it : Interest Peer Key} (hit : it ∈ w.outstanding)
    (hother : ∀ pq, it.emitter ≠ .livelinessQuery pq) :
    w.session.livelinessPendingQueries it.id = none := by
  cases hpending : w.session.livelinessPendingQueries it.id with
  | none => rfl
  | some pq => exact absurd ((h.pending it hit pq).mp hpending) (hother pq)

/-- An interest with a new number, of an emitter that keeps what it is about. -/
theorem World.Inv.emit (h : w.Inv) {zn : SessionState Key} {sent : Bool} {id : UInt32}
    {emitter : Emitter Key}
    (hfresh : sent = true → w.connected ≠ [] → id ∉ w.outstanding.map Interest.id)
    (hpending : ∀ it ∈ w.outstanding,
      zn.livelinessPendingQueries it.id = w.session.livelinessPendingQueries it.id)
    (hquery : sent = true → w.connected ≠ [] → ∀ key,
      zn.livelinessPendingQueries id = some key ↔ emitter = .livelinessQuery key)
    (hsubscriptions : w.session.livelinessSubscriptions ⊆ zn.livelinessSubscriptions)
    (hsubscriber : sent = true → ∀ key, emitter = .livelinessSubscriber key →
      (id, key) ∈ zn.livelinessSubscriptions) : (w.emit zn sent id emitter).Inv := by
  by_cases hsent : sent = true ∧ w.connected ≠ []
  · rw [World.emit, if_pos hsent]
    refine ⟨nodup_cons.mpr ⟨hfresh hsent.1 hsent.2, h.distinct⟩, fun it hit ↦ ?_,
      fun it hit key ↦ ?_, fun it hit key hemitter ↦ ?_⟩
    · rcases mem_cons.mp hit with rfl | hit
      · exact hsent.2
      · exact h.held it hit
    · rcases mem_cons.mp hit with rfl | hit
      · exact hquery hsent.1 hsent.2 key
      · rw [hpending it hit]
        exact h.pending it hit key
    · rcases mem_cons.mp hit with rfl | hit
      · exact hsubscriber hsent.1 key hemitter
      · exact hsubscriptions (h.subscriptions it hit key hemitter)
  · rw [World.emit, if_neg hsent]
    refine ⟨h.distinct, h.held, fun it hit key ↦ ?_, fun it hit key hemitter ↦ ?_⟩
    · rw [hpending it hit]
      exact h.pending it hit key
    · exact hsubscriptions (h.subscriptions it hit key hemitter)

/-- Fewer outstanding interests, or fewer peers that have them. -/
theorem World.Inv.mono (h : w.Inv) {w' : World Peer Key}
    (hids : (w'.outstanding.map Interest.id).Sublist (w.outstanding.map Interest.id))
    (hmem : ∀ it' ∈ w'.outstanding, it'.peers ≠ [] ∧
      ∃ it ∈ w.outstanding, it'.id = it.id ∧ it'.emitter = it.emitter)
    (hpending : ∀ it ∈ w'.outstanding,
      w'.session.livelinessPendingQueries it.id = w.session.livelinessPendingQueries it.id)
    (hsubscriptions : ∀ it ∈ w'.outstanding, ∀ key, it.emitter = .livelinessSubscriber key →
      (it.id, key) ∈ w.session.livelinessSubscriptions →
        (it.id, key) ∈ w'.session.livelinessSubscriptions) : w'.Inv where
  distinct := h.distinct.sublist hids
  held := fun it' hit' ↦ (hmem it' hit').1
  pending := by
    intro it' hit' key
    obtain ⟨-, it, hit, hid, hemitter⟩ := hmem it' hit'
    rw [hpending it' hit', hid, hemitter]
    exact h.pending it hit key
  subscriptions := by
    intro it' hit' key hsubscriber
    obtain ⟨-, it, hit, hid, hemitter⟩ := hmem it' hit'
    refine hsubscriptions it' hit' key hsubscriber ?_
    rw [hid]
    exact h.subscriptions it hit key (hemitter ▸ hsubscriber)

/-- A step that leaves the interests and their tables alone. -/
theorem World.Inv.congr (h : w.Inv) {zn : SessionState Key}
    (hpending : zn.livelinessPendingQueries = w.session.livelinessPendingQueries)
    (hsubscriptions : zn.livelinessSubscriptions = w.session.livelinessSubscriptions) :
    ({ w with session := zn } : World Peer Key).Inv :=
  h.mono (.refl _) (fun it hit ↦ ⟨h.held it hit, it, hit, rfl, rfl⟩) (fun _ _ ↦ by rw [hpending])
    (fun _ _ _ _ hmem ↦ by rwa [hsubscriptions])

/-- Some outstanding interests are ended. -/
theorem World.Inv.filter (h : w.Inv) {zn : SessionState Key} {keep : Interest Peer Key → Bool}
    (hpending : zn.livelinessPendingQueries = w.session.livelinessPendingQueries)
    (hsubscriptions : ∀ it, keep it = true → ∀ key, it.emitter = .livelinessSubscriber key →
      (it.id, key) ∈ w.session.livelinessSubscriptions →
        (it.id, key) ∈ zn.livelinessSubscriptions) :
    ({ w with session := zn, outstanding := w.outstanding.filter keep } : World Peer Key).Inv :=
  h.mono (filter_sublist.map _)
    (fun it hit ↦ ⟨h.held it (mem_filter.mp hit).1, it, (mem_filter.mp hit).1, rfl, rfl⟩)
    (fun _ _ ↦ by rw [hpending]) (fun it hit ↦ hsubscriptions it (mem_filter.mp hit).2)

theorem init_inv : (World.init : World Peer Key).Inv :=
  ⟨nodup_nil, nofun, nofun, nofun⟩

/-! ### Peers that come and go -/

/-- What a push does to the outstanding interests -/
theorem mem_pushInterest {peer : Peer} {outstanding : List (Interest Peer Key)} {id : UInt32}
    {it' : Interest Peer Key} (hit' : it' ∈ pushInterest peer outstanding id) :
    (it'.id = id ∧ it'.emitter = .writeFilter ∧ it'.peers ≠ []) ∨
      ∃ it ∈ outstanding, it'.id = it.id ∧ it'.emitter = it.emitter ∧
        (it.peers ≠ [] → it'.peers ≠ []) := by
  rw [pushInterest] at hit'
  split at hit'
  · obtain ⟨it, hit, rfl⟩ := List.mem_map.mp hit'
    refine .inr ⟨it, hit, ?_⟩
    split
    · exact ⟨rfl, rfl, fun _ ↦ cons_ne_nil _ _⟩
    · exact ⟨rfl, rfl, fun hheld ↦ hheld⟩
  · rcases mem_cons.mp hit' with rfl | hit'
    · exact .inl ⟨rfl, rfl, cons_ne_nil _ _⟩
    · exact .inr ⟨it', hit', rfl, rfl, fun hheld ↦ hheld⟩

/-- The interest of a write filter is sent to a peer, under a number that is no other's. -/
theorem World.Inv.push (h : w.Inv) {id : UInt32} (peer : Peer)
    (hpending : w.session.livelinessPendingQueries id = none)
    (hfilter : ∀ it ∈ w.outstanding, it.id = id → it.emitter = .writeFilter) :
    ({ w with outstanding := pushInterest peer w.outstanding id } : World Peer Key).Inv := by
  refine ⟨?_, fun it' hit' ↦ ?_, fun it' hit' key ↦ ?_, fun it' hit' key hsubscriber ↦ ?_⟩
  · dsimp only
    rw [pushInterest]
    split
    · have hids : (w.outstanding.map fun it ↦ if it.isWriteFilter id then
          { it with peers := peer :: it.peers } else it).map Interest.id =
          w.outstanding.map Interest.id := by
        rw [List.map_map]
        refine map_congr_left fun it _ ↦ ?_
        simp only [Function.comp_apply]
        split <;> rfl
      rw [hids]
      exact h.distinct
    · next hnone =>
      refine nodup_cons.mpr ⟨fun hid ↦ hnone ?_, h.distinct⟩
      obtain ⟨it, hit, hid⟩ := List.mem_map.mp hid
      refine any_eq_true.mpr ⟨it, hit, ?_⟩
      rw [Interest.isWriteFilter, hfilter it hit hid, hid]
      simp
  · rcases mem_pushInterest hit' with ⟨-, -, hheld⟩ | ⟨it, hit, -, -, hheld⟩
    · exact hheld
    · exact hheld (h.held it hit)
  · rcases mem_pushInterest hit' with ⟨hid, hemitter, -⟩ | ⟨it, hit, hid, hemitter, -⟩
    · simp [hid, hemitter, hpending]
    · rw [hid, hemitter]
      exact h.pending it hit key
  · rcases mem_pushInterest hit' with ⟨hid, hemitter, -⟩ | ⟨it, hit, hid, hemitter, -⟩
    · rw [hemitter] at hsubscriber
      cases hsubscriber
    · rw [hid]
      exact h.subscriptions it hit key (hemitter ▸ hsubscriber)

/-- Some interests lose a peer. -/
theorem filterMap_id_sublist {f : Interest Peer Key → Option (Interest Peer Key)}
    (hf : ∀ it it', f it = some it' → it'.id = it.id) (outstanding : List (Interest Peer Key)) :
    ((outstanding.filterMap f).map Interest.id).Sublist (outstanding.map Interest.id) := by
  induction outstanding with
  | nil => exact .refl _
  | cons it outstanding ih =>
    cases heq : f it with
    | none =>
      rw [filterMap_cons_none heq]
      exact ih.cons _
    | some it' =>
      rw [filterMap_cons_some heq, map_cons, map_cons, hf it it' heq]
      exact ih.cons_cons _

variable [DecidableEq Peer]

/-- What is left of an interest has its number and its emitter, and a peer that has it. -/
theorem Interest.without_some {it it' : Interest Peer Key} {peer : Peer}
    (h : it.without peer = some it') : it'.id = it.id ∧ it'.emitter = it.emitter ∧ it'.peers ≠ [] ∧
      ∃ other ∈ it.peers, other ≠ peer := by
  rw [Interest.without] at h
  split at h
  · cases h
  · next hleft =>
    obtain rfl := some.inj h
    obtain ⟨other, hother⟩ := exists_mem_of_ne_nil _ hleft
    obtain ⟨hmem, hne⟩ := mem_filter.mp hother
    exact ⟨rfl, rfl, hleft, other, hmem, of_decide_eq_true hne⟩

end Invariant

/-! ### Soundness -/

section Soundness

variable {Peer Key : Type} {ops : KeyexprOps Key}

theorem livelinessProcessTokenDeclare_of_pending {zn : SessionState Key} {i : UInt32} {pq : Key}
    (h : zn.livelinessPendingQueries i = some pq) (id : UInt32) (key : Key) :
    livelinessProcessTokenDeclare ops zn (some i) id key =
      (zn, if ops.intersects pq key then [.queryReply i] else []) := by
  simp [livelinessProcessTokenDeclare, h]

theorem livelinessProcessTokenDeclare_of_none {zn : SessionState Key} {i : UInt32}
    (h : zn.livelinessPendingQueries i = none) (id : UInt32) (key : Key) :
    livelinessProcessTokenDeclare ops zn (some i) id key =
      livelinessProcessRemoteTokenDeclare ops zn id key := by
  simp [livelinessProcessTokenDeclare, h]

theorem queryReply_not_mem_remote (zn : SessionState Key) (id : UInt32) (key : Key) (q : UInt32) :
    Delivery.queryReply q ∉ (livelinessProcessRemoteTokenDeclare ops zn id key).2 := by
  simp only [livelinessProcessRemoteTokenDeclare]
  split
  · simp
  · split <;> simp

theorem subscriberPut_mem_remote {zn : SessionState Key} {i : UInt32} {k : Key}
    (hsub : (i, k) ∈ zn.livelinessSubscriptions) {id : UInt32} {key : Key}
    (hkey : ops.intersects k key = true)
    (hnew : ∀ replaced, zn.remoteTokens.get id = some replaced → ops.equals replaced key = false) :
    Delivery.subscriberPut i ∈ (livelinessProcessRemoteTokenDeclare ops zn id key).2 := by
  have hmatching : i ∈ matchingSubscribers ops zn key := by
    rw [matchingSubscribers, List.mem_map]
    exact ⟨(i, k), mem_filter.mpr ⟨hsub, hkey⟩, rfl⟩
  simp only [livelinessProcessRemoteTokenDeclare]
  split
  · exact mem_map_of_mem hmatching
  · next replaced hreplaced =>
    rw [hnew replaced hreplaced, if_neg Bool.false_ne_true]
    exact mem_append_right _ (mem_map_of_mem hmatching)

theorem mem_remote {zn : SessionState Key} {id : UInt32} {key : Key} {d : Delivery}
    (hd : d ∈ (livelinessProcessRemoteTokenDeclare ops zn id key).2) :
    (∃ i ∈ matchingSubscribers ops zn key, d = .subscriberPut i) ∨
    (∃ replaced, zn.remoteTokens.get id = some replaced ∧
      ∃ i ∈ matchingSubscribers ops zn replaced, d = .subscriberDelete i) := by
  have hput : d ∈ (matchingSubscribers ops zn key).map .subscriberPut →
      ∃ i ∈ matchingSubscribers ops zn key, d = .subscriberPut i := by
    intro hmem
    obtain ⟨i, hi, heq⟩ := List.mem_map.mp hmem
    exact ⟨i, hi, heq.symm⟩
  simp only [livelinessProcessRemoteTokenDeclare] at hd
  split at hd
  · exact .inl (hput hd)
  · next replaced hreplaced =>
    split at hd
    · simp at hd
    · rcases mem_append.mp hd with hmem | hmem
      · obtain ⟨i, hi, heq⟩ := List.mem_map.mp hmem
        exact .inr ⟨replaced, hreplaced, i, hi, heq.symm⟩
      · exact .inl (hput hmem)

variable [DecidableEq Peer] {w : World Peer Key}

/-- The outstanding interests have different numbers, each is at some peer, and the answers of every
peer that has one go where they belong.

A token declaration that answers the interest of a liveliness query is a reply of that query
and nothing else; any other one is no reply, it is the event of a declared token, and reaches
the subscriber that asked whenever its key expression matches a token that the session does not
have. A declare-final takes away no pending query but the one that asked. A token event is not for
one subscriber: every subscriber whose key expression matches is told. -/
structure World.Sound (ops : KeyexprOps Key) (w : World Peer Key) : Prop where
  distinct : (w.outstanding.map Interest.id).Nodup
  held : ∀ it ∈ w.outstanding, it.peers ≠ []
  token_query : ∀ it ∈ w.outstanding, ∀ pq, it.emitter = .livelinessQuery pq →
    ∀ peer ∈ it.peers, ∀ id key, (stepWorld ops w (.tokenDeclare peer (some it.id) id key)).2 =
      if ops.intersects pq key then [.queryReply it.id] else []
  token_other : ∀ it ∈ w.outstanding, (∀ pq, it.emitter ≠ .livelinessQuery pq) →
    ∀ peer ∈ it.peers, ∀ id key q,
      .queryReply q ∉ (stepWorld ops w (.tokenDeclare peer (some it.id) id key)).2
  token_subscriber : ∀ it ∈ w.outstanding, ∀ k, it.emitter = .livelinessSubscriber k →
    ∀ peer ∈ it.peers, ∀ id key, ops.intersects k key = true →
      (∀ replaced, w.session.remoteTokens.get id = some replaced →
        ops.equals replaced key = false) →
      .subscriberPut it.id ∈ (stepWorld ops w (.tokenDeclare peer (some it.id) id key)).2
  token_matching : ∀ it ∈ w.outstanding, (∀ pq, it.emitter ≠ .livelinessQuery pq) →
    ∀ peer ∈ it.peers, ∀ id key, ∀ d ∈ (stepWorld ops w (.tokenDeclare peer (some it.id) id key)).2,
        (∃ i ∈ matchingSubscribers ops w.session key, d = .subscriberPut i) ∨
        (∃ replaced, w.session.remoteTokens.get id = some replaced ∧
          ∃ i ∈ matchingSubscribers ops w.session replaced, d = .subscriberDelete i)
  final : ∀ it ∈ w.outstanding, ∀ peer ∈ it.peers, ∀ q,
    .queryDropped q ∈ (stepWorld ops w (.declareFinal peer (some it.id))).2 →
      q = it.id ∧ ∃ pq, it.emitter = .livelinessQuery pq

/-- The invariant makes every answer go where it belongs. -/
theorem World.Inv.sound (h : w.Inv) (ops : KeyexprOps Key) : w.Sound ops where
  distinct := h.distinct
  held := h.held
  token_query := by
    intro it hit pq hquery peer _ id key
    simp only [stepWorld,
      livelinessProcessTokenDeclare_of_pending ((h.pending it hit pq).mpr hquery)]
  token_other := by
    intro it hit hother peer _ id key q
    simp only [stepWorld, livelinessProcessTokenDeclare_of_none (h.pending_eq_none hit hother)]
    exact queryReply_not_mem_remote _ _ _ _
  token_subscriber := by
    intro it hit k hsubscriber peer _ id key hkey hnew
    have hnone := h.pending_eq_none hit (fun pq ↦ by simp [hsubscriber])
    simp only [stepWorld, livelinessProcessTokenDeclare_of_none hnone]
    exact subscriberPut_mem_remote (h.subscriptions it hit k hsubscriber) hkey hnew
  token_matching := by
    intro it hit hother peer _ id key d hd
    simp only [stepWorld,
      livelinessProcessTokenDeclare_of_none (h.pending_eq_none hit hother)] at hd
    exact mem_remote hd
  final := by
    intro it hit peer _ q hq
    simp only [stepWorld, processDeclareFinal, mem_append] at hq
    rcases hq with hq | hq
    · split at hq
      · next hsome =>
        obtain ⟨pq, hpq⟩ := isSome_iff_exists.mp hsome
        exact ⟨by simpa using hq, pq, (h.pending it hit pq).mp hpq⟩
      · simp at hq
    · split at hq <;> simp at hq

/-! ### Runs -/

/-- No outstanding interest and no pending query has the number. -/
def World.Unused (w : World Peer Key) (id : UInt32) : Prop :=
  id ∉ w.outstanding.map Interest.id ∧ w.session.livelinessPendingQueries id = none

/-- The number that an interest is given is unused, and where a new peer is sent the interest of a
write filter again, no other one has its number. A liveliness query is in the table before it is
sent, so one that fails must not take a pending query's place. A pending query whose interest is
outstanding is not cancelled, and its declare-final comes from the last peer that has it. -/
def World.Fresh (w : World Peer Key) : Event Peer Key → Prop
  | .declareLivelinessSubscriber _ true | .addInterest true true | .pullResources true =>
    w.connected ≠ [] → w.Unused w.session.entityId
  | .livelinessQuery _ true => w.Unused w.session.livelinessQueryId
  | .livelinessQuery _ false =>
    w.session.livelinessPendingQueries w.session.livelinessQueryId = none
  | .connect _ pushed => ∀ id ∈ w.session.localInterests.take pushed,
    w.session.livelinessPendingQueries id = none ∧
      ∀ it ∈ w.outstanding, it.id = id → it.emitter = .writeFilter
  | .cancelLivelinessQuery id =>
    w.session.livelinessPendingQueries id ≠ none → id ∉ w.outstanding.map Interest.id
  | .declareFinal peer (some i) => w.session.livelinessPendingQueries i ≠ none →
    ∀ it ∈ w.outstanding, it.id = i → ∀ other ∈ it.peers, other = peer
  | _ => True

theorem World.Inv.query (h : w.Inv) {key : Key} {sent : Bool}
    (hfresh : w.Fresh (.livelinessQuery key sent)) :
    (stepWorld ops w (.livelinessQuery key sent)).1.Inv := by
  cases sent with
  | false =>
    have hnone : w.session.livelinessPendingQueries w.session.livelinessQueryId = none := hfresh
    have hsame : (livelinessUnregisterPendingQuery (livelinessRegisterPendingQuery w.session key).2
        w.session.livelinessQueryId).livelinessPendingQueries =
        w.session.livelinessPendingQueries := by
      simp only [livelinessUnregisterPendingQuery, livelinessRegisterPendingQuery,
        Function.update_idem]
      rw [← hnone, Function.update_eq_self]
    exact h.emit nofun (fun _ _ ↦ congrFun hsame _) nofun (List.Subset.refl _) nofun
  | true =>
    obtain ⟨hid, hnone⟩ := hfresh
    refine h.emit (fun _ _ ↦ hid) (fun it hit ↦ ?_) (fun _ _ key' ↦ ?_) (List.Subset.refl _)
      (fun _ _ hemitter ↦ by cases hemitter)
    · have hne : it.id ≠ w.session.livelinessQueryId := fun heq ↦
        hid (heq ▸ mem_map_of_mem hit)
      exact Function.update_of_ne hne _ _
    · simp

/-- A declare-final ends the interest at the peer that it comes from. -/
theorem World.Inv.declareFinal (h : w.Inv) {peer : Peer} {i : UInt32}
    (hfresh : w.Fresh (.declareFinal peer (some i))) :
    (stepWorld ops w (.declareFinal peer (some i))).1.Inv := by
  have hleft : ∀ it it' : Interest Peer Key,
      (if some i = some it.id ∧ it.emitter.currentOnly then it.without peer else some it) =
        some it' → it'.id = it.id ∧ it'.emitter = it.emitter ∧ (it.peers ≠ [] → it'.peers ≠ []) ∧
        (it.id = i → it.emitter.currentOnly = true → ∃ other ∈ it.peers, other ≠ peer) := by
    intro it it' heq
    split at heq
    · obtain ⟨hid, hemitter, hheld, hother⟩ := Interest.without_some heq
      exact ⟨hid, hemitter, fun _ ↦ hheld, fun _ _ ↦ hother⟩
    · next hnot =>
      obtain rfl := some.inj heq
      exact ⟨rfl, rfl, fun hheld ↦ hheld, fun hid hcurrent ↦ absurd ⟨by rw [hid], hcurrent⟩ hnot⟩
  refine h.mono (filterMap_id_sublist (fun it it' heq ↦ (hleft it it' heq).1) _)
    (fun it' hit' ↦ ?_) (fun it' hit' ↦ ?_) (fun _ _ _ _ hmem ↦ hmem)
  · obtain ⟨it, hit, heq⟩ := mem_filterMap.mp hit'
    obtain ⟨hid, hemitter, hheld, -⟩ := hleft it it' heq
    exact ⟨hheld (h.held it hit), it, hit, hid, hemitter⟩
  · obtain ⟨it, hit, heq⟩ := mem_filterMap.mp hit'
    obtain ⟨hid, -, -, hother⟩ := hleft it it' heq
    by_cases hi : it'.id = i
    · -- a query with this number has lost its last peer
      have hnone : w.session.livelinessPendingQueries it.id = none := by
        by_contra hsome
        obtain ⟨pq, hpq⟩ := ne_none_iff_exists'.mp hsome
        have hquery := (h.pending it hit pq).mp hpq
        obtain ⟨other, hmem, hne⟩ := hother (hid ▸ hi) (by rw [hquery]; rfl)
        rw [hid.symm.trans hi] at hsome
        exact hne (hfresh hsome it hit (hid.symm.trans hi) other hmem)
      rw [hid, hnone]
      simp [stepWorld, processDeclareFinal, livelinessUnregisterPendingQuery, ← hid, hi]
    · exact Function.update_of_ne hi _ _

variable {events : List (Event Peer Key)}

end Soundness

end ZenohPico.Session
