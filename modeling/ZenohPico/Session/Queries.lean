import Mathlib.Data.List.Basic
import Mathlib.Logic.Function.Basic
import ZenohPico.Session.KeyexprOps

/-!
Queries between peers and the answers to them (`src/session/query.c`, `src/net/query.c`,
`_z_query` and `_z_send_reply` of `src/net/primitives.c`, `_z_trigger_queryables` of
`src/session/queryable.c`).

Every session numbers its own queries from one. A request goes to all peers of the querier, and
a queryable answers to all of its own peers: each of them takes a reply or a final for its own
when it has a pending query of that number.

A message in flight and an open query carry who asked, which the code does not know. As long as
no query is given a number that an answer under way or a pending query still uses, everyone gets
its own answers only (`runNetwork_sound`); two peers that query at the same time both begin with
number one (`overlappingRun_not_sound`).

Queries to a queryable of one's own session are delivered without a message and left out.
-/

open List Option

namespace ZenohPico.Session

/-! ### Sessions and messages -/

/-- Who asked: a peer and which of its queries, counted without wrapping around -/
structure Origin (Peer : Type) where
  peer : Peer
  serial : ℕ
deriving DecidableEq, Repr

/-- The part of a reply that the code reads, with its payload -/
structure Reply (Key : Type) where
  key : Key
  time : UInt64
  payload : List UInt8
deriving DecidableEq, Repr

/-- `z_consolidation_mode_t`, after `_z_query` has replaced the automatic mode -/
inductive ConsolidationMode
  | none
  | monotonic
  | latest
deriving DecidableEq, Repr

/-- `_z_pending_query_t`, which is the query `serial` of its session -/
structure PendingQuery (Peer Key : Type) where
  id : UInt64
  key : Key
  anyke : Bool
  consolidation : ConsolidationMode
  remainingFinals : UInt32
  pendingReplies : List (Reply Key × Origin Peer)
  serial : ℕ
deriving DecidableEq, Repr

/-- `_z_query_t`: a query that a queryable has not dropped yet -/
structure Query (Peer Key : Type) where
  requestId : UInt32
  key : Key
  anyke : Bool
  origin : Origin Peer
deriving DecidableEq, Repr

/-- What a network message of a query says -/
inductive Body (Key : Type)
  | request (key : Key) (anyke : Bool)
  | reply (reply : Reply Key)
  | replyErr (payload : List UInt8)
  | responseFinal
deriving DecidableEq, Repr

/-- A network message of a query, with the number of the query -/
structure NetworkMessage (Peer Key : Type) where
  rid : UInt64
  body : Body Key
  origin : Origin Peer
deriving DecidableEq, Repr

/-- The queries of a session: its own, and those of others that it has yet to answer -/
structure QuerySession (Peer Key : Type) where
  queryId : UInt64
  pendingQueries : List (PendingQuery Peer Key)
  openQueries : List (Query Peer Key)
  issued : ℕ
deriving DecidableEq, Repr

/-- What happens to a pending query: its callback is run for a reply, or a final is counted. -/
inductive Effect (Peer : Type)
  | callback (serial : ℕ) (origin : Origin Peer)
  | final (serial : ℕ) (origin : Origin Peer) (finalized : Bool)
deriving DecidableEq, Repr

/-- The number in the answers to a request: `_z_trigger_queryables` takes it as `uint32_t`. -/
def answerId (rid : UInt64) : UInt64 := rid.toUInt32.toUInt64

section Handlers

variable {Peer Key : Type}

/-- The fields that `_z_session_init` sets -/
def QuerySession.init : QuerySession Peer Key where
  queryId := 1
  pendingQueries := []
  openQueries := []
  issued := 0

/-- The pending query of a number, changed or dropped. Queries are found from the front of the
list, the newest first. -/
def updatePending (id : UInt64) (f : PendingQuery Peer Key → Option (PendingQuery Peer Key)) :
    List (PendingQuery Peer Key) → List (PendingQuery Peer Key)
  | [] => []
  | pq :: pqs => if pq.id = id then (f pq).toList ++ pqs else pq :: updatePending id f pqs

/-- The stored replies after a newer one, and whether it is dropped for being older. A stored
reply is removed by its timestamp. -/
def consolidate (ops : KeyexprOps Key) (stored : List (Reply Key × Origin Peer))
    (reply : Reply Key) : List (Reply Key × Origin Peer) × Bool :=
  match stored.find? (ops.equals ·.1.key reply.key) with
  | none => (stored, false)
  | some same =>
    if reply.time ≤ same.1.time then (stored, true)
    else (stored.eraseP (·.1.time = same.1.time), false)

/-- `_z_trigger_query_reply_partial_inner` -/
def triggerQueryReplyPartial (ops : KeyexprOps Key) (zn : QuerySession Peer Key)
    (id : UInt64) (reply : Reply Key) (origin : Origin Peer) :
    QuerySession Peer Key × List (Effect Peer) :=
  match zn.pendingQueries.find? (·.id = id) with
  | none => (zn, [])
  | some pq =>
    if !pq.anyke && !ops.intersects pq.key reply.key then (zn, [])
    else
      let zn :=
        if pq.consolidation = .none then zn
        else
          let (stored, drop) := consolidate ops pq.pendingReplies reply
          let stored := if drop then stored else (reply, origin) :: stored
          { zn with
            pendingQueries := updatePending id
              (fun pq ↦ some { pq with pendingReplies := stored }) zn.pendingQueries }
      (zn, if pq.consolidation = .latest then [] else [.callback pq.serial origin])

/-- `_z_trigger_query_reply_err` -/
def triggerQueryReplyErr (zn : QuerySession Peer Key) (id : UInt64) (origin : Origin Peer) :
    QuerySession Peer Key × List (Effect Peer) :=
  match zn.pendingQueries.find? (·.id = id) with
  | none => (zn, [])
  | some pq => (zn, [.callback pq.serial origin])

/-- `_z_trigger_query_reply_final` -/
def triggerQueryReplyFinal (zn : QuerySession Peer Key) (id : UInt64) (origin : Origin Peer) :
    QuerySession Peer Key × List (Effect Peer) :=
  match zn.pendingQueries.find? (·.id = id) with
  | none => (zn, [])
  | some pq =>
    let remainingFinals := if pq.remainingFinals > 0 then pq.remainingFinals - 1 else 0
    if remainingFinals = 0 then
      ({ zn with pendingQueries := updatePending id (fun _ ↦ none) zn.pendingQueries },
        (if pq.consolidation = .latest then
          pq.pendingReplies.map fun stored ↦ .callback pq.serial stored.2 else []) ++
            [.final pq.serial origin true])
    else
      ({ zn with
          pendingQueries := updatePending id (fun pq ↦ some { pq with remainingFinals })
            zn.pendingQueries }, [.final pq.serial origin false])

/-- `_z_unregister_pending_query` -/
def unregisterPendingQuery (zn : QuerySession Peer Key) (id : UInt64) : QuerySession Peer Key :=
  { zn with pendingQueries := updatePending id (fun _ ↦ none) zn.pendingQueries }

end Handlers

/-! ### The network -/

/-- The sessions of the peers, and the messages in flight from one to another, which arrive in
the order they were sent. -/
structure Network (Peer Key : Type) where
  sessions : Peer → QuerySession Peer Key
  channels : Peer → Peer → List (NetworkMessage Peer Key)

/-- What a peer does. `peers` are those it is connected to at the time, and `sent` is the result
of sending a request. -/
inductive NetworkEvent (Peer Key : Type)
  | query (peer : Peer) (key : Key) (anyke : Bool) (consolidation : ConsolidationMode)
      (remainingFinals : UInt32) (peers : List Peer) (sent : Bool)
  | receive (source peer : Peer) (hasQueryable : Bool) (peers : List Peer)
  | reply (peer : Peer) (query : ℕ) (reply : Reply Key) (peers : List Peer)
  | replyErr (peer : Peer) (query : ℕ) (payload : List UInt8) (peers : List Peer)
  | dropQuery (peer : Peer) (query : ℕ) (peers : List Peer)
  | unregister (peer : Peer) (id : UInt64)
  | timeout (peer : Peer) (pending : ℕ)
deriving DecidableEq, Repr

section Steps

variable {Peer Key : Type} [DecidableEq Peer]

/-- New sessions, and no messages -/
def Network.init : Network Peer Key where
  sessions := fun _ ↦ .init
  channels := fun _ _ ↦ []

/-- A session of the network changed -/
def Network.setSession (w : Network Peer Key) (peer : Peer) (zn : QuerySession Peer Key) :
    Network Peer Key :=
  { w with sessions := Function.update w.sessions peer zn }

/-- `_z_send_n_msg` without a peer: the message goes to all peers. -/
def Network.send (w : Network Peer Key) (peer : Peer) (peers : List Peer)
    (msg : NetworkMessage Peer Key) : Network Peer Key :=
  { w with channels := fun a b ↦
      if a = peer ∧ b ∈ peers then w.channels a b ++ [msg] else w.channels a b }

/-- The first message of a channel taken off it -/
def Network.pop (w : Network Peer Key) (source peer : Peer) : Network Peer Key :=
  { w with channels := fun a b ↦
      if a = source ∧ b = peer then (w.channels a b).tail else w.channels a b }

/-- A message is handled by the session it was sent to. -/
def handleMessage (ops : KeyexprOps Key) (w : Network Peer Key) (peer : Peer)
    (hasQueryable : Bool) (peers : List Peer) (msg : NetworkMessage Peer Key) :
    Network Peer Key × List (Effect Peer) :=
  let zn := w.sessions peer
  match msg.body with
  | .request key anyke =>
    -- `_z_trigger_queryables`: a final at once where no queryable matches
    if hasQueryable then
      let query : Query Peer Key := ⟨msg.rid.toUInt32, key, anyke, msg.origin⟩
      (w.setSession peer { zn with openQueries := query :: zn.openQueries }, [])
    else (w.send peer peers ⟨answerId msg.rid, .responseFinal, msg.origin⟩, [])
  | .reply reply =>
    let (zn, effects) := triggerQueryReplyPartial ops zn msg.rid reply msg.origin
    (w.setSession peer zn, effects)
  | .replyErr _ =>
    let (zn, effects) := triggerQueryReplyErr zn msg.rid msg.origin
    (w.setSession peer zn, effects)
  | .responseFinal =>
    let (zn, effects) := triggerQueryReplyFinal zn msg.rid msg.origin
    (w.setSession peer zn, effects)

/-- One step of the network, with what happens to the pending queries of the peer that takes it -/
def stepNetwork (ops : KeyexprOps Key) (w : Network Peer Key) :
    NetworkEvent Peer Key → Network Peer Key × List (Effect Peer)
  | .query peer key anyke consolidation remainingFinals peers sent =>
    -- `_z_query`, with `_z_unsafe_register_pending_query`: unregistered again when not sent
    let zn := w.sessions peer
    let qid := zn.queryId
    let pq : PendingQuery Peer Key := ⟨qid, key, anyke, consolidation, remainingFinals, [], zn.issued⟩
    let zn : QuerySession Peer Key := { zn with
      queryId := qid + 1, pendingQueries := pq :: zn.pendingQueries, issued := zn.issued + 1 }
    if sent then
      ((w.setSession peer zn).send peer peers ⟨qid, .request key anyke, ⟨peer, pq.serial⟩⟩, [])
    else (w.setSession peer (unregisterPendingQuery zn qid), [])
  | .receive source peer hasQueryable peers =>
    match w.channels source peer with
    | [] => (w, [])
    | msg :: _ => handleMessage ops (w.pop source peer) peer hasQueryable peers msg
  | .reply peer query reply peers =>
    -- `_z_send_reply`
    match (w.sessions peer).openQueries[query]? with
    | none => (w, [])
    | some q =>
      if !q.anyke && !ops.intersects q.key reply.key then (w, [])
      else (w.send peer peers ⟨q.requestId.toUInt64, .reply reply, q.origin⟩, [])
  | .replyErr peer query payload peers =>
    -- `_z_send_reply_err`
    match (w.sessions peer).openQueries[query]? with
    | none => (w, [])
    | some q => (w.send peer peers ⟨q.requestId.toUInt64, .replyErr payload, q.origin⟩, [])
  | .dropQuery peer query peers =>
    -- `_z_query_clear`
    match (w.sessions peer).openQueries[query]? with
    | none => (w, [])
    | some q =>
      let zn := w.sessions peer
      ((w.setSession peer { zn with openQueries := zn.openQueries.eraseIdx query }).send peer peers
        ⟨q.requestId.toUInt64, .responseFinal, q.origin⟩, [])
  | .unregister peer id =>
    -- `_z_cancel_pending_query`
    (w.setSession peer (unregisterPendingQuery (w.sessions peer) id), [])
  | .timeout peer pending =>
    -- `_z_pending_query_process_timeout`
    let zn := w.sessions peer
    (w.setSession peer { zn with pendingQueries := zn.pendingQueries.eraseIdx pending }, [])

/-- The network after a run -/
def runNetwork (ops : KeyexprOps Key) (events : List (NetworkEvent Peer Key)) : Network Peer Key :=
  events.foldl (fun w e ↦ (stepNetwork ops w e).1) .init

/-- The peer that takes a step -/
def NetworkEvent.peer : NetworkEvent Peer Key → Peer
  | .query peer .. => peer
  | .receive _ peer .. => peer
  | .reply peer .. => peer
  | .replyErr peer .. => peer
  | .dropQuery peer .. => peer
  | .unregister peer _ => peer
  | .timeout peer _ => peer

end Steps

/-! ### Answers under way -/

section Invariant

variable {Peer Key : Type}

/-- What is asked or answered by a message or an open query under way -/
def NetworkMessage.IsRequest (msg : NetworkMessage Peer Key) : Prop :=
  ∃ key anyke, msg.body = .request key anyke

/-- An answer with the number `id` to the query `origin` is on its way to a peer, or may still
be given. -/
inductive Network.Answers (w : Network Peer Key) (peer : Peer) (id : UInt64) (origin : Origin Peer) :
    Prop
  | request {a b : Peer} {msg : NetworkMessage Peer Key} (hmsg : msg ∈ w.channels a b)
      (hrequest : msg.IsRequest) (hid : answerId msg.rid = id) (horigin : msg.origin = origin)
  | openQuery {a : Peer} {q : Query Peer Key} (hq : q ∈ (w.sessions a).openQueries)
      (hid : q.requestId.toUInt64 = id) (horigin : q.origin = origin)
  | response {a : Peer} {msg : NetworkMessage Peer Key} (hmsg : msg ∈ w.channels a peer)
      (hresponse : ¬msg.IsRequest) (hid : msg.rid = id) (horigin : msg.origin = origin)

/-- The answers under way with the number of a pending query are answers to it, and so are the
replies it has stored. -/
structure Network.Inv (w : Network Peer Key) : Prop where
  answers : ∀ peer, ∀ pq ∈ (w.sessions peer).pendingQueries, ∀ origin,
    w.Answers peer pq.id origin → origin = ⟨peer, pq.serial⟩
  stored : ∀ peer, ∀ pq ∈ (w.sessions peer).pendingQueries, ∀ reply ∈ pq.pendingReplies,
    reply.2 = ⟨peer, pq.serial⟩

/-- The query an effect is about, and the one it answers, are the same. -/
def Effect.Own (peer : Peer) : Effect Peer → Prop
  | .callback serial origin => origin = ⟨peer, serial⟩
  | .final serial origin _ => origin = ⟨peer, serial⟩

/-- The pending queries of `pqs'` are among those of `pqs`, but for the finals they wait for and
the replies they have stored, which answer them. -/
def PendingFrom (peer : Peer) (pqs' pqs : List (PendingQuery Peer Key)) : Prop :=
  ∀ pq' ∈ pqs', ∃ pq ∈ pqs, pq'.id = pq.id ∧ pq'.serial = pq.serial ∧
    ((∀ reply ∈ pq.pendingReplies, reply.2 = ⟨peer, pq.serial⟩) →
      ∀ reply ∈ pq'.pendingReplies, reply.2 = ⟨peer, pq.serial⟩)

variable {pqs : List (PendingQuery Peer Key)}

theorem PendingFrom.of_subset {peer : Peer} {pqs' : List (PendingQuery Peer Key)} (h : pqs' ⊆ pqs) :
    PendingFrom peer pqs' pqs :=
  fun pq hpq ↦ ⟨pq, h hpq, rfl, rfl, fun hstored ↦ hstored⟩

/-- Steps that bring no new answers and no new pending queries keep the invariant. -/
theorem Network.Inv.mono {w w' : Network Peer Key} (h : w.Inv)
    (hanswers : ∀ peer id origin, w'.Answers peer id origin → w.Answers peer id origin)
    (hpending : ∀ peer, PendingFrom peer (w'.sessions peer).pendingQueries
      (w.sessions peer).pendingQueries) : w'.Inv where
  answers := by
    intro peer pq' hpq' origin hanswer
    obtain ⟨pq, hpq, hid, hserial, -⟩ := hpending peer pq' hpq'
    rw [hserial]
    exact h.answers peer pq hpq origin (hanswers _ _ _ (hid ▸ hanswer))
  stored := by
    intro peer pq' hpq' reply hreply
    obtain ⟨pq, hpq, -, hserial, hstored⟩ := hpending peer pq' hpq'
    rw [hserial]
    exact hstored (h.stored peer pq hpq) reply hreply

theorem updatePending_from {peer : Peer} {id : UInt64}
    {f : PendingQuery Peer Key → Option (PendingQuery Peer Key)}
    (hf : ∀ pq ∈ pqs, pq.id = id → pqs.find? (·.id = id) = some pq → ∀ pq', f pq = some pq' →
      pq'.id = pq.id ∧ pq'.serial = pq.serial ∧
        ((∀ reply ∈ pq.pendingReplies, reply.2 = ⟨peer, pq.serial⟩) →
          ∀ reply ∈ pq'.pendingReplies, reply.2 = ⟨peer, pq.serial⟩)) :
    PendingFrom peer (updatePending id f pqs) pqs := by
  induction pqs with
  | nil =>
    intro pq' hpq'
    cases hpq'
  | cons pq pqs ih =>
    rw [updatePending]
    split
    · next hid =>
      intro pq' hpq'
      rcases mem_append.mp hpq' with hmem | hmem
      · rw [mem_toList] at hmem
        obtain ⟨hid', hserial, hstored⟩ := hf pq mem_cons_self hid (by simp [hid]) pq' hmem
        exact ⟨pq, mem_cons_self, hid', hserial, hstored⟩
      · exact ⟨pq', mem_cons_of_mem _ hmem, rfl, rfl, fun hstored ↦ hstored⟩
    · next hid =>
      intro pq' hpq'
      rcases mem_cons.mp hpq' with rfl | hmem
      · exact ⟨pq', mem_cons_self, rfl, rfl, fun hstored ↦ hstored⟩
      · obtain ⟨pq₀, hpq₀, hrest⟩ := ih (fun pq₁ hmem₁ hid₁ hfind ↦
          hf pq₁ (mem_cons_of_mem _ hmem₁) hid₁ (by simpa [hid] using hfind)) pq' hmem
        exact ⟨pq₀, mem_cons_of_mem _ hpq₀, hrest⟩

/-- What a session makes of an answer: nothing new is pending, and what happens to a pending query
is an answer to it. -/
structure Handled (peer : Peer) (zn : QuerySession Peer Key)
    (result : QuerySession Peer Key × List (Effect Peer)) : Prop where
  openQueries : result.1.openQueries = zn.openQueries
  pending : PendingFrom peer result.1.pendingQueries zn.pendingQueries
  own : ∀ e ∈ result.2, e.Own peer

variable {peer : Peer} {zn : QuerySession Peer Key} {id : UInt64} {origin : Origin Peer}

theorem handled_nothing : Handled peer zn (zn, []) where
  openQueries := rfl
  pending := .of_subset (List.Subset.refl _)
  own := by simp

/-- The pending query that an answer is for -/
theorem origin_of_find {pq : PendingQuery Peer Key}
    (hown : ∀ pq ∈ zn.pendingQueries, pq.id = id → origin = ⟨peer, pq.serial⟩)
    (hfind : zn.pendingQueries.find? (·.id = id) = some pq) : origin = ⟨peer, pq.serial⟩ := by
  have hid : pq.id = id := by simpa using List.find?_some hfind
  exact hown pq (mem_of_find?_eq_some hfind) hid

theorem unregisterPendingQuery_from (zn : QuerySession Peer Key) (id : UInt64) :
    PendingFrom peer (unregisterPendingQuery zn id).pendingQueries zn.pendingQueries :=
  updatePending_from fun _ _ _ _ _ hnone ↦ by cases hnone

theorem triggerQueryReplyErr_handled
    (hown : ∀ pq ∈ zn.pendingQueries, pq.id = id → origin = ⟨peer, pq.serial⟩) :
    Handled peer zn (triggerQueryReplyErr zn id origin) := by
  rw [triggerQueryReplyErr]
  split
  · exact handled_nothing
  · next pq hfind =>
    refine ⟨rfl, .of_subset (List.Subset.refl _), fun e he ↦ ?_⟩
    rw [mem_singleton] at he
    rw [he]
    exact origin_of_find hown hfind

theorem triggerQueryReplyFinal_handled
    (hown : ∀ pq ∈ zn.pendingQueries, pq.id = id → origin = ⟨peer, pq.serial⟩)
    (hstored : ∀ pq ∈ zn.pendingQueries, ∀ reply ∈ pq.pendingReplies, reply.2 = ⟨peer, pq.serial⟩) :
    Handled peer zn (triggerQueryReplyFinal zn id origin) := by
  rw [triggerQueryReplyFinal]
  split
  · exact handled_nothing
  · next pq hfind =>
    have horigin := origin_of_find hown hfind
    have hpq := mem_of_find?_eq_some hfind
    dsimp only
    by_cases hlast : (if pq.remainingFinals > 0 then pq.remainingFinals - 1 else 0) = 0
    · rw [if_pos hlast]
      refine ⟨rfl, updatePending_from fun _ _ _ _ _ hnone ↦ ?_, fun e he ↦ ?_⟩
      · cases hnone
      · rcases mem_append.mp he with he | he
        · split at he
          · obtain ⟨reply, hreply, rfl⟩ := List.mem_map.mp he
            exact hstored pq hpq reply hreply
          · cases he
        · rw [mem_singleton] at he
          rw [he]
          exact horigin
    · rw [if_neg hlast]
      refine ⟨rfl, updatePending_from fun pq₀ _ _ _ pq' hpq' ↦ ?_, fun e he ↦ ?_⟩
      · obtain rfl := some.inj hpq'
        exact ⟨rfl, rfl, fun hold ↦ hold⟩
      · rw [mem_singleton] at he
        rw [he]
        exact horigin

theorem network_init_inv : (Network.init : Network Peer Key).Inv where
  answers := by
    intro peer pq hpq
    cases hpq
  stored := by
    intro peer pq hpq
    cases hpq

end Invariant

section Effects

variable {Peer Key : Type} {peer : Peer}

theorem mem_consolidate {ops : KeyexprOps Key} {stored : List (Reply Key × Origin Peer)}
    {reply : Reply Key} {x : Reply Key × Origin Peer} (hx : x ∈ (consolidate ops stored reply).1) : x ∈ stored := by
  rw [consolidate] at hx
  split at hx
  · exact hx
  · split at hx
    · exact hx
    · exact mem_of_mem_eraseP hx

variable {zn : QuerySession Peer Key} {id : UInt64} {origin : Origin Peer}

theorem triggerQueryReplyPartial_handled (ops : KeyexprOps Key) (reply : Reply Key)
    (hown : ∀ pq ∈ zn.pendingQueries, pq.id = id → origin = ⟨peer, pq.serial⟩) :
    Handled peer zn (triggerQueryReplyPartial ops zn id reply origin) := by
  rw [triggerQueryReplyPartial]
  split
  · exact handled_nothing
  · next pq hfind =>
    have horigin := origin_of_find hown hfind
    split
    · exact handled_nothing
    · have heffects : ∀ e ∈ (if pq.consolidation = .latest then []
          else [Effect.callback pq.serial origin]), e.Own peer := by
        intro e he
        split at he
        · cases he
        · rw [mem_singleton] at he
          rw [he]
          exact horigin
      by_cases hnone : pq.consolidation = .none
      · rw [if_pos hnone]
        exact ⟨rfl, .of_subset (List.Subset.refl _), heffects⟩
      · rw [if_neg hnone]
        refine ⟨rfl, updatePending_from fun pq₀ _ _ hfind₀ pq' hpq' ↦ ?_, heffects⟩
        obtain rfl : pq = pq₀ := some.inj (hfind.symm.trans hfind₀)
        obtain rfl := some.inj hpq'
        refine ⟨rfl, rfl, fun hstored x hx ↦ ?_⟩
        dsimp only at hx
        split at hx
        · exact hstored x (mem_consolidate hx)
        · rcases mem_cons.mp hx with rfl | hx
          · exact horigin
          · exact hstored x (mem_consolidate hx)

end Effects

/-! ### One step -/

section Step

variable {Peer Key : Type} [DecidableEq Peer] {w : Network Peer Key}

variable {peers : List Peer} {msg : NetworkMessage Peer Key} {source : Peer}

theorem mem_send {peer : Peer} {m : NetworkMessage Peer Key} {a b : Peer}
    (h : m ∈ (w.send peer peers msg).channels a b) :
    m ∈ w.channels a b ∨ m = msg ∧ a = peer ∧ b ∈ peers := by
  simp only [Network.send] at h
  split at h
  · next hto =>
    rcases mem_append.mp h with hmem | hmem
    · exact .inl hmem
    · exact .inr ⟨mem_singleton.mp hmem, hto.1, hto.2⟩
  · exact .inl h

theorem mem_pop {peer : Peer} {m : NetworkMessage Peer Key} {a b : Peer}
    (h : m ∈ (w.pop source peer).channels a b) : m ∈ w.channels a b := by
  simp only [Network.pop] at h
  split at h
  · exact mem_of_mem_tail h
  · exact h

@[simp]
theorem sessions_send (peer : Peer) (peers : List Peer) (msg : NetworkMessage Peer Key) :
    (w.send peer peers msg).sessions = w.sessions := rfl

@[simp]
theorem sessions_setSession (peer : Peer) (zn : QuerySession Peer Key) :
    (w.setSession peer zn).sessions = Function.update w.sessions peer zn := rfl

/-- A message sent is one more answer, or brings one. -/
theorem answers_send {peer : Peer} {p : Peer} {id : UInt64} {origin : Origin Peer}
    (h : (w.send peer peers msg).Answers p id origin) :
    w.Answers p id origin ∨ msg.origin = origin ∧
      (msg.IsRequest ∧ answerId msg.rid = id ∨ ¬msg.IsRequest ∧ msg.rid = id) := by
  cases h with
  | request hmsg hrequest hid horigin =>
    rcases mem_send hmsg with hmem | ⟨rfl, -, -⟩
    · exact .inl (.request hmem hrequest hid horigin)
    · exact .inr ⟨horigin, .inl ⟨hrequest, hid⟩⟩
  | openQuery hq hid horigin => exact .inl (.openQuery hq hid horigin)
  | response hmsg hresponse hid horigin =>
    rcases mem_send hmsg with hmem | ⟨rfl, -, -⟩
    · exact .inl (.response hmem hresponse hid horigin)
    · exact .inr ⟨horigin, .inr ⟨hresponse, hid⟩⟩

theorem answers_pop {peer p : Peer} {id : UInt64} {origin : Origin Peer}
    (h : (w.pop source peer).Answers p id origin) : w.Answers p id origin := by
  cases h with
  | request hmsg hrequest hid horigin => exact .request (mem_pop hmsg) hrequest hid horigin
  | openQuery hq hid horigin => exact .openQuery hq hid horigin
  | response hmsg hresponse hid horigin => exact .response (mem_pop hmsg) hresponse hid horigin

/-- A session that changed brings the answers of its open queries. -/
theorem answers_setSession {peer p : Peer} {zn : QuerySession Peer Key} {id : UInt64}
    {origin : Origin Peer} (h : (w.setSession peer zn).Answers p id origin) :
    w.Answers p id origin ∨
      ∃ q ∈ zn.openQueries, q.requestId.toUInt64 = id ∧ q.origin = origin := by
  cases h with
  | request hmsg hrequest hid horigin => exact .inl (.request hmsg hrequest hid horigin)
  | @openQuery a q hq hid horigin =>
    by_cases ha : a = peer
    · rw [sessions_setSession, ha, Function.update_self] at hq
      exact .inr ⟨q, hq, hid, horigin⟩
    · rw [sessions_setSession, Function.update_of_ne ha] at hq
      exact .inl (.openQuery hq hid horigin)
  | response hmsg hresponse hid horigin => exact .inl (.response hmsg hresponse hid horigin)

/-- The sessions of the others do not change. -/
theorem pendingFrom_setSession {peer : Peer} {zn : QuerySession Peer Key}
    (h : PendingFrom peer zn.pendingQueries (w.sessions peer).pendingQueries) (p : Peer) :
    PendingFrom p ((w.setSession peer zn).sessions p).pendingQueries
      (w.sessions p).pendingQueries := by
  by_cases hp : p = peer
  · subst hp
    rw [sessions_setSession, Function.update_self]
    exact h
  · rw [sessions_setSession, Function.update_of_ne hp]
    exact .of_subset (List.Subset.refl _)

/-- A session that handled an answer, of a network that lost the message. -/
theorem Network.Inv.handled (h : w.Inv) {peer : Peer} {zn : QuerySession Peer Key}
    {effects : List (Effect Peer)} (hhandled : Handled peer (w.sessions peer) (zn, effects)) :
    ((w.pop source peer).setSession peer zn).Inv := by
  refine h.mono (fun p id origin hanswer ↦ ?_) (pendingFrom_setSession hhandled.pending)
  rcases answers_setSession hanswer with hold | ⟨q, hq, hid, horigin⟩
  · exact answers_pop hold
  · rw [show zn.openQueries = (w.sessions peer).openQueries from hhandled.openQueries] at hq
    exact .openQuery hq hid horigin

/-- An open query is answered to all peers. -/
theorem Network.Inv.answer (h : w.Inv) {peer : Peer} {q : Query Peer Key}
    (hq : q ∈ (w.sessions peer).openQueries) {body : Body Key}
    (hbody : ∀ key anyke, body ≠ .request key anyke) (peers : List Peer) :
    (w.send peer peers ⟨q.requestId.toUInt64, body, q.origin⟩).Inv := by
  refine h.mono (fun p id origin hanswer ↦ ?_) fun p ↦ .of_subset (List.Subset.refl _)
  rcases answers_send hanswer with hold | ⟨horigin, ⟨⟨key, anyke, heq⟩, _⟩ | ⟨-, hid⟩⟩
  · exact hold
  · exact absurd heq (hbody key anyke)
  · exact .openQuery hq hid horigin

/-- Pending queries or open queries of a session that are dropped. -/
theorem Network.Inv.setSession (h : w.Inv) {peer : Peer} {zn : QuerySession Peer Key}
    (hopen : zn.openQueries ⊆ (w.sessions peer).openQueries)
    (hpending : PendingFrom peer zn.pendingQueries (w.sessions peer).pendingQueries) :
    (w.setSession peer zn).Inv := by
  refine h.mono (fun p id origin hanswer ↦ ?_) (pendingFrom_setSession hpending)
  rcases answers_setSession hanswer with hold | ⟨q, hq, hid, horigin⟩
  · exact hold
  · exact .openQuery (hopen hq) hid horigin

variable {ops : KeyexprOps Key}

theorem handleMessage_spec (h : w.Inv) {peer : Peer} (hmsg : msg ∈ w.channels source peer)
    (hasQueryable : Bool) (peers : List Peer) :
    (handleMessage ops (w.pop source peer) peer hasQueryable peers msg).1.Inv ∧
      ∀ e ∈ (handleMessage ops (w.pop source peer) peer hasQueryable peers msg).2, e.Own peer := by
  have hown : ¬msg.IsRequest → ∀ pq ∈ (w.sessions peer).pendingQueries, pq.id = msg.rid →
      msg.origin = ⟨peer, pq.serial⟩ := fun hresponse pq hpq hid ↦
    h.answers peer pq hpq msg.origin (.response hmsg hresponse hid.symm rfl)
  rw [handleMessage]
  cases hbody : msg.body with
  | request key anyke =>
    have hrequest : msg.IsRequest := ⟨key, anyke, hbody⟩
    have hanswers : ∀ p, w.Answers p (answerId msg.rid) msg.origin :=
      fun p ↦ .request hmsg hrequest rfl rfl
    cases hasQueryable with
    | true =>
      refine ⟨h.mono (fun p id origin hanswer ↦ ?_) (pendingFrom_setSession ?_), by simp⟩
      · rcases answers_setSession hanswer with hold | ⟨q, hq, hid, horigin⟩
        · exact answers_pop hold
        · rcases mem_cons.mp hq with rfl | hq
          · rw [← horigin, ← hid]
            exact hanswers p
          · exact .openQuery hq hid horigin
      · exact .of_subset (List.Subset.refl _)
    | false =>
      refine ⟨h.mono (fun p id origin hanswer ↦ ?_) fun p ↦ .of_subset (List.Subset.refl _),
        by simp⟩
      rcases answers_send hanswer with hold | ⟨horigin, ⟨⟨_, _, hfinal⟩, _⟩ | ⟨-, hid⟩⟩
      · exact answers_pop hold
      · cases hfinal
      · rw [← horigin, ← hid]
        exact hanswers p
  | reply reply =>
    have hresponse : ¬msg.IsRequest := by
      rintro ⟨_, _, heq⟩
      rw [hbody] at heq
      cases heq
    have hhandled := triggerQueryReplyPartial_handled ops reply (hown hresponse)
    exact ⟨h.handled hhandled, hhandled.own⟩
  | replyErr payload =>
    have hresponse : ¬msg.IsRequest := by
      rintro ⟨_, _, heq⟩
      rw [hbody] at heq
      cases heq
    have hhandled := triggerQueryReplyErr_handled (hown hresponse)
    exact ⟨h.handled hhandled, hhandled.own⟩
  | responseFinal =>
    have hresponse : ¬msg.IsRequest := by
      rintro ⟨_, _, heq⟩
      rw [hbody] at heq
      cases heq
    have hhandled := triggerQueryReplyFinal_handled (hown hresponse) (h.stored peer)
    exact ⟨h.handled hhandled, hhandled.own⟩

/-! ### Runs -/

/-- A query that is sent is not given a number that is in use: no answer under that number can
reach its peer, and no peer has a pending query with the number its answers will carry. -/
def Network.Fresh (w : Network Peer Key) : NetworkEvent Peer Key → Prop
  | .query peer _ _ _ _ _ true =>
    (∀ origin, ¬w.Answers peer (w.sessions peer).queryId origin) ∧
      ∀ p, ∀ pq ∈ (w.sessions p).pendingQueries, pq.id ≠ answerId (w.sessions peer).queryId
  | _ => True

omit [DecidableEq Peer] in
/-- A number that no message, open query or pending query has is fresh. -/
theorem Network.Fresh.of_numbers {w : Network Peer Key} {peer : Peer} {key : Key} {anyke : Bool}
    {consolidation : ConsolidationMode} {remainingFinals : UInt32} {peers : List Peer}
    (hmsg : ∀ a b, ∀ msg ∈ w.channels a b, msg.rid ≠ (w.sessions peer).queryId ∧
      answerId msg.rid ≠ (w.sessions peer).queryId)
    (hopen : ∀ p, ∀ q ∈ (w.sessions p).openQueries,
      q.requestId.toUInt64 ≠ (w.sessions peer).queryId)
    (hpending : ∀ p, ∀ pq ∈ (w.sessions p).pendingQueries,
      pq.id ≠ answerId (w.sessions peer).queryId) :
    w.Fresh (.query peer key anyke consolidation remainingFinals peers true) := by
  refine ⟨fun origin hanswer ↦ ?_, hpending⟩
  cases hanswer with
  | request hmem _ hid => exact (hmsg _ _ _ hmem).2 hid
  | openQuery hmem hid => exact hopen _ _ hmem hid
  | response hmem _ hid => exact (hmsg _ _ _ hmem).1 hid

/-- Every step of a run is fresh. -/
def FreshRun (ops : KeyexprOps Key) (w : Network Peer Key) : List (NetworkEvent Peer Key) → Prop
  | [] => True
  | e :: events => w.Fresh e ∧ FreshRun ops (stepNetwork ops w e).1 events

/-- A query that is sent -/
theorem Network.Inv.query (h : w.Inv) {peer : Peer} {key : Key} {anyke : Bool}
    {consolidation : ConsolidationMode} {remainingFinals : UInt32}
    (hfresh : w.Fresh (.query peer key anyke consolidation remainingFinals peers true)) :
    (stepNetwork ops w
      (.query peer key anyke consolidation remainingFinals peers true)).1.Inv := by
  obtain ⟨hanswers, hpending⟩ := hfresh
  have hcases : ∀ p id origin, (stepNetwork ops w
      (.query peer key anyke consolidation remainingFinals peers true)).1.Answers p id origin →
      w.Answers p id origin ∨ answerId (w.sessions peer).queryId = id ∧
        origin = ⟨peer, (w.sessions peer).issued⟩ := by
    intro p id origin hanswer
    rcases answers_send hanswer with hold | ⟨horigin, ⟨_, hid⟩ | ⟨hresponse, _⟩⟩
    · rcases answers_setSession hold with hold | ⟨q, hq, hid, horigin⟩
      · exact .inl hold
      · exact .inl (.openQuery hq hid horigin)
    · exact .inr ⟨hid, horigin.symm⟩
    · exact absurd ⟨key, anyke, rfl⟩ hresponse
  have hmem : ∀ p, ∀ pq ∈ ((stepNetwork ops w
      (.query peer key anyke consolidation remainingFinals peers true)).1.sessions p).pendingQueries,
      (p = peer ∧ pq.id = (w.sessions peer).queryId ∧ pq.serial = (w.sessions peer).issued ∧
        pq.pendingReplies = []) ∨ pq ∈ (w.sessions p).pendingQueries := by
    intro p pq hpq
    simp only [stepNetwork, if_true, sessions_send, sessions_setSession] at hpq
    by_cases hp : p = peer
    · subst hp
      rw [Function.update_self] at hpq
      rcases mem_cons.mp hpq with rfl | hpq
      · exact .inl ⟨rfl, rfl, rfl, rfl⟩
      · exact .inr hpq
    · rw [Function.update_of_ne hp] at hpq
      exact .inr hpq
  constructor
  · intro p pq hpq origin hanswer
    rcases hmem p pq hpq with ⟨rfl, hid, hserial, -⟩ | hold
    · rcases hcases _ _ _ hanswer with hbefore | ⟨-, horigin⟩
      · rw [hid] at hbefore
        exact absurd hbefore (hanswers origin)
      · rw [horigin, hserial]
    · rcases hcases _ _ _ hanswer with hbefore | ⟨hid, -⟩
      · exact h.answers p pq hold origin hbefore
      · exact absurd hid.symm (hpending p pq hold)
  · intro p pq hpq reply hreply
    rcases hmem p pq hpq with ⟨rfl, -, -, hnil⟩ | hold
    · rw [hnil] at hreply
      cases hreply
    · exact h.stored p pq hold reply hreply

/-- A fresh step keeps the invariant, and what happens to a pending query answers it. -/
theorem stepNetwork_spec (h : w.Inv) {e : NetworkEvent Peer Key} (hfresh : w.Fresh e) :
    (stepNetwork ops w e).1.Inv ∧ ∀ effect ∈ (stepNetwork ops w e).2, effect.Own e.peer := by
  cases e with
  | query peer key anyke consolidation remainingFinals peers sent =>
    cases sent with
    | true => exact ⟨h.query hfresh, by simp [stepNetwork]⟩
    | false =>
      refine ⟨h.setSession (List.Subset.refl _) (.of_subset ?_), by simp [stepNetwork]⟩
      simp [unregisterPendingQuery, updatePending]
  | receive source peer hasQueryable peers =>
    cases hchannel : w.channels source peer with
    | nil =>
      simp only [stepNetwork, hchannel]
      exact ⟨h, by simp⟩
    | cons msg rest =>
      simp only [stepNetwork, hchannel]
      exact handleMessage_spec h (hchannel ▸ mem_cons_self) hasQueryable peers
  | reply peer query reply peers =>
    simp only [stepNetwork]
    split
    · exact ⟨h, by simp⟩
    · next q hq =>
      split
      · exact ⟨h, by simp⟩
      · exact ⟨h.answer (mem_of_getElem? hq) (by simp) peers, by simp⟩
  | replyErr peer query payload peers =>
    simp only [stepNetwork]
    split
    · exact ⟨h, by simp⟩
    · next q hq => exact ⟨h.answer (mem_of_getElem? hq) (by simp) peers, by simp⟩
  | dropQuery peer query peers =>
    simp only [stepNetwork]
    split
    · exact ⟨h, by simp⟩
    · next q hq =>
      refine ⟨h.mono (fun p id origin hanswer ↦ ?_)
        (pendingFrom_setSession (.of_subset (List.Subset.refl _))), by simp⟩
      rcases answers_send hanswer with hold | ⟨horigin, ⟨⟨_, _, hfinal⟩, _⟩ | ⟨-, hid⟩⟩
      · rcases answers_setSession hold with hold | ⟨q', hq', hid, horigin⟩
        · exact hold
        · exact .openQuery (mem_of_mem_eraseIdx hq') hid horigin
      · cases hfinal
      · exact .openQuery (mem_of_getElem? hq) hid horigin
  | unregister peer id =>
    exact ⟨h.setSession (List.Subset.refl _) (unregisterPendingQuery_from _ _),
      by simp [stepNetwork]⟩
  | timeout peer pending =>
    exact ⟨h.setSession (List.Subset.refl _) (.of_subset (eraseIdx_subset ..)),
      by simp [stepNetwork]⟩

/-- A fresh run keeps the invariant. -/
theorem foldl_network_inv {events : List (NetworkEvent Peer Key)} :
    ∀ {w : Network Peer Key}, w.Inv → FreshRun ops w events →
      (events.foldl (fun w e ↦ (stepNetwork ops w e).1) w).Inv := by
  induction events with
  | nil =>
    intro w h _
    exact h
  | cons e events ih =>
    intro w h hfresh
    exact ih (stepNetwork_spec h hfresh.1).1 hfresh.2

theorem freshRun_append {before after : List (NetworkEvent Peer Key)} :
    ∀ {w : Network Peer Key}, FreshRun ops w (before ++ after) → FreshRun ops w before ∧
        FreshRun ops (before.foldl (fun w e ↦ (stepNetwork ops w e).1) w) after := by
  induction before with
  | nil =>
    intro w h
    exact ⟨trivial, h⟩
  | cons e before ih =>
    intro w h
    obtain ⟨hbefore, hafter⟩ := ih h.2
    exact ⟨⟨h.1, hbefore⟩, hafter⟩

/-- In every run in which no query is given a number in use, a querier's callback is run for
replies to its own query only, and a final counts for the query it was emitted for only. -/
theorem runNetwork_sound (ops : KeyexprOps Key) (events : List (NetworkEvent Peer Key))
    (h : FreshRun ops .init events) : ∀ before e after, events = before ++ e :: after →
      ∀ effect ∈ (stepNetwork ops (runNetwork ops before) e).2, effect.Own e.peer := by
  rintro before e after rfl
  obtain ⟨hbefore, he, -⟩ := freshRun_append h
  exact (stepNetwork_spec (foldl_network_inv network_init_inv hbefore) he).2

end Step

/-- Peer 1 queries peer 0, which replies to all of its peers. -/
def answeredQuery : List (NetworkEvent ℕ ℕ) :=
  [.query 1 5 false .none 1 [0] true, .receive 1 0 true [], .reply 0 0 ⟨5, 0, []⟩ [1, 2]]

/-- Peers 1 and 2 query peer 0 at the same time. Peer 2 uses its second number, as its first query
could not be sent. Peer 0 replies to all of its peers, first to peer 1. -/
def twoQueriers : List (NetworkEvent ℕ ℕ) :=
  [.query 2 6 false .none 1 [0] false, .query 1 5 false .none 1 [0] true,
    .query 2 6 false .none 1 [0] true, .receive 1 0 true [], .receive 2 0 true [],
    .reply 0 1 ⟨5, 0, []⟩ [1, 2], .reply 0 0 ⟨6, 0, []⟩ [1, 2]]

/-- Peer 2 has counted a query that it could not send. -/
theorem fresh_first : (runNetwork .exact (twoQueriers.take 1)).Fresh
    (.query 1 5 false .none 1 [0] true) := by
  have hidle : ∀ p, ((runNetwork .exact (twoQueriers.take 1)).sessions p).openQueries = [] ∧
      ((runNetwork .exact (twoQueriers.take 1)).sessions p).pendingQueries = [] := by
    intro p
    by_cases hp : p = 2
    · exact hp ▸ ⟨rfl, rfl⟩
    · have hinit : (runNetwork .exact (twoQueriers.take 1)).sessions p = .init :=
        Function.update_of_ne hp _ _
      exact hinit ▸ ⟨rfl, rfl⟩
  refine .of_numbers (fun _ _ _ hmsg ↦ nomatch hmsg) (fun p q hq ↦ ?_) fun p pq hpq ↦ ?_
  · rw [(hidle p).1] at hq
    cases hq
  · rw [(hidle p).2] at hpq
    cases hpq

/-- Only the number one is in use. -/
theorem fresh_second : (runNetwork .exact (twoQueriers.take 2)).Fresh
    (.query 2 6 false .none 1 [0] true) := by
  have hone : ∀ p, ((runNetwork .exact (twoQueriers.take 2)).sessions p).openQueries = [] ∧
      ∀ pq ∈ ((runNetwork .exact (twoQueriers.take 2)).sessions p).pendingQueries, pq.id = 1 := by
    intro p
    by_cases hfirst : p = 1
    · subst hfirst
      decide
    · by_cases hsecond : p = 2
      · subst hsecond
        decide
      · have hinit : (runNetwork .exact (twoQueriers.take 2)).sessions p = .init :=
          (Function.update_of_ne hfirst _ _).trans (Function.update_of_ne hsecond _ _)
        rw [hinit]
        exact ⟨rfl, fun _ hpq ↦ nomatch hpq⟩
  refine .of_numbers (fun a b msg hmsg ↦ ?_) (fun p q hq ↦ ?_) fun p pq hpq ↦ ?_
  · have hrid : msg.rid = 1 := by
      change msg ∈ (if a = 1 ∧ b ∈ [0] then _ else _) at hmsg
      split at hmsg
      · rw [mem_singleton.mp hmsg]
        rfl
      · cases hmsg
    rw [hrid]
    decide
  · rw [(hone p).1] at hq
    cases hq
  · rw [(hone p).2 pq hpq]
    decide

/-- Every message of peer 0 reaches both of the others, and each takes what answers its own query. -/
theorem runNetwork_sound_answered :
    let messages : List (NetworkEvent ℕ ℕ) := [.receive 0 1 false [], .receive 0 1 false [],
      .receive 0 2 false [], .receive 0 2 false []]
    FreshRun .exact .init (twoQueriers ++ messages) ∧
      (stepNetwork .exact (runNetwork .exact twoQueriers) (.receive 0 1 false [])).2 =
        [.callback 0 ⟨1, 0⟩] ∧
      (stepNetwork .exact (runNetwork .exact (twoQueriers ++ messages.take 3))
        (.receive 0 2 false [])).2 = [.callback 1 ⟨2, 1⟩] ∧
      (∀ effect ∈ (stepNetwork .exact (runNetwork .exact twoQueriers)
        (.receive 0 1 false [])).2, effect.Own 1) ∧
      ∀ effect ∈ (stepNetwork .exact (runNetwork .exact (twoQueriers ++ messages.take 3))
        (.receive 0 2 false [])).2, effect.Own 2 := by
  intro messages
  have hfresh : FreshRun .exact .init (twoQueriers ++ messages) :=
    ⟨trivial, fresh_first, fresh_second, trivial, trivial, trivial, trivial, trivial, trivial,
      trivial, trivial, trivial⟩
  exact ⟨hfresh, by decide, by decide, runNetwork_sound _ _ hfresh twoQueriers _ _ rfl,
    runNetwork_sound _ _ hfresh (twoQueriers ++ messages.take 3) _ [] rfl⟩

/-- Peers 1 and 2 both query peer 0, each with its number one: the reply to the query of peer 1
is given to the callback of peer 2. -/
theorem overlappingRun_not_sound :
    ¬ ∀ events : List (NetworkEvent ℕ ℕ), ∀ before e after, events = before ++ e :: after →
      ∀ effect ∈ (stepNetwork .exact (runNetwork .exact before) e).2, effect.Own e.peer := by
  intro h
  have hown := h (.query 2 5 false .none 1 [0] true :: answeredQuery ++ [.receive 0 2 false []])
    (.query 2 5 false .none 1 [0] true :: answeredQuery) (.receive 0 2 false []) [] rfl
    (.callback 0 ⟨1, 0⟩) (by decide)
  exact absurd (congrArg Origin.peer hown) (by decide)

end ZenohPico.Session
