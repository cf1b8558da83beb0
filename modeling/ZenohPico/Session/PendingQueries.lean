import ZenohPico.Foundations.KeyedList
import ZenohPico.Session.Locality
import ZenohPico.Session.Queries

/-!
The pending queries of a session (`src/session/query.c`, `_z_query` and `_z_undeclare_querier` of
`src/net/primitives.c`).

A query is registered with the number of finals it waits for, and leaves the list with the last
of them, when it has timed out, when its querier is undeclared, when it is cancelled or could not
be sent, or when the session is closed. Its closure is called for replies, and told when the
query is dropped.

Queries to a queryable of one's own session (`Z_FEATURE_LOCAL_QUERYABLE`) are answered through
the same functions as those of the peers.
-/

namespace ZenohPico.Session

open Foundations

/-- `_z_pending_query_t`, registered by the call `serial` of `_z_query` -/
structure RegisteredQuery (Key : Type) where
  id : UInt64
  querierId : Option UInt32
  key : Key
  anyke : Bool
  consolidation : ConsolidationMode
  timeout : UInt64
  startTime : ℕ
  remainingFinals : UInt32
  pendingReplies : List (Reply Key)
  serial : ℕ
deriving DecidableEq, Repr

/-- What a callback is run for -/
inductive QueryAnswer (Key : Type)
  | data (reply : Reply Key)
  | error (payload : List UInt8)
deriving DecidableEq, Repr

/-- A function of the closure that was given to the call `serial` of `_z_query` is run. -/
inductive ClosureCall (Key : Type)
  | callback (serial : ℕ) (answer : QueryAnswer Key)
  | dropper (serial : ℕ)
deriving DecidableEq, Repr

/-- The pending queries of a session, and how often `_z_query` was called -/
structure PendingTable (Key : Type) where
  isClosed : Bool
  queryId : UInt64
  pendingQueries : List (RegisteredQuery Key)
  calls : ℕ
deriving DecidableEq, Repr

/-- What happens to the pending queries. `peersCount` and `now` are what
`_z_transport_get_peers_count` and the clock return, and `sent` is the result of sending the
query and registering its cancellation. -/
inductive QueryEvent (Key : Type)
  | query (querierId : Option UInt32) (key : Key) (anyke : Bool) (consolidation : ConsolidationMode)
      (allowedDestination : Locality) (timeout : UInt64) (now : ℕ) (peersCount : ℕ) (sent : Bool)
  | reply (id : UInt64) (reply : Reply Key)
  | replyErr (id : UInt64) (payload : List UInt8)
  | final (id : UInt64)
  | timeout (now : ℕ)
  | undeclareQuerier (querierId : UInt32)
  | cancel (id : UInt64)
  | close
  | flush
deriving DecidableEq, Repr

/-- An open table in which a number is that of a pending query -/
structure PendingTable.Holds {Key : Type} (zn : PendingTable Key) (id : UInt64)
    (pq : RegisteredQuery Key) : Prop where
  isOpen : zn.isClosed = false
  found : zn.pendingQueries.find? (·.id = id) = some pq

theorem PendingTable.Holds.id_eq {Key : Type} {zn : PendingTable Key} {id : UInt64}
    {pq : RegisteredQuery Key} (h : zn.Holds id pq) : pq.id = id := by
  simpa using List.find?_some h.found

section Table

variable {Key : Type}

/-- A new session, as `_z_session_init` sets it up -/
def PendingTable.init : PendingTable Key where
  isClosed := false
  queryId := 1
  pendingQueries := []
  calls := 0

/-- `_z_pending_query_slist_drop_first_filter`, with the droppers that `_z_pending_query_clear`
runs -/
def PendingTable.dropFirst (zn : PendingTable Key) (p : RegisteredQuery Key → Bool) :
    PendingTable Key × List (ClosureCall Key) :=
  ({ zn with pendingQueries := zn.pendingQueries.eraseP p },
    (zn.pendingQueries.find? p).toList.map (.dropper ·.serial))

/-- `_z_pending_query_slist_drop_all_filter`, with the droppers that `_z_pending_query_clear`
runs -/
def PendingTable.dropAll (zn : PendingTable Key) (p : RegisteredQuery Key → Bool) :
    PendingTable Key × List (ClosureCall Key) :=
  ({ zn with pendingQueries := zn.pendingQueries.filter (!p ·) },
    (zn.pendingQueries.filter p).map (.dropper ·.serial))

/-- The stored replies after a new one, which is stored unless it is not newer than the first one
whose key compares equal. That one is removed by its timestamp. -/
def storeReply (ops : KeyexprOps Key) (consolidation : ConsolidationMode)
    (pendingReplies : List (Reply Key)) (reply : Reply Key) : List (Reply Key) :=
  -- only the key and the time are kept in the monotonic mode
  let stored := if consolidation = .monotonic then { reply with payload := [] } else reply
  match pendingReplies.find? (ops.equals ·.key reply.key) with
  | none => stored :: pendingReplies
  | some same =>
    if reply.time ≤ same.time then pendingReplies
    else stored :: pendingReplies.eraseP (·.time = same.time)

/-- A reply is accepted by a pending query. -/
def RegisteredQuery.accepts (ops : KeyexprOps Key) (pq : RegisteredQuery Key)
    (reply : Reply Key) : Bool :=
  pq.anyke || ops.intersects pq.key reply.key

/-- `_z_trigger_query_reply_partial_inner` -/
def PendingTable.replyPartial (ops : KeyexprOps Key) (zn : PendingTable Key)
    (id : UInt64) (reply : Reply Key) : PendingTable Key × List (ClosureCall Key) :=
  if zn.isClosed then (zn, [])
  else
    match zn.pendingQueries.find? (·.id = id) with
    | none => (zn, [])
    | some pq =>
      if !pq.accepts ops reply then (zn, [])
      else
        let pendingReplies :=
          if pq.consolidation = .none then pq.pendingReplies
          else storeReply ops pq.consolidation pq.pendingReplies reply
        ({ zn with
            pendingQueries := updateFirst (·.id = id) ({ · with pendingReplies })
              zn.pendingQueries },
          if pq.consolidation ≠ .latest then [.callback pq.serial (.data reply)] else [])

/-- `_z_trigger_query_reply_err` -/
def PendingTable.replyErr (zn : PendingTable Key) (id : UInt64) (payload : List UInt8) :
    PendingTable Key × List (ClosureCall Key) :=
  if zn.isClosed then (zn, [])
  else
    match zn.pendingQueries.find? (·.id = id) with
    | none => (zn, [])
    | some pq => (zn, [.callback pq.serial (.error payload)])

/-- `_z_trigger_query_reply_final` -/
def PendingTable.replyFinal (zn : PendingTable Key) (id : UInt64) :
    PendingTable Key × List (ClosureCall Key) :=
  if zn.isClosed then (zn, [])
  else
    match zn.pendingQueries.find? (·.id = id) with
    | none => (zn, [])
    | some pq =>
      let remainingFinals := if pq.remainingFinals > 0 then pq.remainingFinals - 1 else 0
      if remainingFinals = 0 then
        let delivered :=
          if pq.consolidation = .latest then
            pq.pendingReplies.map (.callback pq.serial <| .data ·)
          else []
        let (zn, dropped) := zn.dropFirst (·.id = pq.id)
        (zn, delivered ++ dropped)
      else
        ({ zn with
            pendingQueries := updateFirst (·.id = id) ({ · with remainingFinals })
              zn.pendingQueries }, [])

/-- The finals that `_z_query` expects -/
def expectedFinals (allowedDestination : Locality) (peersCount : ℕ) : ℕ :=
  (if allowedDestination.allowsLocal then 1 else 0) +
    if allowedDestination.allowsRemote then peersCount else 0

/-- `_z_query` -/
def PendingTable.query (zn : PendingTable Key) (querierId : Option UInt32) (key : Key)
    (anyke : Bool) (consolidation : ConsolidationMode) (allowedDestination : Locality)
    (timeout : UInt64) (now : ℕ) (peersCount : ℕ) (sent : Bool) :
    PendingTable Key × List (ClosureCall Key) :=
  let remainingFinals := expectedFinals allowedDestination peersCount
  let serial := zn.calls
  let zn := { zn with calls := zn.calls + 1 }
  if remainingFinals = 0 || zn.isClosed then (zn, [.dropper serial])
  else
    let qid := zn.queryId
    let pq : RegisteredQuery Key :=
      ⟨qid, querierId, key, anyke, consolidation, timeout, now, remainingFinals.toUInt32, [], serial⟩
    let zn := { zn with queryId := qid + 1, pendingQueries := pq :: zn.pendingQueries }
    if sent then (zn, []) else zn.dropFirst (·.id = qid)

/-- One step of the pending queries, with the calls of their closures -/
def stepTable (ops : KeyexprOps Key) (zn : PendingTable Key) :
    QueryEvent Key → PendingTable Key × List (ClosureCall Key)
  | .query querierId key anyke consolidation allowedDestination timeout now peersCount sent =>
    zn.query querierId key anyke consolidation allowedDestination timeout now peersCount sent
  | .reply id reply => zn.replyPartial ops id reply
  | .replyErr id payload => zn.replyErr id payload
  | .final id => zn.replyFinal id
  | .timeout now =>
    -- `_z_pending_query_process_timeout`
    zn.dropAll fun pq ↦ pq.timeout.toNat ≤ now - pq.startTime
  | .undeclareQuerier querierId =>
    -- `_z_unregister_pending_queries_from_querier`
    if zn.isClosed then (zn, []) else zn.dropAll (·.querierId = some querierId)
  | .cancel id =>
    -- `_z_cancel_pending_query`
    if zn.isClosed then (zn, []) else zn.dropFirst (·.id = id)
  | .close => ({ zn with isClosed := true }, [])
  | .flush => zn.dropAll fun _ ↦ true

/-- The pending queries after a run, with all calls of their closures -/
def runTable (ops : KeyexprOps Key) (zn : PendingTable Key)
    (events : List (QueryEvent Key)) : PendingTable Key × List (ClosureCall Key) :=
  events.foldl (fun s e ↦
    let (zn, calls) := stepTable ops s.1 e
    (zn, s.2 ++ calls)) (zn, [])

/-! ### Runs -/

variable {ops : KeyexprOps Key} {zn : PendingTable Key}

@[simp] theorem runTable_nil : runTable ops zn [] = (zn, []) := rfl

/-- A run does what its first part does and then what the rest does. -/
theorem runTable_append (before after : List (QueryEvent Key)) : runTable ops zn (before ++ after) =
      ((runTable ops (runTable ops zn before).1 after).1, (runTable ops zn before).2 ++
          (runTable ops (runTable ops zn before).1 after).2) := by
  have hcalls : ∀ (events : List (QueryEvent Key)) (zn : PendingTable Key)
      (calls : List (ClosureCall Key)), events.foldl
          (fun s e ↦ ((stepTable ops s.1 e).1, s.2 ++ (stepTable ops s.1 e).2))
          (zn, calls) = ((runTable ops zn events).1, calls ++ (runTable ops zn events).2) := by
    intro events
    induction events with
    | nil => simp
    | cons e events ih =>
      intro zn calls
      rw [runTable, List.foldl_cons, List.foldl_cons, ih, ih]
      simp
  rw [runTable, List.foldl_append]
  exact hcalls after _ _

@[simp] theorem runTable_cons (e : QueryEvent Key) (events : List (QueryEvent Key)) :
    runTable ops zn (e :: events) = ((runTable ops (stepTable ops zn e).1 events).1,
        (stepTable ops zn e).2 ++ (runTable ops (stepTable ops zn e).1 events).2) :=
  runTable_append [e] events

theorem runTable_snoc (events : List (QueryEvent Key)) (e : QueryEvent Key) :
    runTable ops zn (events ++ [e]) = ((stepTable ops (runTable ops zn events).1 e).1,
        (runTable ops zn events).2 ++ (stepTable ops (runTable ops zn events).1 e).2) := by
  simp [runTable_append]

/-! ### Finals -/

variable (ops) {id : UInt64} {pq : RegisteredQuery Key}

theorem toNat_sub_one {n : UInt32} (h : 1 ≤ n.toNat) : (n - 1).toNat = n.toNat - 1 :=
  UInt32.toNat_sub_of_le _ _ (UInt32.le_iff_toNat_le.mpr h)

/-- A final that is not the last one is counted. -/
theorem PendingTable.Holds.stepTable_final (h : zn.Holds id pq)
    (hfinals : 1 < pq.remainingFinals.toNat) : stepTable ops zn (.final id) = ({ zn with
      pendingQueries := updateFirst (·.id = id)
        ({ · with remainingFinals := pq.remainingFinals - 1 }) zn.pendingQueries }, []) := by
  have hpos : pq.remainingFinals > 0 :=
    UInt32.lt_iff_toNat_lt.mpr (Nat.lt_of_le_of_lt (Nat.zero_le 1) hfinals)
  have hne : pq.remainingFinals - 1 ≠ 0 := fun heq ↦ by
    have hsub := toNat_sub_one (Nat.le_of_lt hfinals)
    rw [heq] at hsub
    have hzero : (0 : UInt32).toNat = 0 := rfl
    omega
  simp only [stepTable, PendingTable.replyFinal, h.isOpen, h.found, if_pos hpos, if_neg hne]
  rfl

theorem PendingTable.Holds.final (h : zn.Holds id pq) (hfinals : 1 < pq.remainingFinals.toNat) :
    (stepTable ops zn (.final id)).1.Holds id
      { pq with remainingFinals := pq.remainingFinals - 1 } := by
  rw [h.stepTable_final ops hfinals]
  exact ⟨h.isOpen, find?_updateFirst h.found (by simpa using h.id_eq)⟩

/-- The last final gives the callback what is stored in the mode LATEST, and drops the query. -/
theorem PendingTable.Holds.stepTable_last (h : zn.Holds id pq)
    (hfinals : pq.remainingFinals.toNat ≤ 1) : stepTable ops zn (.final id) =
      ({ zn with pendingQueries := zn.pendingQueries.eraseP (·.id = id) },
        (if pq.consolidation = .latest then
          pq.pendingReplies.map (.callback pq.serial <| .data ·) else []) ++
            [.dropper pq.serial]) := by
  have hzero : (if pq.remainingFinals > 0 then pq.remainingFinals - 1 else 0) = 0 := by
    split
    · next hpos =>
      have hlt : 0 < pq.remainingFinals.toNat := UInt32.lt_iff_toNat_lt.mp hpos
      have hzero : (0 : UInt32).toNat = 0 := rfl
      exact UInt32.toNat_inj.mp (by rw [toNat_sub_one hlt]; omega)
    · rfl
  simp only [stepTable, PendingTable.replyFinal, h.isOpen, h.found, hzero, PendingTable.dropFirst,
    h.id_eq]
  rfl

end Table

end ZenohPico.Session
