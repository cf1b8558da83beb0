import ZenohPico.Api.AdvancedSubscriber

/-!
What happens to an advanced subscriber (`src/api/advanced_subscriber.c`), one event for each section
that runs under the mutex of its state.

A query is started in two sections: the first raises a counter, and the query itself is made after
the mutex is released. Its context is freed by `_ze_advanced_subscriber_run_query`, or it goes to
`z_get`, which runs the drop handler in the end. When the start fails, a third section of the
issuer lowers the counter. Sections of other threads come in between at any point.
-/

namespace ZenohPico.Api

open Collections

/-- What an advanced subscriber reads of a sample -/
structure Sample (Source Zid α : Type) where
  /-- The source id and number, when the sample has source info -/
  sourceInfo : Option (Source × UInt32)
  /-- The timestamp, when it is valid -/
  timestamp : Option (Timestamp Zid)
  content : α

/-- `_ze_advanced_subscriber_query_ctx_kind_t`, with the source -/
inductive QueryKind (Source Zid : Type)
  | initial
  | sequenced (id : Source)
  | timestamped (id : Zid)
deriving DecidableEq, Repr

/-- How far a query is -/
inductive QueryStage
  /-- The counter is raised, and the context belongs to the issuer. -/
  | starting
  /-- The context was freed by `_ze_advanced_subscriber_run_query`. -/
  | refused
  /-- The closure belongs to `z_get`, which has not returned. -/
  | calling
  /-- The drop handler has run, and `z_get` has not returned. -/
  | dropped
  /-- The drop handler has run, and `z_get` has returned an error. -/
  | failed
  /-- `z_get` has returned, and the query is pending in the session. -/
  | pending
deriving DecidableEq, Repr

/-- The drop handler of the query is still to run, or the issuer is still to take the query back. -/
def QueryStage.outstanding : QueryStage → Bool
  | .starting | .refused | .calling | .pending => true
  | .dropped | .failed => false

/-- A list of queries is searched by equality. -/
instance lawfulBEqQuery {Source Zid : Type} [DecidableEq Source] [LinearOrder Zid] :
    LawfulBEq (QueryKind Source Zid × QueryStage) := inferInstance

/-- The ways out of `_z_query` -/
inductive QueryExit
  | noTargets (closed : Bool)
  | keyexprNotCopied
  | sessionClosed
  | notRegistered
  | cancellationNotRegistered
  | notSent
  | notDeliveredLocally
  | registered
deriving DecidableEq, Repr

/-- `_z_query` returns `_Z_RES_OK`. -/
def QueryExit.ok : QueryExit → Bool
  | .noTargets closed => !closed
  | .registered => true
  | _ => false

/-- The query stays pending: its dropper is run by neither `_z_drop_handler_execute` nor
`_z_unregister_pending_query`. -/
def QueryExit.keeps (exit : QueryExit) : Bool := exit = .registered

/-- One section, or one call outside the mutex -/
inductive AdvancedEvent (Source Zid α : Type)
  | live (sample : Sample Source Zid α) (memory : Memory)
  | reply (sample : Sample Source Zid α) (memory : Memory)
  | heartbeat (id : Source) (sn : UInt32) (memory : Memory)
  | publisher (id : Source) (memory : Memory)
  | publisherUhlc (id : Zid) (memory : Memory)
  | periodic (id : Source)
  | refuse (kind : QueryKind Source Zid)
  | call (kind : QueryKind Source Zid)
  | returned (kind : QueryKind Source Zid) (exit : QueryExit)
  | returnedDropped (kind : QueryKind Source Zid) (exit : QueryExit)
  | drop (kind : QueryKind Source Zid) (calling : Bool)
  | settle (kind : QueryKind Source Zid) (failed : Bool)
  | undeclare

/-- `_ze_advanced_subscriber_state_t`, with the queries and with what the user has seen -/
structure AdvancedSubscriber (Source Zid α : Type) [LinearOrder Zid] where
  opts : DeliveryOptions
  globalPendingQueries : UInt64
  isUndeclaring : Bool
  sequencedStates : Source → Option (SequencedState α)
  timestampedStates : Zid → Option (TimestampedState Zid α)
  queries : List (QueryKind Source Zid × QueryStage)
  /-- The outputs of a source with sequence numbers -/
  seen : Source → List (Output α)
  /-- The samples of a source with timestamps -/
  seenTimestamped : Zid → List (Timestamp Zid × α)
  /-- The samples with neither -/
  seenOther : List α

namespace AdvancedSubscriber

variable {Source Zid α : Type} [DecidableEq Source] [LinearOrder Zid]
  (w : AdvancedSubscriber Source Zid α)

/-- `_ze_advanced_subscriber_state_init`; the initial query is the next thing to start. -/
def init (historyEnabled : Bool) (maxSamples : ℕ) (retransmission : Bool) :
    AdvancedSubscriber Source Zid α where
  opts := ⟨retransmission, if historyEnabled then maxSamples else 0⟩
  globalPendingQueries := if historyEnabled then 1 else 0
  isUndeclaring := false
  sequencedStates := fun _ ↦ none
  timestampedStates := fun _ ↦ none
  queries := if historyEnabled then [(.initial, .starting)] else []
  seen := fun _ ↦ []
  seenTimestamped := fun _ ↦ []
  seenOther := []

/-- A source gets a new state, and the user sees its outputs. -/
def putSequenced (id : Source) (r : SequencedState α × List (Output α)) :
    AdvancedSubscriber Source Zid α :=
  { w with
    sequencedStates := Function.update w.sequencedStates id (some r.1)
    seen := Function.update w.seen id (w.seen id ++ r.2) }

/-- The same for a source with timestamps -/
def putTimestamped (id : Zid) (r : TimestampedState Zid α × List (Timestamp Zid × α)) :
    AdvancedSubscriber Source Zid α :=
  { w with
    timestampedStates := Function.update w.timestampedStates id (some r.1)
    seenTimestamped := Function.update w.seenTimestamped id (w.seenTimestamped id ++ r.2) }

/-- The state of a source, made if it is not there and there is memory -/
def sequencedState (id : Source) (memory : Memory) : Option (SequencedState α) :=
  match w.sequencedStates id with
  | some state => some state
  | none => if memory = .noSource then none else some .init

/-- The same for a source with timestamps -/
def timestampedState (id : Zid) (memory : Memory) : Option (TimestampedState Zid α) :=
  match w.timestampedStates id with
  | some state => some state
  | none => if memory = .noSource then none else some .init

/-- `__unsafe_ze_advanced_subscriber_handle_sample`; the flag says whether it returns `_Z_RES_OK`. -/
def handleSample (sample : Sample Source Zid α) (memory : Memory) :
    AdvancedSubscriber Source Zid α × Bool :=
  match sample.sourceInfo, sample.timestamp with
  | some (id, sn), _ =>
    match w.sequencedState id memory with
    | none => (w, false)
    | some state =>
      let r := state.handleSample w.opts w.globalPendingQueries memory sn sample.content
      (w.putSequenced id r.1, r.2)
  | none, some timestamp =>
    match w.timestampedState (ofLex timestamp).2 memory with
    | none => (w, false)
    | some state =>
      let r := state.handleSample w.opts w.globalPendingQueries memory timestamp sample.content
      (w.putTimestamped (ofLex timestamp).2 r.1, r.2)
  | none, none => ({ w with seenOther := w.seenOther ++ [sample.content] }, true)

/-- The counter of a source is raised, and its query is to be made. -/
def startSequenced (id : Source) (state : SequencedState α) : AdvancedSubscriber Source Zid α :=
  { w.putSequenced id ({ state with pendingQueries := state.pendingQueries + 1 }, []) with
    queries := (.sequenced id, .starting) :: w.queries }

/-- The same for a source with timestamps -/
def startTimestamped (id : Zid) (state : TimestampedState Zid α) :
    AdvancedSubscriber Source Zid α :=
  { w.putTimestamped id ({ state with pendingQueries := state.pendingQueries + 1 }, []) with
    queries := (.timestamped id, .starting) :: w.queries }

/-- `_ze_advanced_subscriber_subscriber_callback`, to the query for missing samples -/
def live (sample : Sample Source Zid α) (memory : Memory) : AdvancedSubscriber Source Zid α :=
  let r := w.handleSample sample memory
  match r.2, sample.sourceInfo with
  | true, some (id, _) =>
    match r.1.sequencedStates id with
    | none => r.1
    | some state =>
      if w.opts.retransmission ∧ state.pendingQueries = 0 ∧ ¬state.pendingSamples.isEmpty then
        r.1.startSequenced id state
      else r.1
  | _, _ => r.1

/-- `_ze_advanced_subscriber_heartbeat_callback`, for a heartbeat that is read -/
def heartbeat (id : Source) (sn : UInt32) (memory : Memory) : AdvancedSubscriber Source Zid α :=
  if w.sequencedStates id = none ∧ w.globalPendingQueries > 0 then w
  else
    match w.sequencedState id memory with
    | none => w
    | some state =>
      if state.lastDelivered.all fun last ↦ 0 < seqnumberDiff sn last ∧ state.pendingQueries = 0 then
        w.startSequenced id state
      else w.putSequenced id (state, [])

/-- `_ze_advanced_subscriber_liveliness_callback` for a publisher with sequence numbers -/
def publisher (id : Source) (memory : Memory) : AdvancedSubscriber Source Zid α :=
  match w.sequencedState id memory with
  | none => w
  | some state => w.startSequenced id state

/-- `_ze_advanced_subscriber_liveliness_callback` for a publisher with timestamps -/
def publisherUhlc (id : Zid) (memory : Memory) : AdvancedSubscriber Source Zid α :=
  match w.timestampedState id memory with
  | none => w
  | some state => w.startTimestamped id state

/-- `_ze_advanced_subscriber_periodic_query_handler`, to its query -/
def periodic (id : Source) : AdvancedSubscriber Source Zid α :=
  if w.globalPendingQueries ≠ 0 then w
  else
    match w.sequencedStates id with
    | none => w
    | some state => if state.pendingQueries ≠ 0 then w else w.startSequenced id state

/-- `__unsafe_ze_advanced_subscriber_initial_query_drop_handler` -/
def initialQueryDropped : AdvancedSubscriber Source Zid α :=
  if lowered w.globalPendingQueries = 0 then
    { w with
      globalPendingQueries := lowered w.globalPendingQueries
      sequencedStates := fun id ↦ (w.sequencedStates id).map fun state ↦ state.flush.1
      seen := fun id ↦ w.seen id ++ ((w.sequencedStates id).map fun state ↦ state.flush.2).getD []
      timestampedStates := fun id ↦ (w.timestampedStates id).map fun state ↦ state.flush.1
      seenTimestamped := fun id ↦
        w.seenTimestamped id ++ ((w.timestampedStates id).map fun state ↦ state.flush.2).getD [] }
  else { w with globalPendingQueries := lowered w.globalPendingQueries }

/-- `_ze_advanced_subscriber_query_drop_handler` -/
def queryDropHandler : QueryKind Source Zid → AdvancedSubscriber Source Zid α
  | .initial => w.initialQueryDropped
  | .sequenced id =>
    match w.sequencedStates id with
    | none => w
    | some state => w.putSequenced id (state.queryDropped w.globalPendingQueries)
  | .timestamped id =>
    match w.timestampedStates id with
    | none => w
    | some state => w.putTimestamped id (state.queryDropped w.globalPendingQueries)

/-- `_ze_advanced_subscriber_subscriber_drop_handler` -/
def undeclare : AdvancedSubscriber Source Zid α :=
  if w.isUndeclaring then w
  else { w with
    isUndeclaring := true
    sequencedStates := fun _ ↦ none
    timestampedStates := fun _ ↦ none }

/-- The issuer of a query whose start failed lowers the counter. When the initial query cannot be
made, the subscriber is undeclared. -/
def settle : QueryKind Source Zid → AdvancedSubscriber Source Zid α
  | .initial => w.undeclare
  | .sequenced id =>
    match w.sequencedStates id with
    | none => w
    | some state => w.putSequenced id ({ state with pendingQueries := state.pendingQueries - 1 }, [])
  | .timestamped id =>
    match w.timestampedStates id with
    | none => w
    | some state =>
      w.putTimestamped id ({ state with pendingQueries := state.pendingQueries - 1 }, [])

/-- A query goes from one stage to another one, or to its end. -/
def move (kind : QueryKind Source Zid) (here : QueryStage) (there : Option QueryStage) :
    AdvancedSubscriber Source Zid α :=
  { w with queries := (there.map fun stage ↦ (kind, stage)).toList ++ w.queries.erase (kind, here) }

/-- An event. One that does not find its query in its stage, and one of a subscriber that is being
undeclared, does nothing; the drop handler alone does not look at `_is_undeclaring`. -/
def step : AdvancedEvent Source Zid α → AdvancedSubscriber Source Zid α
  | .live sample memory => if w.isUndeclaring then w else w.live sample memory
  | .reply sample memory => if w.isUndeclaring then w else (w.handleSample sample memory).1
  | .heartbeat id sn memory => if w.isUndeclaring then w else w.heartbeat id sn memory
  | .publisher id memory => if w.isUndeclaring then w else w.publisher id memory
  | .publisherUhlc id memory => if w.isUndeclaring then w else w.publisherUhlc id memory
  | .periodic id => if w.isUndeclaring then w else w.periodic id
  | .refuse kind =>
    if (kind, .starting) ∈ w.queries then w.move kind .starting (some .refused) else w
  | .call kind => if (kind, .starting) ∈ w.queries then w.move kind .starting (some .calling) else w
  | .returned kind exit =>
    if (kind, .calling) ∈ w.queries then
      if exit.keeps then w.move kind .calling (some .pending)
      else (w.queryDropHandler kind).move kind .calling (if exit.ok then none else some .failed)
    else w
  | .returnedDropped kind exit =>
    if (kind, .dropped) ∈ w.queries then
      w.move kind .dropped (if exit.ok then none else some .failed)
    else w
  | .drop kind calling =>
    if calling then
      if (kind, .calling) ∈ w.queries then
        (w.queryDropHandler kind).move kind .calling (some .dropped)
      else w
    else if (kind, .pending) ∈ w.queries then (w.queryDropHandler kind).move kind .pending none
    else w
  | .settle kind failed =>
    let stage := if failed then .failed else .refused
    if (kind, stage) ∈ w.queries then
      (if w.isUndeclaring then w else w.settle kind).move kind stage none
    else w
  | .undeclare => w.undeclare

/-- The subscriber after some events -/
def run (events : List (AdvancedEvent Source Zid α)) : AdvancedSubscriber Source Zid α :=
  events.foldl step w

end AdvancedSubscriber

end ZenohPico.Api
