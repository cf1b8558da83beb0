import Mathlib.Tactic.Tauto
import ZenohPico.Api.AdvancedEvents

/-!
What an event is for one source of an advanced subscriber.

Most events do nothing to a source, or change the number of its pending queries only. The others
handle a sample of the source, or flush its parked samples. `step_source` says so once for all
events, and what is preserved by these few steps is preserved by every run.
-/

open Option

namespace ZenohPico.Api

/-- What an event is for a source with sequence numbers. Its parked samples may be flushed at the end
of a query of its own, or of the initial one. -/
inductive SourceEvent (α : Type)
  | quiet
  | sample (sn : UInt32) (memory : Memory) (content : α)
  | flush (own : Bool)

/-- The state that is flushed at the end of a query -/
def SequencedState.atEnd {α : Type} (state : SequencedState α) (own : Bool) : SequencedState α :=
  { state with
    pendingQueries := if own then lowered state.pendingQueries else state.pendingQueries }

/-- How a source goes from one state to the next one, and its outputs. The number of its pending
queries may be any. -/
inductive SourceStep {α : Type} (opts : DeliveryOptions) (globalPendingQueries : UInt64) :
    SourceEvent α → Option (SequencedState α) → List (Output α) → Option (SequencedState α) → Prop
  | same {s : Option (SequencedState α)} : SourceStep opts globalPendingQueries .quiet s [] s
  | counted {state : SequencedState α} {n : UInt64} :
      SourceStep opts globalPendingQueries .quiet (some state) []
        (some { state with pendingQueries := n })
  | made {n : UInt64} :
      SourceStep opts globalPendingQueries .quiet none []
        (some { (SequencedState.init : SequencedState α) with pendingQueries := n })
  | sample {s : Option (SequencedState α)} {sn : UInt32} {memory : Memory} {content : α} {n : UInt64}
      {r : (SequencedState α × List (Output α)) × Bool} (hmade : s = none → memory ≠ .noSource)
      (hr : r = (s.getD SequencedState.init).handleSample opts globalPendingQueries memory sn content) :
      SourceStep opts globalPendingQueries (.sample sn memory content) s r.1.2
        (some { r.1.1 with pendingQueries := n })
  | notMade {sn : UInt32} {content : α} :
      SourceStep opts globalPendingQueries (.sample sn .noSource content) none [] none
  | flush {state : SequencedState α} {own : Bool} :
      SourceStep opts globalPendingQueries (.flush own) (some state) (state.atEnd own).flush.2
        (some (state.atEnd own).flush.1)
  | flushNone {own : Bool} : SourceStep opts globalPendingQueries (.flush own) none [] none

namespace AdvancedSubscriber

variable {Source Zid α : Type} [DecidableEq Source] [LinearOrder Zid]
  (w : AdvancedSubscriber Source Zid α)

/-! ### Events of a source -/

/-- A sample, for a source -/
def sampleEvent (id : Source) (sample : Sample Source Zid α) (memory : Memory) : SourceEvent α :=
  match sample.sourceInfo with
  | some (source, sn) => if source = id then .sample sn memory sample.content else .quiet
  | none => .quiet

/-- The end of a query, for a source -/
def dropEvent (id : Source) : QueryKind Source Zid → SourceEvent α
  | .initial => if lowered w.globalPendingQueries = 0 then .flush false else .quiet
  | .sequenced source => if source = id ∧ w.globalPendingQueries = 0 then .flush true else .quiet
  | .timestamped _ => .quiet

/-- An event, for a source -/
def sourceEvent (id : Source) : AdvancedEvent Source Zid α → SourceEvent α
  | .live sample memory | .reply sample memory =>
    if w.isUndeclaring then .quiet else sampleEvent id sample memory
  | .returned kind exit =>
    if (kind, .calling) ∈ w.queries ∧ ¬exit.keeps then w.dropEvent id kind else .quiet
  | .drop kind calling =>
    if (kind, if calling then .calling else .pending) ∈ w.queries then w.dropEvent id kind
    else .quiet
  | _ => .quiet

/-- From `w` to `w'`, the source makes a step for an event. -/
def Advances (id : Source) (e : SourceEvent α) (w' : AdvancedSubscriber Source Zid α) : Prop :=
  ∃ outs, w'.seen id = w.seen id ++ outs ∧
    SourceStep w.opts w.globalPendingQueries e (w.sequencedStates id) outs (w'.sequencedStates id)

variable {w}

omit [DecidableEq Source] in
theorem Advances.of_eq {id : Source} {w' : AdvancedSubscriber Source Zid α}
    (hseen : w'.seen id = w.seen id) (hstates : w'.sequencedStates id = w.sequencedStates id) :
    w.Advances id .quiet w' :=
  ⟨[], by rw [hseen, List.append_nil], hstates ▸ .same⟩

omit [DecidableEq Source] in
/-- Only the source and the outputs are looked at. -/
theorem Advances.congr {id : Source} {e : SourceEvent α} {w' w'' : AdvancedSubscriber Source Zid α}
    (h : w.Advances id e w') (hseen : w''.seen id = w'.seen id)
    (hstates : w''.sequencedStates id = w'.sequencedStates id) : w.Advances id e w'' := by
  obtain ⟨outs, hout, hstep⟩ := h
  exact ⟨outs, hseen.trans hout, hstates ▸ hstep⟩

section Put

variable {id other : Source} {r : SequencedState α × List (Output α)}

@[simp] theorem putSequenced_states_self :
    (w.putSequenced id r).sequencedStates id = some r.1 := by simp [putSequenced]

@[simp] theorem putSequenced_seen_self : (w.putSequenced id r).seen id = w.seen id ++ r.2 := by
  simp [putSequenced]

theorem putSequenced_states_of_ne (h : other ≠ id) :
    (w.putSequenced id r).sequencedStates other = w.sequencedStates other := by
  simp [putSequenced, h]

theorem putSequenced_seen_of_ne (h : other ≠ id) :
    (w.putSequenced id r).seen other = w.seen other := by
  simp [putSequenced, h]

theorem advances_put_of_ne (h : other ≠ id) : w.Advances other .quiet (w.putSequenced id r) :=
  .of_eq (putSequenced_seen_of_ne h) (putSequenced_states_of_ne h)

omit [DecidableEq Source] in
theorem sequencedState_eq_none {memory : Memory} (h : w.sequencedState id memory = none) :
    w.sequencedStates id = none ∧ memory = .noSource := by
  unfold sequencedState at h
  cases hstate : w.sequencedStates id with
  | some found =>
    rw [hstate] at h
    exact nomatch h
  | none =>
    rw [hstate] at h
    exact ⟨rfl, by simpa using h⟩

variable {state : SequencedState α}

omit [DecidableEq Source] in
theorem sequencedState_eq_some {memory : Memory} (h : w.sequencedState id memory = some state) :
    (w.sequencedStates id).getD .init = state ∧ (w.sequencedStates id = none → memory ≠ .noSource) := by
  unfold sequencedState at h
  cases hstate : w.sequencedStates id with
  | some found =>
    rw [hstate] at h
    exact ⟨some.inj h, nofun⟩
  | none =>
    rw [hstate] at h
    by_cases hmemory : memory = .noSource
    · simp [hmemory] at h
    · simp only [hmemory, if_false, some.injEq] at h
      exact ⟨h, fun _ ↦ hmemory⟩

/-- A source is put with another number of pending queries, or made with it. -/
theorem advances_put_count {n : UInt64} (h : (w.sequencedStates id).getD .init = state) :
    w.Advances other .quiet (w.putSequenced id ({ state with pendingQueries := n }, [])) := by
  by_cases hid : other = id
  · subst hid
    refine ⟨[], putSequenced_seen_self, ?_⟩
    rw [putSequenced_states_self, ← h]
    cases hstate : w.sequencedStates other with
    | some found => exact .counted
    | none => exact .made
  · exact advances_put_of_ne hid

theorem advances_startSequenced (h : (w.sequencedStates id).getD .init = state) :
    w.Advances other .quiet (w.startSequenced id state) :=
  (advances_put_count h).congr rfl rfl

end Put

/-! ### The events one by one -/

variable {id : Source}

theorem handleSample_advances (sample : Sample Source Zid α) (memory : Memory) :
    w.Advances id (sampleEvent id sample memory) (w.handleSample sample memory).1 := by
  obtain ⟨sourceInfo, timestamp, content⟩ := sample
  unfold handleSample sampleEvent
  match sourceInfo, timestamp with
  | some (source, sn), _ =>
    simp only
    cases hstate : w.sequencedState source memory with
    | none =>
      obtain ⟨hnone, rfl⟩ := sequencedState_eq_none hstate
      split_ifs with hid
      · subst hid
        refine ⟨[], (List.append_nil _).symm, ?_⟩
        rw [hnone]
        exact .notMade
      · exact .of_eq rfl rfl
    | some state =>
      obtain ⟨hget, hmade⟩ := sequencedState_eq_some hstate
      split_ifs with hid
      · subst hid
        refine ⟨_, putSequenced_seen_self, ?_⟩
        rw [putSequenced_states_self]
        exact .sample hmade (by rw [hget])
      · exact advances_put_of_ne (Ne.symm hid)
  | none, some timestamp =>
    simp only
    cases w.timestampedState (ofLex timestamp).2 memory <;> exact .of_eq rfl rfl
  | none, none => exact .of_eq rfl rfl

/-- A sample that is handled leaves the state of its source, and a query may be started then. -/
theorem live_advances (sample : Sample Source Zid α) (memory : Memory) :
    w.Advances id (sampleEvent id sample memory) (w.live sample memory) := by
  have hsample : w.Advances id (sampleEvent id sample memory) (w.handleSample sample memory).1 :=
    handleSample_advances sample memory
  unfold live
  simp only
  split
  · next source sn _ hinfo =>
    split
    · exact hsample
    · next state hstate =>
      split_ifs
      · by_cases hid : source = id
        · subst hid
          obtain ⟨outs, hseen, hstep⟩ := hsample
          refine ⟨outs, by simpa [startSequenced] using hseen, ?_⟩
          unfold sampleEvent at hstep ⊢
          rw [hinfo] at hstep ⊢
          simp only [if_true] at hstep ⊢
          have hstart : ((w.handleSample sample memory).1.startSequenced source state).sequencedStates
              source = some { state with pendingQueries := state.pendingQueries + 1 } :=
            putSequenced_states_self
          rw [hstate] at hstep
          rw [hstart]
          generalize w.sequencedStates source = before at hstep ⊢
          generalize hafter : some state = after at hstep
          cases hstep with
          | sample hmade hr =>
            cases hafter
            exact .sample hmade hr
          | notMade => exact nomatch hafter
        · exact hsample.congr (putSequenced_seen_of_ne (Ne.symm hid))
            (putSequenced_states_of_ne (Ne.symm hid))
      · exact hsample
  · exact hsample

theorem heartbeat_advances (source : Source) (sn : UInt32) (memory : Memory) :
    w.Advances id .quiet (w.heartbeat source sn memory) := by
  unfold heartbeat
  split_ifs
  · exact .of_eq rfl rfl
  · cases hstate : w.sequencedState source memory with
    | none => exact .of_eq rfl rfl
    | some state =>
      simp only
      have hget := (sequencedState_eq_some hstate).1
      split_ifs
      · exact advances_startSequenced hget
      · exact advances_put_count (n := state.pendingQueries) hget

theorem publisher_advances (source : Source) (memory : Memory) :
    w.Advances id .quiet (w.publisher source memory) := by
  unfold publisher
  cases hstate : w.sequencedState source memory with
  | none => exact .of_eq rfl rfl
  | some state => exact advances_startSequenced (sequencedState_eq_some hstate).1

omit [DecidableEq Source] in
theorem publisherUhlc_advances (zid : Zid) (memory : Memory) :
    w.Advances id .quiet (w.publisherUhlc zid memory) := by
  unfold publisherUhlc
  cases w.timestampedState zid memory <;> exact .of_eq rfl rfl

theorem periodic_advances (source : Source) : w.Advances id .quiet (w.periodic source) := by
  unfold periodic
  split_ifs
  · exact .of_eq rfl rfl
  · cases hstate : w.sequencedStates source with
    | none => exact .of_eq rfl rfl
    | some state =>
      simp only
      split_ifs
      · exact .of_eq rfl rfl
      · exact advances_startSequenced (by rw [hstate]; rfl)

theorem initialQueryDropped_advances :
    w.Advances id (w.dropEvent id .initial) w.initialQueryDropped := by
  unfold initialQueryDropped dropEvent
  split_ifs
  · cases hstate : w.sequencedStates id with
    | none =>
      refine ⟨[], by simp [hstate], ?_⟩
      simp only [hstate, map_none]
      exact .flushNone
    | some state =>
      refine ⟨state.flush.2, by simp [hstate], ?_⟩
      simp only [hstate, map_some]
      exact .flush
  all_goals exact .of_eq rfl rfl

theorem queryDropHandler_advances (kind : QueryKind Source Zid) :
    w.Advances id (w.dropEvent id kind) (w.queryDropHandler kind) := by
  cases kind with
  | initial => exact initialQueryDropped_advances
  | timestamped zid =>
    unfold queryDropHandler
    simp only
    cases w.timestampedStates zid <;> exact .of_eq rfl rfl
  | sequenced source =>
    unfold queryDropHandler dropEvent
    cases hstate : w.sequencedStates source with
    | none =>
      simp only [hstate]
      split_ifs with h
      · refine ⟨[], (List.append_nil _).symm, ?_⟩
        rw [← h.1, hstate]
        exact .flushNone
      · exact .of_eq rfl rfl
    | some state =>
      simp only [hstate]
      by_cases hid : source = id
      · subst hid
        refine ⟨_, putSequenced_seen_self, ?_⟩
        rw [putSequenced_states_self, hstate]
        unfold SequencedState.queryDropped
        by_cases hglobal : w.globalPendingQueries = 0
        · simp only [hglobal, true_and, if_true]
          exact .flush
        · simp only [hglobal, and_false, if_false]
          exact .counted
      · rw [if_neg fun h ↦ hid h.1]
        exact advances_put_of_ne (Ne.symm hid)

theorem settle_advances (kind : QueryKind Source Zid) (hafter : (w.settle kind).isUndeclaring = false) :
    w.Advances id .quiet (w.settle kind) := by
  cases kind with
  | initial =>
    unfold settle undeclare at hafter ⊢
    split_ifs at hafter ⊢ with h
    exact .of_eq rfl rfl
  | timestamped zid =>
    unfold settle
    simp only
    cases w.timestampedStates zid <;> exact .of_eq rfl rfl
  | sequenced source =>
    unfold settle
    cases hstate : w.sequencedStates source with
    | none =>
      simp only [hstate]
      exact .of_eq rfl rfl
    | some state =>
      simp only [hstate]
      exact advances_put_count (by simp [hstate])

/-! ### All events -/

/-- What an event can do to a source, as long as the subscriber is not undeclared -/
theorem step_advances (e : AdvancedEvent Source Zid α) (id : Source)
    (hafter : (w.step e).isUndeclaring = false) :
    w.Advances id (w.sourceEvent id e) (w.step e) := by
  cases e with
  | live sample memory =>
    simp only [step, sourceEvent]
    split_ifs
    · exact .of_eq rfl rfl
    · exact live_advances sample memory
  | reply sample memory =>
    simp only [step, sourceEvent]
    split_ifs
    · exact .of_eq rfl rfl
    · exact handleSample_advances sample memory
  | heartbeat source sn memory =>
    simp only [step, sourceEvent]
    split_ifs
    · exact .of_eq rfl rfl
    · exact heartbeat_advances source sn memory
  | publisher source memory =>
    simp only [step, sourceEvent]
    split_ifs
    · exact .of_eq rfl rfl
    · exact publisher_advances source memory
  | publisherUhlc zid memory =>
    simp only [step, sourceEvent]
    split_ifs
    · exact .of_eq rfl rfl
    · exact publisherUhlc_advances zid memory
  | periodic source =>
    simp only [step, sourceEvent]
    split_ifs
    · exact .of_eq rfl rfl
    · exact periodic_advances source
  | refuse kind =>
    simp only [step, sourceEvent]
    split_ifs <;> exact .of_eq rfl rfl
  | call kind =>
    simp only [step, sourceEvent]
    split_ifs <;> exact .of_eq rfl rfl
  | returned kind exit =>
    simp only [step, sourceEvent]
    by_cases hmem : (kind, QueryStage.calling) ∈ w.queries
    · cases exit.keeps
      · simp only [hmem, if_true, true_and, Bool.false_eq_true, not_false_iff, if_false]
        exact (queryDropHandler_advances kind).congr rfl rfl
      · simp only [hmem, if_true, not_true, and_false, if_false]
        exact .of_eq rfl rfl
    · simp only [hmem, if_false, false_and]
      exact .of_eq rfl rfl
  | returnedDropped kind exit =>
    simp only [step, sourceEvent]
    split_ifs <;> exact .of_eq rfl rfl
  | drop kind calling =>
    simp only [step, sourceEvent]
    cases calling
    · simp only [Bool.false_eq_true, if_false]
      split_ifs
      · exact (queryDropHandler_advances kind).congr rfl rfl
      · exact .of_eq rfl rfl
    · simp only [if_true]
      split_ifs
      · exact (queryDropHandler_advances kind).congr rfl rfl
      · exact .of_eq rfl rfl
  | settle kind failed =>
    simp only [step, sourceEvent] at hafter ⊢
    by_cases hmem : (kind, if failed then QueryStage.failed else .refused) ∈ w.queries
    · rw [if_pos hmem] at hafter ⊢
      cases hundeclaring : w.isUndeclaring
      · rw [hundeclaring] at hafter
        exact (settle_advances kind hafter).congr rfl rfl
      · exact .of_eq rfl rfl
    · rw [if_neg hmem]
      exact .of_eq rfl rfl
  | undeclare =>
    simp only [step, sourceEvent, undeclare] at hafter ⊢
    split_ifs at hafter ⊢
    exact .of_eq rfl rfl

/-! ### After the undeclaration -/

variable (w) in
/-- A subscriber that is being undeclared has no sources any more. -/
def Cleared : Prop :=
  w.isUndeclaring = true → (∀ id, w.sequencedStates id = none) ∧ ∀ id, w.timestampedStates id = none

/-- Nothing is seen from `w` to `w'`, where there are no sources. -/
structure Silent (w w' : AdvancedSubscriber Source Zid α) : Prop where
  seen : w'.seen = w.seen
  seenTimestamped : w'.seenTimestamped = w.seenTimestamped
  sequencedStates : ∀ id, w'.sequencedStates id = none
  timestampedStates : ∀ id, w'.timestampedStates id = none

omit [DecidableEq Source] in
theorem undeclare_silent (h : w.Cleared) : Silent w w.undeclare := by
  unfold undeclare
  split_ifs with hundeclaring
  · exact ⟨rfl, rfl, (h hundeclaring).1, (h hundeclaring).2⟩
  · exact ⟨rfl, rfl, fun _ ↦ rfl, fun _ ↦ rfl⟩

theorem queryDropHandler_silent (h : w.Cleared) (hundeclaring : w.isUndeclaring = true)
    (kind : QueryKind Source Zid) : Silent w (w.queryDropHandler kind) := by
  obtain ⟨hsequenced, htimestamped⟩ := h hundeclaring
  cases kind with
  | initial =>
    simp only [queryDropHandler, initialQueryDropped]
    split_ifs
    · constructor <;> simp [hsequenced, htimestamped]
    · exact ⟨rfl, rfl, hsequenced, htimestamped⟩
  | sequenced source =>
    simp only [queryDropHandler, hsequenced]
    exact ⟨rfl, rfl, hsequenced, htimestamped⟩
  | timestamped zid =>
    simp only [queryDropHandler, htimestamped]
    exact ⟨rfl, rfl, hsequenced, htimestamped⟩

theorem isUndeclaring_queryDropHandler (kind : QueryKind Source Zid) :
    (w.queryDropHandler kind).isUndeclaring = w.isUndeclaring := by
  cases kind with
  | initial =>
    simp only [queryDropHandler, initialQueryDropped]
    split_ifs <;> rfl
  | sequenced source =>
    simp only [queryDropHandler]
    cases w.sequencedStates source <;> rfl
  | timestamped zid =>
    simp only [queryDropHandler]
    cases w.timestampedStates zid <;> rfl

theorem isUndeclaring_handleSample (sample : Sample Source Zid α) (memory : Memory) :
    (w.handleSample sample memory).1.isUndeclaring = w.isUndeclaring := by
  unfold handleSample
  split
  · split <;> rfl
  · split <;> rfl
  · rfl

theorem isUndeclaring_live (sample : Sample Source Zid α) (memory : Memory) :
    (w.live sample memory).isUndeclaring = w.isUndeclaring := by
  have hsample := isUndeclaring_handleSample (w := w) sample memory
  unfold live
  simp only
  split
  · split
    · exact hsample
    · split_ifs <;> exact hsample
  · exact hsample

theorem isUndeclaring_heartbeat (source : Source) (sn : UInt32) (memory : Memory) :
    (w.heartbeat source sn memory).isUndeclaring = w.isUndeclaring := by
  unfold heartbeat
  split_ifs
  · rfl
  · cases w.sequencedState source memory with
    | none => rfl
    | some state =>
      simp only
      split_ifs <;> rfl

theorem isUndeclaring_periodic (source : Source) :
    (w.periodic source).isUndeclaring = w.isUndeclaring := by
  unfold periodic
  split_ifs
  · rfl
  · cases w.sequencedStates source with
    | none => rfl
    | some state =>
      simp only
      split_ifs <;> rfl

/-- The undeclaration of a subscriber is not taken back. -/
theorem step_isUndeclaring (hundeclaring : w.isUndeclaring = true)
    (e : AdvancedEvent Source Zid α) : (w.step e).isUndeclaring = true := by
  cases e with
  | live | reply | heartbeat | publisher | publisherUhlc | periodic =>
    simp only [step, hundeclaring, if_true]
  | refuse | call | returnedDropped =>
    simp only [step]
    split_ifs <;> exact hundeclaring
  | returned kind exit =>
    have hdropped := (isUndeclaring_queryDropHandler kind).trans hundeclaring
    simp only [step]
    split_ifs
    · exact hundeclaring
    · exact hdropped
    · exact hdropped
    · exact hundeclaring
  | drop kind calling =>
    have hdropped := (isUndeclaring_queryDropHandler kind).trans hundeclaring
    simp only [step]
    split_ifs
    · exact hdropped
    · exact hundeclaring
    · exact hdropped
    · exact hundeclaring
  | settle kind failed =>
    simp only [step, hundeclaring, if_true]
    by_cases hmem : (kind, if failed then QueryStage.failed else .refused) ∈ w.queries
    · rw [if_pos hmem]
      exact hundeclaring
    · rw [if_neg hmem]
      exact hundeclaring
  | undeclare =>
    simp only [step, undeclare, hundeclaring, if_true]

/-- An event after which the subscriber is being undeclared shows nothing. -/
theorem step_silent (h : w.Cleared) (e : AdvancedEvent Source Zid α)
    (hafter : (w.step e).isUndeclaring = true) : Silent w (w.step e) := by
  have hsame (hundeclaring : w.isUndeclaring = true) : Silent w w :=
    ⟨rfl, rfl, (h hundeclaring).1, (h hundeclaring).2⟩
  have hmoved {w' : AdvancedSubscriber Source Zid α} {kind : QueryKind Source Zid}
      {here : QueryStage} {there : Option QueryStage} (hsilent : Silent w w') :
      Silent w (w'.move kind here there) := ⟨hsilent.1, hsilent.2, hsilent.3, hsilent.4⟩
  cases hundeclaring : w.isUndeclaring with
  | true =>
    cases e with
    | live | reply | heartbeat | publisher | publisherUhlc | periodic =>
      simp only [step, hundeclaring, if_true]
      exact hsame hundeclaring
    | refuse | call | returnedDropped =>
      simp only [step]
      split_ifs
      all_goals first
        | exact hmoved (hsame hundeclaring)
        | exact hsame hundeclaring
    | returned kind exit =>
      simp only [step]
      split_ifs
      · exact hmoved (hsame hundeclaring)
      · exact hmoved (queryDropHandler_silent h hundeclaring kind)
      · exact hmoved (queryDropHandler_silent h hundeclaring kind)
      · exact hsame hundeclaring
    | drop kind calling =>
      simp only [step]
      split_ifs
      · exact hmoved (queryDropHandler_silent h hundeclaring kind)
      · exact hsame hundeclaring
      · exact hmoved (queryDropHandler_silent h hundeclaring kind)
      · exact hsame hundeclaring
    | settle kind failed =>
      simp only [step, hundeclaring, if_true]
      by_cases hmem : (kind, if failed then QueryStage.failed else .refused) ∈ w.queries
      · rw [if_pos hmem]
        exact hmoved (hsame hundeclaring)
      · rw [if_neg hmem]
        exact hsame hundeclaring
    | undeclare => exact undeclare_silent h
  | false =>
    -- only two events make a subscriber undeclare itself
    cases e with
    | live sample memory =>
      simp only [step, hundeclaring, Bool.false_eq_true, if_false, isUndeclaring_live] at hafter
    | reply sample memory =>
      simp only [step, hundeclaring, Bool.false_eq_true, if_false, isUndeclaring_handleSample] at hafter
    | heartbeat source sn memory =>
      simp only [step, hundeclaring, Bool.false_eq_true, if_false, isUndeclaring_heartbeat] at hafter
    | publisher source memory =>
      simp only [step, hundeclaring, Bool.false_eq_true, if_false, publisher] at hafter
      split at hafter <;> exact absurd (hundeclaring.symm.trans hafter) nofun
    | publisherUhlc zid memory =>
      simp only [step, hundeclaring, Bool.false_eq_true, if_false, publisherUhlc] at hafter
      split at hafter <;> exact absurd (hundeclaring.symm.trans hafter) nofun
    | periodic source =>
      simp only [step, hundeclaring, Bool.false_eq_true, if_false, isUndeclaring_periodic] at hafter
    | refuse | call | returnedDropped =>
      simp only [step] at hafter
      split_ifs at hafter <;> exact absurd (hundeclaring.symm.trans hafter) nofun
    | returned kind exit =>
      simp only [step] at hafter
      split_ifs at hafter
      all_goals first
        | exact absurd (hundeclaring.symm.trans hafter) nofun
        | exact absurd ((isUndeclaring_queryDropHandler kind).trans hundeclaring |>.symm.trans hafter)
            nofun
    | drop kind calling =>
      simp only [step] at hafter
      split_ifs at hafter
      all_goals first
        | exact absurd (hundeclaring.symm.trans hafter) nofun
        | exact absurd ((isUndeclaring_queryDropHandler kind).trans hundeclaring |>.symm.trans hafter)
            nofun
    | settle kind failed =>
      simp only [step, hundeclaring, Bool.false_eq_true, if_false] at hafter ⊢
      by_cases hmem : (kind, if failed then QueryStage.failed else .refused) ∈ w.queries
      · rw [if_pos hmem] at hafter ⊢
        cases kind with
        | initial => exact hmoved (undeclare_silent h)
        | sequenced source =>
          simp only [move, settle] at hafter
          split at hafter <;> exact absurd (hundeclaring.symm.trans hafter) nofun
        | timestamped zid =>
          simp only [move, settle] at hafter
          split at hafter <;> exact absurd (hundeclaring.symm.trans hafter) nofun
      · rw [if_neg hmem] at hafter
        exact absurd (hundeclaring.symm.trans hafter) nofun
    | undeclare => exact undeclare_silent h

theorem step_cleared (h : w.Cleared) (e : AdvancedEvent Source Zid α) : (w.step e).Cleared :=
  fun hafter ↦ ⟨(step_silent h e hafter).sequencedStates, (step_silent h e hafter).timestampedStates⟩

omit [DecidableEq Source] in
theorem init_cleared (historyEnabled : Bool) (maxSamples : ℕ) (retransmission : Bool) :
    (init historyEnabled maxSamples retransmission : AdvancedSubscriber Source Zid α).Cleared :=
  fun _ ↦ ⟨fun _ ↦ rfl, fun _ ↦ rfl⟩

/-! ### Runs -/

/-- An invariant of the steps up to the one with which the subscriber undeclares itself, and what
follows from it and the silent steps from there on keep, hold after every run. -/
theorem run_kept {I P : AdvancedSubscriber Source Zid α → Prop} (hseen : ∀ w, I w → P w)
    (hstep : ∀ w e, (w.step e).isUndeclaring = false → I w → I (w.step e))
    (hsilent : ∀ w e, w.Cleared → (w.step e).isUndeclaring = true → P w → P (w.step e))
    (events : List (AdvancedEvent Source Zid α)) {w : AdvancedSubscriber Source Zid α}
    (hcleared : w.Cleared) (hlive : I w) : P (w.run events) := by
  suffices h : ∀ w : AdvancedSubscriber Source Zid α, w.Cleared →
      (w.isUndeclaring = false → I w) → P w → P (w.run events) from
    h w hcleared (fun _ ↦ hlive) (hseen w hlive)
  clear hlive hcleared w
  induction events with
  | nil => exact fun w _ _ hkept ↦ hkept
  | cons e events ih =>
    intro w hcleared hlive hkept
    cases hafter : (w.step e).isUndeclaring with
    | false =>
      have hbefore : w.isUndeclaring = false := by
        by_contra hundeclaring
        have hstays := step_isUndeclaring (Bool.eq_true_of_not_eq_false hundeclaring) e
        exact absurd (hafter.symm.trans hstays) nofun
      have hnext := hstep w e hafter (hlive hbefore)
      exact ih (w.step e) (step_cleared hcleared e) (fun _ ↦ hnext) (hseen _ hnext)
    | true =>
      refine ih (w.step e) (step_cleared hcleared e) (fun hfalse ↦ ?_) ?_
      · exact absurd (hafter.symm.trans hfalse) nofun
      · exact hsilent w e hcleared hafter hkept

/-- What holds of a source that is not known, and is kept by its steps, holds of what was seen of it
after every run. -/
theorem run_source {P : Option (SequencedState α) → List (Output α) → Prop} (hnone : P none [])
    (hstep : ∀ {opts : DeliveryOptions} {globalPendingQueries : UInt64} {e : SourceEvent α}
      {s s' : Option (SequencedState α)} {outs told : List (Output α)},
      SourceStep opts globalPendingQueries e s outs s' → P s told → P s' (told ++ outs))
    (historyEnabled : Bool) (maxSamples : ℕ) (retransmission : Bool)
    (events : List (AdvancedEvent Source Zid α)) (id : Source) :
    ∃ s, P s (((init historyEnabled maxSamples retransmission).run events).seen id) := by
  refine run_kept (I := fun w ↦ P (w.sequencedStates id) (w.seen id))
    (P := fun w ↦ ∃ s, P s (w.seen id)) (fun w h ↦ ⟨_, h⟩) (fun w e hafter hlive ↦ ?_)
    (fun w e hcleared hafter hkept ↦ (step_silent hcleared e hafter).seen ▸ hkept) events
    (init_cleared _ _ _) hnone
  obtain ⟨outs, hout, hsource⟩ := step_advances e id hafter
  rw [hout]
  exact hstep hsource hlive

end AdvancedSubscriber

end ZenohPico.Api
