import Mathlib.Data.List.Count
import ZenohPico.Api.AdvancedSources

/-!
The counters of the queries of an advanced subscriber.

The section that starts a query raises a counter, and the drop handler lowers it. When the start
fails, the issuer lowers it as well, which is right only if the query did not get as far as `z_get`:
`z_get` owns the closure and runs the drop handler before it returns an error. The initial query is
the other way round: its issuer does not lower the counter when the query is refused. In all other
runs the counters are the numbers of the outstanding queries (`Reached.queriesCounted`).
-/

open List Option

namespace ZenohPico.Api

namespace AdvancedSubscriber

variable {Source Zid α : Type} [DecidableEq Source] [LinearOrder Zid]
  (w : AdvancedSubscriber Source Zid α)

/-- The queries of a kind whose drop handler has not run, and which were not taken back -/
def outstanding (kind : QueryKind Source Zid) : ℕ :=
  w.queries.countP fun q ↦ q.1 = kind ∧ q.2.outstanding

/-- The counter of the queries of a kind, zero for a source that is not known -/
def counter : QueryKind Source Zid → UInt64
  | .initial => w.globalPendingQueries
  | .sequenced id => ((w.sequencedStates id).map (·.pendingQueries)).getD 0
  | .timestamped id => ((w.timestampedStates id).map (·.pendingQueries)).getD 0

/-- There is a counter for the queries of the kind. -/
def Known : QueryKind Source Zid → Prop
  | .initial => True
  | .sequenced id => w.sequencedStates id ≠ none
  | .timestamped id => w.timestampedStates id ≠ none

/-- The counters are the numbers of the outstanding queries. -/
def QueriesCounted : Prop := ∀ kind, w.Known kind → (w.counter kind).toNat = w.outstanding kind

/-- The condition on an event: `z_get` does not fail for a recovery query, the initial query gets as
far as `z_get`, and the contexts of the queries are fewer than the numbers of a counter. -/
structure Handed (e : AdvancedEvent Source Zid α) : Prop where
  room : ∀ kind, w.outstanding kind + 1 < 0x10000000000000000
  handed : ∀ kind exit, e = .returned kind exit ∨ e = .returnedDropped kind exit →
    kind = .initial ∨ exit.ok = true
  initial : e ≠ .refuse .initial

variable {w}

/-! ### Counting -/

theorem toNat_lowered (n : UInt64) : (lowered n).toNat = n.toNat - 1 := by
  unfold lowered
  split_ifs with h
  · rw [UInt64.toNat_sub_of_le]
    · rfl
    · exact UInt64.le_iff_toNat_le.mpr (UInt64.lt_iff_toNat_lt.mp h)
  · have := UInt64.lt_iff_toNat_lt.not.mp h
    have hzero : (0 : UInt64).toNat = 0 := rfl
    omega

theorem toNat_pred {n : UInt64} (h : n.toNat ≠ 0) : (n - 1).toNat = n.toNat - 1 := by
  rw [UInt64.toNat_sub_of_le]
  · rfl
  · refine UInt64.le_iff_toNat_le.mpr ?_
    have hone : (1 : UInt64).toNat = 1 := rfl
    omega

theorem toNat_succ {n : UInt64} (h : n.toNat + 1 < 0x10000000000000000) :
    (n + 1).toNat = n.toNat + 1 := by
  rw [UInt64.toNat_add]
  have hone : (1 : UInt64).toNat = 1 := rfl
  omega

section Move

variable {kind other : QueryKind Source Zid} {here : QueryStage} {there : Option QueryStage}

variable (other there) in
theorem outstanding_move (hmem : (kind, here) ∈ w.queries) :
    (w.move kind here there).outstanding other + (if kind = other ∧ here.outstanding then 1 else 0) =
      w.outstanding other + (if kind = other ∧ there.any QueryStage.outstanding then 1 else 0) := by
  unfold outstanding move
  rw [countP_append, countP_erase]
  have hpos : kind = other ∧ here.outstanding →
      0 < w.queries.countP fun q ↦ q.1 = other ∧ q.2.outstanding :=
    fun h ↦ countP_pos_iff.mpr ⟨_, hmem, by simpa using h⟩
  cases there with
  | none =>
    simp only [map_none, toList_none, countP_nil, any_none, hmem]
    split_ifs <;> simp_all
  | some stage =>
    simp only [map_some, toList_some, countP_singleton, any_some]
    split_ifs
    all_goals
      simp_all
      try omega

/-- A query that stays as outstanding as it was -/
theorem outstanding_move_same (hmem : (kind, here) ∈ w.queries)
    (hsame : here.outstanding = there.any QueryStage.outstanding) :
    (w.move kind here there).outstanding other = w.outstanding other := by
  have h := outstanding_move other there hmem
  rw [hsame] at h
  omega

/-- A query that is outstanding no longer -/
theorem outstanding_move_done (hmem : (kind, here) ∈ w.queries) (hhere : here.outstanding = true)
    (hthere : there.any QueryStage.outstanding = false) :
    (w.move kind here there).outstanding other =
      if other = kind then w.outstanding kind - 1 else w.outstanding other := by
  have h := outstanding_move other there hmem
  rw [hhere, hthere] at h
  split_ifs with heq
  · subst heq
    simp only [and_self, if_true, Bool.false_eq_true, and_false, if_false] at h
    omega
  · simp only [Ne.symm heq, false_and, if_false] at h
    omega

theorem outstanding_pos (hmem : (kind, here) ∈ w.queries) (hhere : here.outstanding = true) :
    0 < w.outstanding kind :=
  countP_pos_iff.mpr ⟨_, hmem, by simpa using hhere⟩

end Move

/-! ### The counters -/

@[simp] theorem pendingQueries_flush (state : SequencedState α) :
    state.flush.1.pendingQueries = state.pendingQueries := by
  unfold SequencedState.flush
  split_ifs <;> rfl

@[simp] theorem pendingQueries_flushTimestamped (state : TimestampedState Zid α) :
    state.flush.1.pendingQueries = state.pendingQueries := by
  unfold TimestampedState.flush
  split_ifs <;> rfl

theorem pendingQueries_queryDropped (globalPendingQueries : UInt64) (state : SequencedState α) :
    (state.queryDropped globalPendingQueries).1.pendingQueries = lowered state.pendingQueries := by
  unfold SequencedState.queryDropped
  simp only
  split_ifs
  · exact pendingQueries_flush _
  · rfl

theorem pendingQueries_queryDroppedTimestamped (globalPendingQueries : UInt64)
    (state : TimestampedState Zid α) :
    (state.queryDropped globalPendingQueries).1.pendingQueries = lowered state.pendingQueries := by
  unfold TimestampedState.queryDropped
  simp only
  split_ifs
  · exact pendingQueries_flushTimestamped _
  · rfl

theorem pendingQueries_handleSample (opts : DeliveryOptions) (globalPendingQueries : UInt64)
    (memory : Memory) (state : SequencedState α) (sn : UInt32) (sample : α) :
    (state.handleSample opts globalPendingQueries memory sn sample).1.1.pendingQueries =
      state.pendingQueries := by
  unfold SequencedState.handleSample
  split
  · simp only
    split_ifs
    · rfl
    · split <;> rfl
    · rfl
    · rfl
  · simp only
    split_ifs <;> rfl

theorem pendingQueries_handleSampleTimestamped (opts : DeliveryOptions)
    (globalPendingQueries : UInt64) (memory : Memory) (state : TimestampedState Zid α)
    (timestamp : Timestamp Zid) (sample : α) :
    (state.handleSample opts globalPendingQueries memory timestamp sample).1.1.pendingQueries =
      state.pendingQueries := by
  unfold TimestampedState.handleSample
  simp only
  split_ifs
  · rfl
  · exact pendingQueries_flushTimestamped _
  · rfl
  · rfl

theorem counter_putSequenced (id : Source) (r : SequencedState α × List (Output α))
    (other : QueryKind Source Zid) : (w.putSequenced id r).counter other =
      if other = .sequenced id then r.1.pendingQueries else w.counter other := by
  cases other with
  | initial => rfl
  | timestamped zid => rfl
  | sequenced source =>
    by_cases h : source = id
    · simp [counter, h]
    · simp [counter, putSequenced_states_of_ne h, h]

theorem counter_putTimestamped (id : Zid) (r : TimestampedState Zid α × List (Timestamp Zid × α))
    (other : QueryKind Source Zid) : (w.putTimestamped id r).counter other =
      if other = .timestamped id then r.1.pendingQueries else w.counter other := by
  cases other with
  | initial => rfl
  | sequenced source => rfl
  | timestamped zid =>
    by_cases h : zid = id
    · simp [counter, putTimestamped, h]
    · simp [counter, putTimestamped, h]

omit [DecidableEq Source] in
/-- The state of a source, made if need be, has its counter. -/
theorem counter_sequencedState {id : Source} {memory : Memory} {state : SequencedState α}
    (h : w.sequencedState id memory = some state) :
    w.counter (.sequenced id) = state.pendingQueries := by
  have hget := (sequencedState_eq_some h).1
  cases hstate : w.sequencedStates id with
  | some found =>
    rw [hstate] at hget
    cases hget
    simp [counter, hstate]
  | none =>
    rw [hstate] at hget
    cases hget
    simp [counter, hstate, SequencedState.init]

variable {state : TimestampedState Zid α}

omit [DecidableEq Source] in
theorem counter_timestampedState {id : Zid} {memory : Memory}
    (h : w.timestampedState id memory = some state) :
    w.counter (.timestamped id) = state.pendingQueries := by
  unfold timestampedState at h
  cases hstate : w.timestampedStates id with
  | some found =>
    rw [hstate] at h
    cases h
    simp [counter, hstate]
  | none =>
    rw [hstate] at h
    simp only at h
    split_ifs at h
    cases h
    simp [counter, hstate, TimestampedState.init]

/-- The drop handler lowers the counter of its kind. -/
theorem counter_queryDropHandler (kind other : QueryKind Source Zid) :
    (w.queryDropHandler kind).counter other =
      if other = kind then lowered (w.counter kind) else w.counter other := by
  cases kind with
  | initial =>
    simp only [queryDropHandler, initialQueryDropped]
    split_ifs with hzero heq heq
    · subst heq
      rfl
    · cases other with
      | initial => exact absurd rfl heq
      | sequenced source =>
        simp only [counter, Option.map_map]
        cases w.sequencedStates source <;> simp
      | timestamped zid =>
        simp only [counter, Option.map_map]
        cases w.timestampedStates zid <;> simp
    · subst heq
      rfl
    · cases other with
      | initial => exact absurd rfl heq
      | sequenced source => rfl
      | timestamped zid => rfl
  | sequenced id =>
    simp only [queryDropHandler]
    split
    · next hnone =>
      split_ifs with heq
      · subst heq
        simp [counter, hnone, lowered]
      · rfl
    · next state hstate =>
      rw [counter_putSequenced, pendingQueries_queryDropped]
      simp [counter, hstate]
  | timestamped id =>
    simp only [queryDropHandler]
    split
    · next hnone =>
      split_ifs with heq
      · subst heq
        simp [counter, hnone, lowered]
      · rfl
    · next state hstate =>
      rw [counter_putTimestamped, pendingQueries_queryDroppedTimestamped]
      simp [counter, hstate]

/-- The handling of a sample does not count. -/
theorem counter_handleSample (sample : Sample Source Zid α) (memory : Memory)
    (kind : QueryKind Source Zid) : (w.handleSample sample memory).1.counter kind = w.counter kind := by
  unfold handleSample
  split
  · split
    · rfl
    · next state hstate =>
      rw [counter_putSequenced, pendingQueries_handleSample]
      split_ifs with heq
      · rw [heq, counter_sequencedState hstate]
      · rfl
  · split
    · rfl
    · next state hstate =>
      rw [counter_putTimestamped, pendingQueries_handleSampleTimestamped]
      split_ifs with heq
      · rw [heq, counter_timestampedState hstate]
      · rfl
  · cases kind <;> rfl

theorem queries_handleSample (sample : Sample Source Zid α) (memory : Memory) :
    (w.handleSample sample memory).1.queries = w.queries := by
  unfold handleSample
  split
  · split <;> rfl
  · split <;> rfl
  · rfl

theorem queries_queryDropHandler (kind : QueryKind Source Zid) :
    (w.queryDropHandler kind).queries = w.queries := by
  cases kind with
  | initial =>
    simp only [queryDropHandler, initialQueryDropped]
    split_ifs <;> rfl
  | sequenced id =>
    simp only [queryDropHandler]
    split <;> rfl
  | timestamped id =>
    simp only [queryDropHandler]
    split <;> rfl

/-! ### One event -/

/-- What holds between the events: the counters are right, as long as there are sources, no recovery
query was failed by `z_get`, and the initial query was not refused. -/
structure QueriesKept (w : AdvancedSubscriber Source Zid α) : Prop where
  counted : ∀ kind, w.isUndeclaring = false ∨ kind = .initial →
    (w.counter kind).toNat = w.outstanding kind
  failed : ∀ kind, (kind, .failed) ∈ w.queries → kind = .initial
  refused : (.initial, .refused) ∉ w.queries

variable {w' : AdvancedSubscriber Source Zid α}

/-- Only the counters and the queries are looked at. -/
theorem QueriesKept.congr (h : w.QueriesKept)
    (hcounter : ∀ kind, w'.isUndeclaring = false ∨ kind = .initial →
      (w.isUndeclaring = false ∨ kind = .initial) ∧ w'.counter kind = w.counter kind)
    (hqueries : w'.queries = w.queries) : w'.QueriesKept := by
  refine ⟨fun kind hkind ↦ ?_, fun kind hkind ↦ h.failed kind (hqueries ▸ hkind),
    hqueries ▸ h.refused⟩
  obtain ⟨htracked, heq⟩ := hcounter kind hkind
  unfold outstanding
  rw [heq, hqueries]
  exact h.counted kind htracked

/-- A query is started: its counter is raised. -/
theorem QueriesKept.start (h : w.QueriesKept) {kind : QueryKind Source Zid}
    (hlive : w.isUndeclaring = false) (hroom : w.outstanding kind + 1 < 0x10000000000000000)
    (hcounter : ∀ other, w'.counter other =
      if other = kind then w.counter kind + 1 else w.counter other)
    (hqueries : w'.queries = (kind, .starting) :: w.queries) : w'.QueriesKept := by
  refine ⟨fun other _ ↦ ?_, fun other hother ↦ ?_, fun hrefused ↦ ?_⟩
  · have hcount := h.counted kind (.inl hlive)
    have hcons : w'.outstanding other = w.outstanding other + if kind = other then 1 else 0 := by
      unfold outstanding
      rw [hqueries, countP_cons]
      simp [QueryStage.outstanding]
    rw [hcounter, hcons]
    split_ifs with heq hsame hsame
    · subst heq
      rw [toNat_succ (by rw [hcount]; exact hroom), hcount]
    · exact absurd heq.symm hsame
    · exact absurd hsame.symm heq
    · exact h.counted other (.inl hlive)
  · rw [hqueries] at hother
    rcases mem_cons.mp hother with heq | hmem
    · exact nomatch heq
    · exact h.failed other hmem
  · rw [hqueries] at hrefused
    rcases mem_cons.mp hrefused with heq | hmem
    · exact nomatch heq
    · exact h.refused hmem

theorem counter_startSequenced (id : Source) (state : SequencedState α)
    (other : QueryKind Source Zid) : (w.startSequenced id state).counter other =
      if other = .sequenced id then state.pendingQueries + 1 else w.counter other := by
  rw [← counter_putSequenced id ({ state with pendingQueries := state.pendingQueries + 1 }, [])]
  cases other <;> rfl

theorem counter_startTimestamped (id : Zid) (state : TimestampedState Zid α)
    (other : QueryKind Source Zid) : (w.startTimestamped id state).counter other =
      if other = .timestamped id then state.pendingQueries + 1 else w.counter other := by
  rw [← counter_putTimestamped id ({ state with pendingQueries := state.pendingQueries + 1 }, [])]
  cases other <;> rfl

theorem QueriesKept.startSequenced (h : w.QueriesKept) {id : Source} {state : SequencedState α}
    (hlive : w.isUndeclaring = false)
    (hroom : w.outstanding (.sequenced id) + 1 < 0x10000000000000000)
    (hstate : w.counter (.sequenced id) = state.pendingQueries) :
    (w.startSequenced id state).QueriesKept :=
  h.start hlive hroom (fun other ↦ by rw [counter_startSequenced, hstate]) rfl

theorem QueriesKept.startTimestamped (h : w.QueriesKept) {id : Zid}
    (hlive : w.isUndeclaring = false)
    (hroom : w.outstanding (.timestamped id) + 1 < 0x10000000000000000)
    (hstate : w.counter (.timestamped id) = state.pendingQueries) :
    (w.startTimestamped id state).QueriesKept :=
  h.start hlive hroom (fun other ↦ by rw [counter_startTimestamped, hstate]) rfl

/-- A query of the new list was there before, or is new in it. -/
theorem mem_move {kind other : QueryKind Source Zid} {here stage : QueryStage}
    {there : Option QueryStage} (hmem : (other, stage) ∈ (w.move kind here there).queries) :
    (other, stage) ∈ w.queries ∨ other = kind ∧ there = some stage := by
  unfold move at hmem
  rcases mem_append.mp hmem with hnew | hold
  · cases there with
    | none => exact nomatch hnew
    | some new =>
      have heq : (other, stage) = (kind, new) := by simpa using hnew
      cases heq
      exact .inr ⟨rfl, rfl⟩
  · exact .inl (mem_of_mem_erase hold)

/-- The stages that only a query of one kind may go to -/
structure Goes (kind : QueryKind Source Zid) (there : Option QueryStage) : Prop where
  failed : there = some .failed → kind = .initial
  refused : there = some .refused → kind ≠ .initial

omit [DecidableEq Source] [LinearOrder Zid] in
theorem goes_of_ne {kind : QueryKind Source Zid} {there : Option QueryStage}
    (hfailed : there ≠ some .failed) (hrefused : there ≠ some .refused) : Goes kind there :=
  ⟨fun h ↦ absurd h hfailed, fun h ↦ absurd h hrefused⟩

omit [DecidableEq Source] [LinearOrder Zid] in
theorem goes_failed {kind : QueryKind Source Zid} (h : kind = .initial) :
    Goes kind (some .failed) :=
  ⟨fun _ ↦ h, fun hrefused ↦ absurd hrefused (by decide)⟩

omit [DecidableEq Source] [LinearOrder Zid] in
theorem goes_refused {kind : QueryKind Source Zid} (h : kind ≠ .initial) :
    Goes kind (some .refused) :=
  ⟨fun hfailed ↦ absurd hfailed (by decide), fun _ ↦ h⟩

theorem QueriesKept.move (h : w.QueriesKept) {kind : QueryKind Source Zid} {here : QueryStage}
    {there : Option QueryStage} (hqueries : w'.queries = w.queries) (hgoes : Goes kind there)
    (hcounted : ∀ other, w'.isUndeclaring = false ∨ other = .initial →
      (w'.counter other).toNat = (w'.move kind here there).outstanding other) :
    (w'.move kind here there).QueriesKept := by
  refine ⟨fun other hother ↦ ?_, fun other hother ↦ ?_, fun hrefused ↦ ?_⟩
  · refine Eq.trans ?_ (hcounted other hother)
    cases other <;> rfl
  · rcases mem_move hother with hold | ⟨rfl, hnew⟩
    · exact h.failed other (hqueries ▸ hold)
    · exact hgoes.failed hnew
  · rcases mem_move hrefused with hold | ⟨rfl, hnew⟩
    · exact h.refused (hqueries ▸ hold)
    · exact hgoes.refused hnew rfl

/-- A query goes on, as outstanding as it was. -/
theorem QueriesKept.move_same (h : w.QueriesKept) {kind : QueryKind Source Zid} {here : QueryStage}
    {there : Option QueryStage} (hmem : (kind, here) ∈ w.queries)
    (hsame : here.outstanding = there.any QueryStage.outstanding) (hgoes : Goes kind there) :
    (w.move kind here there).QueriesKept :=
  h.move rfl hgoes fun other hother ↦ by
    rw [outstanding_move_same hmem hsame]
    exact h.counted other hother

/-- A counter is lowered for a query that is outstanding no longer. -/
theorem QueriesKept.move_done (h : w.QueriesKept) {kind : QueryKind Source Zid} {here : QueryStage}
    {there : Option QueryStage} (hmem : (kind, here) ∈ w.queries) (hhere : here.outstanding = true)
    (hthere : there.any QueryStage.outstanding = false) (hgoes : Goes kind there)
    (hqueries : w'.queries = w.queries) (hundeclaring : w'.isUndeclaring = w.isUndeclaring)
    (hcounter : ∀ other, (w'.counter other).toNat =
      if other = kind then (w.counter kind).toNat - 1 else (w.counter other).toNat) :
    (w'.move kind here there).QueriesKept := by
  have hmem' : (kind, here) ∈ w'.queries := hqueries ▸ hmem
  have houtstanding (other : QueryKind Source Zid) : w'.outstanding other = w.outstanding other := by
    unfold outstanding
    rw [hqueries]
  refine h.move hqueries hgoes fun other hother ↦ ?_
  rw [hundeclaring] at hother
  rw [outstanding_move_done hmem' hhere hthere, houtstanding, houtstanding, hcounter]
  split_ifs with heq
  · subst heq
    rw [h.counted other hother]
  · exact h.counted other hother

/-- The drop handler runs, and the query is outstanding no longer. -/
theorem QueriesKept.dropped (h : w.QueriesKept) {kind : QueryKind Source Zid} {here : QueryStage}
    {there : Option QueryStage} (hmem : (kind, here) ∈ w.queries) (hhere : here.outstanding = true)
    (hthere : there.any QueryStage.outstanding = false) (hgoes : Goes kind there) :
    ((w.queryDropHandler kind).move kind here there).QueriesKept :=
  h.move_done hmem hhere hthere hgoes (queries_queryDropHandler kind)
    (isUndeclaring_queryDropHandler kind) fun other ↦ by
      rw [counter_queryDropHandler]
      split_ifs
      · exact toNat_lowered _
      · rfl

theorem QueriesKept.handleSample (h : w.QueriesKept) (sample : Sample Source Zid α)
    (memory : Memory) : (w.handleSample sample memory).1.QueriesKept :=
  h.congr (fun kind hkind ↦ ⟨by rwa [isUndeclaring_handleSample] at hkind,
    counter_handleSample sample memory kind⟩) (queries_handleSample sample memory)

theorem QueriesKept.live (h : w.QueriesKept) (sample : Sample Source Zid α) (memory : Memory)
    (hlive : w.isUndeclaring = false)
    (hroom : ∀ kind, w.outstanding kind + 1 < 0x10000000000000000) :
    (w.live sample memory).QueriesKept := by
  have hqueries := queries_handleSample (w := w) sample memory
  have hsample := h.handleSample sample memory
  unfold AdvancedSubscriber.live
  simp only
  split
  · split
    · exact hsample
    · next state hstate =>
      split_ifs
      · refine hsample.startSequenced ((isUndeclaring_handleSample _ _).trans hlive) ?_
          (by simp [counter, hstate])
        unfold outstanding
        rw [hqueries]
        exact hroom _
      · exact hsample
  · exact hsample

theorem QueriesKept.heartbeat (h : w.QueriesKept) (id : Source) (sn : UInt32) (memory : Memory)
    (hlive : w.isUndeclaring = false)
    (hroom : ∀ kind, w.outstanding kind + 1 < 0x10000000000000000) :
    (w.heartbeat id sn memory).QueriesKept := by
  unfold AdvancedSubscriber.heartbeat
  split_ifs
  · exact h
  · split
    · exact h
    · next state hstate =>
      have hcounter := counter_sequencedState hstate
      split_ifs
      · exact h.startSequenced hlive (hroom _) hcounter
      · refine h.congr (fun kind hkind ↦ ⟨hkind, ?_⟩) rfl
        rw [counter_putSequenced]
        split_ifs with heq
        · rw [heq, hcounter]
        · rfl

theorem QueriesKept.periodic (h : w.QueriesKept) (id : Source) (hlive : w.isUndeclaring = false)
    (hroom : ∀ kind, w.outstanding kind + 1 < 0x10000000000000000) :
    (w.periodic id).QueriesKept := by
  unfold AdvancedSubscriber.periodic
  split_ifs
  · exact h
  · split
    · exact h
    · next state hstate =>
      split_ifs
      · exact h
      · exact h.startSequenced hlive (hroom _) (by simp [counter, hstate])

/-- The issuer of a query that was refused takes it back. -/
theorem QueriesKept.settle (h : w.QueriesKept) (hlive : w.isUndeclaring = false)
    {kind : QueryKind Source Zid} (hmem : (kind, .refused) ∈ w.queries) (hkind : kind ≠ .initial) :
    ((w.settle kind).move kind .refused none).QueriesKept := by
  have hgoes : Goes kind none := goes_of_ne nofun nofun
  have hpos : (w.counter kind).toNat ≠ 0 := by
    rw [h.counted kind (.inl hlive)]
    exact (outstanding_pos hmem rfl).ne'
  cases kind with
  | initial => exact absurd rfl hkind
  | sequenced id =>
    cases hstate : w.sequencedStates id with
    | none => simp [counter, hstate] at hpos
    | some state =>
      have hcounter : w.counter (.sequenced id) = state.pendingQueries := by simp [counter, hstate]
      refine h.move_done hmem rfl rfl hgoes (by simp only [AdvancedSubscriber.settle, hstate]; rfl)
        (by simp only [AdvancedSubscriber.settle, hstate]; rfl) fun other ↦ ?_
      simp only [AdvancedSubscriber.settle, hstate]
      rw [counter_putSequenced, hcounter]
      rw [hcounter] at hpos
      split_ifs
      · exact toNat_pred hpos
      · rfl
  | timestamped id =>
    cases hstate : w.timestampedStates id with
    | none => simp [counter, hstate] at hpos
    | some state =>
      have hcounter : w.counter (.timestamped id) = state.pendingQueries := by
        simp [counter, hstate]
      refine h.move_done hmem rfl rfl hgoes (by simp only [AdvancedSubscriber.settle, hstate]; rfl)
        (by simp only [AdvancedSubscriber.settle, hstate]; rfl) fun other ↦ ?_
      simp only [AdvancedSubscriber.settle, hstate]
      rw [counter_putTimestamped, hcounter]
      rw [hcounter] at hpos
      split_ifs
      · exact toNat_pred hpos
      · rfl

/-- The undeclaration leaves the counter of the initial query. -/
theorem QueriesKept.undeclare (h : w.QueriesKept) : w.undeclare.QueriesKept := by
  unfold AdvancedSubscriber.undeclare
  split_ifs
  · exact h
  · refine h.congr (fun kind hkind ↦ ?_) rfl
    obtain rfl := hkind.resolve_left nofun
    exact ⟨.inr rfl, rfl⟩

/-- A query leaves whose counter is not looked at any more, or that was not outstanding. -/
theorem QueriesKept.leave (h : w.QueriesKept) {kind : QueryKind Source Zid} {here : QueryStage}
    (hmem : (kind, here) ∈ w.queries) (hhere : here = .failed ∨ here = .refused)
    (hundeclaring : w.isUndeclaring = true) : (w.move kind here none).QueriesKept := by
  refine h.move rfl (goes_of_ne nofun nofun) fun other hother ↦ ?_
  rcases hother with hlive | rfl
  · exact absurd (hundeclaring.symm.trans hlive) nofun
  · have hcount := h.counted .initial (.inr rfl)
    rcases hhere with rfl | rfl
    · rw [outstanding_move_same hmem rfl, hcount]
    · rw [outstanding_move_done hmem rfl rfl, hcount]
      split_ifs with heq
      · subst heq
        exact absurd hmem h.refused
      · rfl

theorem QueriesKept.step (h : w.QueriesKept) {e : AdvancedEvent Source Zid α}
    (hhanded : w.Handed e) : (w.step e).QueriesKept := by
  have hroom := hhanded.room
  cases e with
  | live sample memory =>
    simp only [AdvancedSubscriber.step]
    split_ifs with hlive
    · exact h
    · exact h.live sample memory (Bool.eq_false_iff.mpr hlive) hroom
  | reply sample memory =>
    simp only [AdvancedSubscriber.step]
    split_ifs
    · exact h
    · exact h.handleSample sample memory
  | heartbeat id sn memory =>
    simp only [AdvancedSubscriber.step]
    split_ifs with hlive
    · exact h
    · exact h.heartbeat id sn memory (Bool.eq_false_iff.mpr hlive) hroom
  | publisher id memory =>
    simp only [AdvancedSubscriber.step, publisher]
    split_ifs with hlive
    · exact h
    · split
      · exact h
      · next hstate =>
        exact h.startSequenced (Bool.eq_false_iff.mpr hlive) (hroom _)
          (counter_sequencedState hstate)
  | publisherUhlc id memory =>
    simp only [AdvancedSubscriber.step, publisherUhlc]
    split_ifs with hlive
    · exact h
    · split
      · exact h
      · next hstate =>
        exact h.startTimestamped (Bool.eq_false_iff.mpr hlive) (hroom _)
          (counter_timestampedState hstate)
  | periodic id =>
    simp only [AdvancedSubscriber.step]
    split_ifs with hlive
    · exact h
    · exact h.periodic id (Bool.eq_false_iff.mpr hlive) hroom
  | refuse kind =>
    simp only [AdvancedSubscriber.step]
    split_ifs with hmem
    · exact h.move_same hmem rfl (goes_refused fun hkind ↦ hhanded.initial (by rw [hkind]))
    · exact h
  | call kind =>
    simp only [AdvancedSubscriber.step]
    split_ifs with hmem
    · exact h.move_same hmem rfl (goes_of_ne (by decide) (by decide))
    · exact h
  | returned kind exit =>
    have hkind := hhanded.handed kind exit (.inl rfl)
    simp only [AdvancedSubscriber.step]
    split_ifs with hmem hkeeps hok
    · exact h.move_same hmem rfl (goes_of_ne (by decide) (by decide))
    · exact h.dropped hmem rfl rfl (goes_of_ne (by decide) (by decide))
    · exact h.dropped hmem rfl rfl (goes_failed (hkind.resolve_right hok))
    · exact h
  | returnedDropped kind exit =>
    have hkind := hhanded.handed kind exit (.inr rfl)
    simp only [AdvancedSubscriber.step]
    split_ifs with hmem hok
    · exact h.move_same hmem rfl (goes_of_ne (by decide) (by decide))
    · exact h.move_same hmem rfl (goes_failed (hkind.resolve_right hok))
    · exact h
  | drop kind calling =>
    simp only [AdvancedSubscriber.step]
    split_ifs with hcalling hmem hmem
    · exact h.dropped hmem rfl rfl (goes_of_ne (by decide) (by decide))
    · exact h
    · exact h.dropped hmem rfl rfl (goes_of_ne (by decide) (by decide))
    · exact h
  | settle kind failed =>
    simp only [AdvancedSubscriber.step]
    by_cases hmem : (kind, if failed then QueryStage.failed else .refused) ∈ w.queries
    · rw [if_pos hmem]
      cases hundeclaring : w.isUndeclaring with
      | true =>
        rw [if_pos rfl]
        refine h.leave hmem ?_ hundeclaring
        cases failed <;> simp
      | false =>
        rw [if_neg Bool.false_ne_true]
        cases failed with
        | true =>
          obtain rfl := h.failed kind hmem
          -- the declaration of the subscriber fails
          have hmem' : (.initial, .failed) ∈ w.undeclare.queries := by
            simpa [AdvancedSubscriber.undeclare, hundeclaring] using hmem
          exact h.undeclare.move_same hmem' rfl (goes_of_ne (by decide) (by decide))
        | false =>
          refine h.settle hundeclaring hmem ?_
          rintro rfl
          exact h.refused hmem
    · rw [if_neg hmem]
      exact h
  | undeclare => exact h.undeclare

/-! ### Runs -/

/-- The runs in which every event is allowed in the state in which it happens -/
inductive Reached (Allowed : AdvancedSubscriber Source Zid α → AdvancedEvent Source Zid α → Prop) :
    AdvancedSubscriber Source Zid α → Prop
  | init (historyEnabled : Bool) (maxSamples : ℕ) (retransmission : Bool) :
      Reached Allowed (init historyEnabled maxSamples retransmission)
  | step {w : AdvancedSubscriber Source Zid α} {e : AdvancedEvent Source Zid α}
      (h : Reached Allowed w) (hallowed : Allowed w e) : Reached Allowed (w.step e)

theorem init_queriesKept (historyEnabled : Bool) (maxSamples : ℕ) (retransmission : Bool) :
    (init historyEnabled maxSamples retransmission : AdvancedSubscriber Source Zid α).QueriesKept := by
  cases historyEnabled
  · refine ⟨fun kind _ ↦ ?_, nofun, nofun⟩
    cases kind <;> rfl
  · refine ⟨fun kind _ ↦ ?_, fun kind hkind ↦ ?_, fun hrefused ↦ ?_⟩
    · cases kind <;> rfl
    · exact nomatch mem_singleton.mp hkind
    · exact nomatch mem_singleton.mp hrefused

/-- In the runs in which no `z_get` of a recovery query fails, and the initial query gets as far as
`z_get`, the counters are the numbers of the outstanding queries. -/
theorem Reached.queriesCounted (h : Reached Handed w) : w.QueriesCounted := by
  have hkept : w.QueriesKept ∧ w.Cleared := by
    induction h with
    | init historyEnabled maxSamples retransmission =>
      exact ⟨init_queriesKept _ _ _, init_cleared _ _ _⟩
    | step _ hallowed ih => exact ⟨ih.1.step hallowed, step_cleared ih.2 _⟩
  obtain ⟨hkept, hcleared⟩ := hkept
  intro kind hknown
  refine hkept.counted kind ?_
  cases hundeclaring : w.isUndeclaring with
  | false => exact .inl rfl
  | true =>
    obtain ⟨hsequenced, htimestamped⟩ := hcleared hundeclaring
    cases kind with
    | initial => exact .inr rfl
    | sequenced id => exact absurd (hsequenced id) hknown
    | timestamped id => exact absurd (htimestamped id) hknown

/-! ### Two runs -/

theorem outstanding_le (w : AdvancedSubscriber Source Zid α) (kind : QueryKind Source Zid) :
    w.outstanding kind ≤ w.queries.length := countP_le_length

/-- There is room for the contexts of a short run. -/
theorem room_of_length (hlength : w.queries.length < 2) (kind : QueryKind Source Zid) :
    w.outstanding kind + 1 < 0x10000000000000000 := by
  have := outstanding_le w kind
  omega

/-- The session is closed before the query for the history of a publisher is made. -/
def takenBack : AdvancedSubscriber ℕ ℕ Unit :=
  (((init false 0 true).step (.publisher 4 .plenty)).step (.refuse (.sequenced 4))).step
    (.settle (.sequenced 4) false)

theorem takenBack_queriesCounted : takenBack.QueriesCounted := by
  have hreached : Reached Handed takenBack := by
    refine (((Reached.init false 0 true).step ?_).step ?_).step ?_
    · exact ⟨room_of_length (by decide), nofun, nofun⟩
    · exact ⟨room_of_length (by decide), nofun, nofun⟩
    · exact ⟨room_of_length (by decide), nofun, nofun⟩
  exact hreached.queriesCounted

/-- The query of a heartbeat is registered and cannot be sent. -/
def loweredTwice : AdvancedSubscriber ℕ ℕ Unit :=
  ((((init false 0 true).step (.heartbeat 4 10 .plenty)).step (.call (.sequenced 4))).step
    (.returned (.sequenced 4) .notSent)).step (.settle (.sequenced 4) true)

theorem loweredTwice_not_queriesCounted : ¬∀ w : AdvancedSubscriber ℕ ℕ Unit,
      Reached (fun w _ ↦ ∀ kind, w.outstanding kind + 1 < 0x10000000000000000) w →
        w.QueriesCounted := by
  intro hcounted
  have hreached : Reached (fun w _ ↦ ∀ kind, w.outstanding kind + 1 < 0x10000000000000000)
      loweredTwice := by
    refine ((((Reached.init false 0 true).step ?_).step ?_).step ?_).step ?_
    all_goals exact room_of_length (by decide)
  have h := hcounted loweredTwice hreached (.sequenced 4) nofun
  exact absurd h (by decide)

end AdvancedSubscriber

end ZenohPico.Api
