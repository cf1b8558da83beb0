import ZenohPico.Collections.SeqNumber

/-!
The heartbeats of an advanced publisher (`src/api/advanced_publisher.c`).

The counter of the publisher is one ahead of the sample numbered last. A heartbeat announces the
number before the counter, also where the counter has numbered nothing, and the sporadic ones are
sent where the counter is larger than at the previous heartbeat, which it is not after a wrap.
-/

open List

namespace ZenohPico.Api

open Collections

/-! ### The source's functions -/

/-- `ze_advanced_publisher_heartbeat_mode_t` -/
inductive HeartbeatMode
  | none
  | periodic
  | sporadic
deriving DecidableEq, Repr

/-- `_ze_advanced_publisher_state_t`, as far as the heartbeats read it -/
structure PublisherState where
  heartbeatMode : HeartbeatMode
  seqnumber : UInt64
  lastPublishedSn : UInt32
deriving DecidableEq, Repr

namespace PublisherState

variable (state : PublisherState)

/-- The state when `ze_declare_advanced_publisher` has set it up -/
def init (heartbeatMode : HeartbeatMode) : PublisherState := ⟨heartbeatMode, 0, 0⟩

/-- The number that `_ze_advanced_publisher_sequencing_options` gives to a sample -/
def sequencingOptions : UInt32 × PublisherState :=
  (state.seqnumber.toUInt32, { state with seqnumber := state.seqnumber + 1 })

/-- The choice of `_ze_advanced_publisher_heartbeat_handler` -/
def publishes : Bool :=
  match state.heartbeatMode with
  | .none => false
  | .periodic => true
  -- the comparison does not account for a wrap
  | .sporadic => state.lastPublishedSn < state.seqnumber.toUInt32

/-- `_ze_advanced_publisher_heartbeat_handler`, with the number in the payload -/
def heartbeatHandler : Option UInt32 × PublisherState :=
  let nextSeq := state.seqnumber.toUInt32
  if state.publishes then
    (some (seqnumberPrev nextSeq), { state with lastPublishedSn := nextSeq })
  else (none, state)

end PublisherState

/-! ### Runs -/

/-- What happens to a publisher -/
inductive PublisherEvent
  | put
  | delete
  | tick
deriving DecidableEq, Repr

/-- A publisher, with the numbers it has given and how many of them since the previous heartbeat -/
structure HeartbeatRun where
  state : PublisherState
  numbers : List UInt32
  since : ℕ
deriving DecidableEq, Repr

namespace HeartbeatRun

variable (run : HeartbeatRun)

def init (mode : HeartbeatMode) : HeartbeatRun := ⟨PublisherState.init mode, [], 0⟩

/-- A sample is numbered. -/
def number : HeartbeatRun :=
  ⟨run.state.sequencingOptions.2, run.numbers ++ [run.state.sequencingOptions.1], run.since + 1⟩

/-- The task of the heartbeats is called. -/
def tick : HeartbeatRun :=
  ⟨run.state.heartbeatHandler.2, run.numbers,
    if run.state.heartbeatHandler.1.isSome then 0 else run.since⟩

def step : PublisherEvent → HeartbeatRun
  | .put | .delete => run.number
  | .tick => run.tick

/-- The run of these events -/
def after (mode : HeartbeatMode) (events : List PublisherEvent) : HeartbeatRun :=
  events.foldl step (init mode)

/-- What is promised of the heartbeat that a tick sends, if it sends one -/
structure TickLaw : Prop where
  /-- Before the first publication there is none. -/
  early : run.numbers = [] → run.state.heartbeatHandler.1 = none
  /-- It announces the number of the latest sample. -/
  latest : ∀ sn, run.state.heartbeatHandler.1 = some sn → run.numbers.getLast? = some sn
  /-- A sporadic one is sent if and only if a sample was numbered since the previous one. -/
  sporadic : run.state.heartbeatMode = .sporadic →
    (run.state.heartbeatHandler.1.isSome ↔ 0 < run.since)

/-- The condition on a tick. A periodic one comes after the first sample. At a sporadic one nothing
was numbered since the previous heartbeat, or the number behind the latest sample is larger than
the one that was next at that heartbeat. -/
def TickInOrder : Prop :=
  match run.state.heartbeatMode with
  | .none => True
  | .periodic => run.numbers ≠ []
  | .sporadic => run.since = 0 ∨
      run.state.lastPublishedSn.toNat < (run.state.lastPublishedSn.toNat + run.since) % 0x100000000

/-! ### The counter -/

/-- How the counter stands to what was numbered -/
structure Counts : Prop where
  fresh : run.numbers = [] → run.state.seqnumber = 0
  latest : run.numbers ≠ [] → run.numbers.getLast? = some (run.state.seqnumber.toUInt32 - 1)
  since : (run.state.lastPublishedSn.toNat + run.since) % 0x100000000 =
    run.state.seqnumber.toUInt32.toNat

variable {run}

theorem counts_init (mode : HeartbeatMode) : (init mode).Counts where
  fresh _ := rfl
  latest h := absurd rfl h
  since := rfl

theorem toUInt32_add_one (n : UInt64) : (n + 1).toUInt32 = n.toUInt32 + 1 := UInt64.toUInt32_add n 1

theorem Counts.number (h : run.Counts) : run.number.Counts where
  fresh hnil := absurd hnil (append_ne_nil_of_right_ne_nil _ (cons_ne_nil _ _))
  latest _ := by
    change (run.numbers ++ [run.state.seqnumber.toUInt32]).getLast? =
      some ((run.state.seqnumber + 1).toUInt32 - 1)
    rw [List.getLast?_concat, toUInt32_add_one, UInt32.add_sub_cancel]
  since := by
    have hsince := h.since
    have hone : (1 : UInt32).toNat = 1 := rfl
    change (run.state.lastPublishedSn.toNat + (run.since + 1)) % _ =
      (run.state.seqnumber + 1).toUInt32.toNat
    rw [toUInt32_add_one, UInt32.toNat_add, ← hsince, hone]
    omega

theorem Counts.tick (h : run.Counts) : run.tick.Counts := by
  unfold HeartbeatRun.tick PublisherState.heartbeatHandler
  split_ifs
  · exact ⟨h.fresh, h.latest, Nat.mod_eq_of_lt (UInt32.toNat_lt _)⟩
  · contradiction
  · contradiction
  · exact h

theorem Counts.step (h : run.Counts) (event : PublisherEvent) : (run.step event).Counts := by
  cases event with
  | put => exact h.number
  | delete => exact h.number
  | tick => exact h.tick

theorem counts_after (mode : HeartbeatMode) (events : List PublisherEvent) :
    (after mode events).Counts :=
  List.foldlRecOn events HeartbeatRun.step (counts_init mode) fun _ h event _ ↦ h.step event

/-! ### A tick -/

theorem heartbeatHandler_fst : run.state.heartbeatHandler.1 =
    if run.state.publishes then some (seqnumberPrev run.state.seqnumber.toUInt32) else none := by
  unfold PublisherState.heartbeatHandler
  split_ifs <;> rfl

theorem isSome_heartbeatHandler : run.state.heartbeatHandler.1.isSome = run.state.publishes := by
  rw [heartbeatHandler_fst]
  split_ifs with h
  · exact h.symm
  · exact (Bool.not_eq_true _ ▸ h).symm

theorem Counts.latest_heartbeat (h : run.Counts) (hnil : run.numbers ≠ []) (sn : UInt32)
    (hsn : run.state.heartbeatHandler.1 = some sn) : run.numbers.getLast? = some sn := by
  rw [heartbeatHandler_fst] at hsn
  split_ifs at hsn with hpublishes
  rw [h.latest hnil, ← seqnumberPrev_eq, hsn]

theorem Counts.publishes_sporadic (h : run.Counts) (hmode : run.state.heartbeatMode = .sporadic) :
    run.state.publishes ↔ run.state.lastPublishedSn.toNat <
      (run.state.lastPublishedSn.toNat + run.since) % 0x100000000 := by
  rw [h.since, PublisherState.publishes, hmode]
  exact decide_eq_true_iff.trans UInt32.lt_iff_toNat_lt

/-- A sporadic heartbeat comes after the first sample. -/
theorem Counts.ne_nil (h : run.Counts) (hmode : run.state.heartbeatMode = .sporadic)
    (hpublishes : run.state.publishes) : run.numbers ≠ [] := by
  intro hnil
  have hlt := (h.publishes_sporadic hmode).mp hpublishes
  rw [h.since, h.fresh hnil] at hlt
  exact absurd hlt (Nat.not_lt_zero _)

theorem Counts.sporadic_iff (h : run.Counts) (hmode : run.state.heartbeatMode = .sporadic) :
    (run.state.publishes ↔ 0 < run.since) ↔ run.since = 0 ∨ run.state.lastPublishedSn.toNat <
        (run.state.lastPublishedSn.toNat + run.since) % 0x100000000 := by
  have hlt := run.state.lastPublishedSn.toNat_lt
  rw [h.publishes_sporadic hmode]
  by_cases hsince : run.since = 0
  · rw [hsince, Nat.add_zero, Nat.mod_eq_of_lt hlt]
    exact iff_of_true ⟨fun h ↦ absurd h (Nat.lt_irrefl _), fun h ↦ absurd h (Nat.lt_irrefl _)⟩
      (.inl rfl)
  · have hpos := Nat.pos_of_ne_zero hsince
    exact ⟨fun hiff ↦ .inr (hiff.mpr hpos), fun hor ↦ iff_of_true (hor.resolve_left hsince) hpos⟩

theorem Counts.tickLaw_iff (h : run.Counts) : run.TickLaw ↔ run.TickInOrder := by
  cases hmode : run.state.heartbeatMode with
  | none =>
    rw [TickInOrder, hmode]
    have hnone : run.state.heartbeatHandler.1 = .none := by
      rw [heartbeatHandler_fst, PublisherState.publishes, hmode]
      rfl
    refine iff_of_true ⟨fun _ ↦ hnone, fun sn hsn ↦ ?_, fun hother ↦ ?_⟩ trivial
    · rw [hnone] at hsn
      cases hsn
    · rw [hmode] at hother
      cases hother
  | periodic =>
    rw [TickInOrder, hmode]
    have hsome : run.state.heartbeatHandler.1 =
        some (seqnumberPrev run.state.seqnumber.toUInt32) := by
      rw [heartbeatHandler_fst, PublisherState.publishes, hmode]
      rfl
    constructor
    · intro hlaw hnil
      rw [hlaw.early hnil] at hsome
      cases hsome
    · intro hnil
      refine ⟨fun h ↦ absurd h hnil, h.latest_heartbeat hnil, fun hother ↦ ?_⟩
      rw [hmode] at hother
      cases hother
  | sporadic =>
    rw [TickInOrder, hmode, ← h.sporadic_iff hmode, ← isSome_heartbeatHandler]
    constructor
    · exact fun hlaw ↦ hlaw.sporadic hmode
    · refine fun hiff ↦ ⟨fun hnil ↦ ?_, fun sn hsn ↦ ?_, fun _ ↦ hiff⟩
      · by_contra hsent
        have hpublishes := Option.isSome_iff_ne_none.mpr hsent
        rw [isSome_heartbeatHandler] at hpublishes
        exact h.ne_nil hmode hpublishes hnil
      · have hpublishes := Option.isSome_of_mem hsn
        rw [isSome_heartbeatHandler] at hpublishes
        exact h.latest_heartbeat (h.ne_nil hmode hpublishes) sn hsn

/-! ### Every tick of a run -/

/-- Every tick of the run keeps what is promised. -/
def HeartbeatsLawful (mode : HeartbeatMode) (events : List PublisherEvent) : Prop :=
  ∀ before rest, events = before ++ .tick :: rest → (after mode before).TickLaw

/-- The heartbeats of a run are as promised if and only if each tick meets the condition. -/
theorem heartbeatsLawful_iff (mode : HeartbeatMode) (events : List PublisherEvent) :
    HeartbeatsLawful mode events ↔
      ∀ before rest, events = before ++ .tick :: rest → (after mode before).TickInOrder :=
  forall₂_congr fun before _ ↦ imp_congr_right fun _ ↦ (counts_after mode before).tickLaw_iff

/-- A run of publications only -/
theorem foldl_put (run : HeartbeatRun) (n : ℕ) : ((List.replicate n .put).foldl step run).state =
      { run.state with seqnumber := run.state.seqnumber + UInt64.ofNat n } := by
  induction n generalizing run with
  | zero => exact congrArg (PublisherState.mk _ · _) (UInt64.add_zero _).symm
  | succ n ih =>
    rw [replicate_succ, foldl_cons, ih]
    refine congrArg (PublisherState.mk _ · _) ?_
    change run.state.seqnumber + 1 + UInt64.ofNat n = _
    rw [UInt64.ofNat_add, UInt64.add_assoc, UInt64.add_comm 1]
    rfl

/-- The counter is about to wrap, and no heartbeat was sent so far. -/
theorem not_tickInOrder_wrap {run : HeartbeatRun}
    (hstate : run.state = ⟨.sporadic, 0xFFFFFFFF, 0⟩) : ¬ run.tick.number.TickInOrder := by
  obtain ⟨state, numbers, since⟩ := run
  subst hstate
  rintro (hsince | hlt)
  · exact absurd hsince (Nat.succ_ne_zero _)
  · exact absurd hlt (by decide : ¬ 0xFFFFFFFF < (0xFFFFFFFF + 1) % 0x100000000)

theorem not_heartbeatsLawful_wrap {n : ℕ} (hn : UInt64.ofNat n = 0xFFFFFFFF) :
    ¬ HeartbeatsLawful .sporadic (List.replicate n .put ++ [.tick, .put, .tick]) := by
  intro hlaw
  have hafter := counts_after .sporadic (List.replicate n .put ++ [.tick, .put])
  have htick := hafter.tickLaw_iff.mp (hlaw _ [] (by rw [append_assoc]; rfl))
  have hput := foldl_put (init .sporadic) n
  rw [hn] at hput
  rw [after, foldl_append] at htick
  exact not_tickInOrder_wrap hput htick

/-- A periodic heartbeat before the first publication announces the number 4294967295, and the
sporadic heartbeat of the sample that the wrap follows is not sent. -/
theorem not_heartbeatsLawful : ¬ HeartbeatsLawful .periodic [.tick] ∧ ¬ HeartbeatsLawful .sporadic
        (List.replicate 0xFFFFFFFF .put ++ [.tick, .put, .tick]) := by
  refine ⟨fun hlaw ↦ ?_, not_heartbeatsLawful_wrap rfl⟩
  exact ((counts_after .periodic []).tickLaw_iff.mp (hlaw [] [] rfl)) rfl

end HeartbeatRun

end ZenohPico.Api
