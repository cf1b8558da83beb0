import Mathlib.Data.List.Count
import Mathlib.Data.List.Induction
import ZenohPico.Session.Locality
import ZenohPico.Session.RemoteDeclares

/-!
The write filters of publishers and queriers (`src/net/filtering.c`), and the interests that feed
them (`src/session/interest.c`).

A filter lets its publisher or querier send when there is someone to send to. It keeps the
declarations of peers that match it, and counts the matching entities of its own session. It is
told of a declaration when the key of the declaration, or of what is kept of it, reaches its
interest; when it is created it is told of all declarations that are kept, whatever their type.

The functions that match key expressions are any two functions, after the comparison of the texts
that comes first in both.
-/

namespace ZenohPico.Session

open Foundations List Option

/-! ### The filter -/

/-- `_z_write_filter_target_type_t` -/
inductive TargetType
  | subscriber
  | queryable
deriving DecidableEq, Repr

/-- The declarations that the interest of a filter asks for -/
def TargetType.declareType : TargetType → DeclareType
  | .subscriber => .subscriber
  | .queryable => .queryable

/-- `_z_keyexpr_intersects` or `_z_keyexpr_includes`, by the function that does the matching -/
def keyMatch {Key : Type} [DecidableEq Key] (forward : Key → Key → Bool) (left right : Key) : Bool :=
  left = right || forward left right

/-- What a write filter is created with, and its interest -/
structure FilterConfig (Key : Type) where
  interestId : UInt32
  key : Key
  targetType : TargetType
  isComplete : Bool
  isAggregate : Bool
  allowLocal : Bool
  allowRemote : Bool
deriving DecidableEq, Repr

/-- A matching listener, and the status that it was called with last -/
structure MatchingListener where
  id : UInt32
  notified : Bool
deriving DecidableEq, Repr

/-- `_z_write_filter_ctx_t`. `off` is `WRITE_FILTER_OFF`. -/
structure WriteFilter (Peer Key : Type) where
  config : FilterConfig Key
  targets : List (Peer × UInt32)
  localTargets : ℕ
  off : Bool
  callbacks : List MatchingListener
deriving DecidableEq, Repr

/-- `_z_interest_msg_t` -/
inductive InterestMsg (Key : Type)
  | decl (type : DeclareType) (id : UInt32) (key : Key) (complete : Bool)
  | undecl (type : DeclareType) (id : UInt32)
  | connectionDropped
deriving DecidableEq, Repr

/-- A subscriber or a queryable of the session itself -/
structure LocalEntity (Key : Type) where
  targetType : TargetType
  key : Key
  allowedOrigin : Locality
  complete : Bool
deriving DecidableEq, Repr

section Filter

variable {Peer Key : Type}

/-- `_z_write_filter_ctx_update_state` -/
def WriteFilter.updateState (ctx : WriteFilter Peer Key) : WriteFilter Peer Key :=
  let off := !(ctx.targets.isEmpty && ctx.localTargets == 0)
  if off ≠ ctx.off then { ctx with off, callbacks := ctx.callbacks.map ({ · with notified := off }) }
  else { ctx with off }

/-- `_z_write_filter_ctx_add_local_match` -/
def WriteFilter.addLocalMatch (ctx : WriteFilter Peer Key) : WriteFilter Peer Key :=
  { ctx with localTargets := ctx.localTargets + 1 }.updateState

/-- `_z_write_filter_ctx_remove_local_match` -/
def WriteFilter.removeLocalMatch (ctx : WriteFilter Peer Key) : WriteFilter Peer Key :=
  { ctx with localTargets := if ctx.localTargets > 0 then ctx.localTargets - 1 else 0 }.updateState

/-- `_z_write_filter_ctx_add_callback`. Callbacks are kept by their ids. -/
def WriteFilter.addCallback (ctx : WriteFilter Peer Key) (id : UInt32) : WriteFilter Peer Key :=
  { ctx with callbacks := ⟨id, ctx.off⟩ :: ctx.callbacks.filter (·.id ≠ id) }

/-- `_z_write_filter_ctx_remove_callback` -/
def WriteFilter.removeCallback (ctx : WriteFilter Peer Key) (id : UInt32) : WriteFilter Peer Key :=
  { ctx with callbacks := ctx.callbacks.filter (·.id ≠ id) }

variable [DecidableEq Peer] [DecidableEq Key]

/-- A declaration that has come to a filter is a target. -/
def FilterConfig.pushes (includes : Key → Key → Bool) (config : FilterConfig Key) (key : Key)
    (complete : Bool) : Bool :=
  config.allowRemote &&
    (!config.isComplete || (complete && (config.isAggregate || keyMatch includes key config.key)))

/-- `_z_write_filter_callback`, for a peer -/
def WriteFilter.callback (includes : Key → Key → Bool) (ctx : WriteFilter Peer Key)
    (msg : InterestMsg Key) (peer : Peer) : WriteFilter Peer Key :=
  match msg with
  | .decl .token _ _ _ | .undecl .token _ => ctx.updateState
  | .decl _ id key complete =>
    let targets := ctx.targets.eraseP (· = (peer, id))
    { ctx with
      targets := if ctx.config.pushes includes key complete then (peer, id) :: targets
        else targets }.updateState
  | .undecl _ id => { ctx with targets := ctx.targets.eraseP (· = (peer, id)) }.updateState
  | .connectionDropped =>
    { ctx with targets := ctx.targets.filter (·.1 ≠ peer) }.updateState

/-- A key reaches the interest of a filter: one that is aggregated is answered with its own key. -/
def FilterConfig.reaches (intersects : Key → Key → Bool) (config : FilterConfig Key) (key : Key) :
    Bool :=
  if config.isAggregate then config.key = key else keyMatch intersects config.key key

/-- A filter is told of a declaration: `__z_get_interest_by_key_and_flags`. -/
def FilterConfig.hears (intersects : Key → Key → Bool) (config : FilterConfig Key)
    (type : DeclareType) (key : Key) (interestId : Option UInt32) : Bool :=
  config.targetType.declareType = type &&
    (interestId = none || interestId = some 0 || interestId = some config.interestId) &&
      config.reaches intersects key

/-- An entity of the session is counted by a filter that is being created:
`_z_write_filter_session_register`. -/
def FilterConfig.registers (intersects includes : Key → Key → Bool) (config : FilterConfig Key)
    (entity : LocalEntity Key) : Bool :=
  config.allowLocal && config.targetType = entity.targetType &&
    entity.allowedOrigin.allowsLocal &&
      match config.targetType with
      | .subscriber => keyMatch intersects config.key entity.key
      | .queryable =>
        if config.isComplete then entity.complete && keyMatch includes entity.key config.key
        else keyMatch intersects config.key entity.key

/-- An entity of the session is counted by a filter when it comes or goes:
`_z_write_filter_notify_local_entity`, which takes subscribers for complete. -/
def FilterConfig.notifies (intersects includes : Key → Key → Bool) (config : FilterConfig Key)
    (entity : LocalEntity Key) : Bool :=
  let isComplete :=
    match entity.targetType with
    | .subscriber => true
    | .queryable => entity.complete
  entity.allowedOrigin.allowsLocal && config.allowLocal &&
    (if config.isComplete then isComplete && keyMatch includes entity.key config.key
      else keyMatch intersects config.key entity.key) &&
    config.targetType = entity.targetType

end Filter

/-! ### The session -/

/-- Who creates a filter: publishers look for subscribers, and queriers for queryables, which have
to be complete where all complete ones are queried. -/
inductive FilterOwner
  | publisher
  | querier (complete : Bool)
deriving DecidableEq, Repr

/-- What `z_declare_publisher` and `z_declare_querier` create a filter with -/
def FilterOwner.config {Key : Type} (owner : FilterOwner) (interestId : UInt32) (key : Key)
    (isAggregate : Bool) (allowedDestination : Locality) : FilterConfig Key where
  interestId := interestId
  key := key
  targetType := match owner with | .publisher => .subscriber | .querier _ => .queryable
  isComplete := match owner with | .publisher => false | .querier complete => complete
  isAggregate := isAggregate
  allowLocal := allowedDestination.allowsLocal
  allowRemote := allowedDestination.allowsRemote

/-- The declarations of the peers, the entities of the session, and its write filters -/
structure FilterSession (Peer Key : Type) where
  table : RemoteTable Peer Key
  localEntities : List (LocalEntity Key)
  writeFilters : List (WriteFilter Peer Key)

/-- What happens to the write filters of a session. The completeness of a kept declaration is not
copied for the replay to a new filter: `replayed` is what is found in its place. -/
inductive FilterEvent (Peer Key : Type)
  | declare (interestId : Option UInt32) (peer : Peer) (type : DeclareType) (id : UInt32) (key : Key)
      (complete : Bool)
  | undeclare (peer : Peer) (type : DeclareType) (id : UInt32)
  | disconnect (peer : Peer)
  | register (entity : LocalEntity Key)
  | unregister (entity : ℕ)
  | create (owner : FilterOwner) (interestId : UInt32) (key : Key) (isAggregate : Bool)
      (allowedDestination : Locality) (replayed : DeclareData Peer Key → Bool)
  | clear (filter : ℕ)
  | addCallback (filter : ℕ) (id : UInt32)
  | removeCallback (filter : ℕ) (id : UInt32)

section Session

variable {Peer Key : Type} [DecidableEq Peer] [DecidableEq Key]

/-- A session with no filters -/
def FilterSession.init : FilterSession Peer Key := ⟨.init, [], []⟩

/-- One declaration is replayed to a filter. -/
def WriteFilter.replayOne (intersects includes : Key → Key → Bool)
    (replayed : DeclareData Peer Key → Bool) (ctx : WriteFilter Peer Key)
    (decl : DeclareData Peer Key) : WriteFilter Peer Key :=
  if ctx.config.reaches intersects decl.key then
    ctx.callback includes (.decl decl.type decl.id decl.key (replayed decl)) decl.peer
  else ctx

/-- `_z_write_filter_create`, with `_z_interest_replay_declare`, which goes through a clone of the
list, and `_z_write_filter_session_register` -/
def writeFilterCreate (intersects includes : Key → Key → Bool) (config : FilterConfig Key)
    (remoteDeclares : List (DeclareData Peer Key)) (replayed : DeclareData Peer Key → Bool)
    (localEntities : List (LocalEntity Key)) : WriteFilter Peer Key :=
  let ctx := remoteDeclares.reverse.foldl (WriteFilter.replayOne intersects includes replayed)
    ⟨config, [], 0, false, []⟩
  localEntities.foldl (fun ctx entity ↦
    if config.registers intersects includes entity then ctx.addLocalMatch else ctx) ctx

/-- One step of a session -/
def FilterSession.step (intersects includes : Key → Key → Bool) (w : FilterSession Peer Key) :
    FilterEvent Peer Key → FilterSession Peer Key
  | .declare interestId peer type id key complete =>
    { w with
      table := w.table.step (.declare peer type id key complete)
      writeFilters := w.writeFilters.map fun ctx ↦
        if ctx.config.hears intersects type key interestId then
          ctx.callback includes (.decl type id key (messageComplete type complete)) peer
        else ctx }
  | .undeclare peer type id =>
    { w with
      table := w.table.step (.undeclare peer type id)
      writeFilters :=
        match w.table.remoteDeclares.find? (·.tag = (id, type)) with
        | none => w.writeFilters
        | some decl => w.writeFilters.map fun ctx ↦
          if ctx.config.hears intersects type decl.key none then
            ctx.callback includes (.undecl type id) peer
          else ctx }
  | .disconnect peer =>
    { w with
      table := w.table.step (.disconnect peer)
      writeFilters := w.writeFilters.map (·.callback includes .connectionDropped peer) }
  | .register entity =>
    { w with
      localEntities := entity :: w.localEntities
      writeFilters := w.writeFilters.map fun ctx ↦
        if ctx.config.notifies intersects includes entity then ctx.addLocalMatch else ctx }
  | .unregister entity =>
    match w.localEntities[entity]? with
    | none => w
    | some e =>
      { w with
        localEntities := w.localEntities.eraseIdx entity
        writeFilters := w.writeFilters.map fun ctx ↦
          if ctx.config.notifies intersects includes e then ctx.removeLocalMatch else ctx }
  | .create owner interestId key isAggregate allowedDestination replayed =>
    { w with
      writeFilters := writeFilterCreate intersects includes
        (owner.config interestId key isAggregate allowedDestination) w.table.remoteDeclares replayed
        w.localEntities :: w.writeFilters }
  | .clear filter => { w with writeFilters := w.writeFilters.eraseIdx filter }
  | .addCallback filter id =>
    { w with writeFilters := w.writeFilters.modify filter (·.addCallback id) }
  | .removeCallback filter id =>
    { w with writeFilters := w.writeFilters.modify filter (·.removeCallback id) }

/-- A session after a run -/
def FilterSession.run (intersects includes : Key → Key → Bool) (w : FilterSession Peer Key)
    (events : List (FilterEvent Peer Key)) : FilterSession Peer Key :=
  events.foldl (FilterSession.step intersects includes) w

/-! ### What a filter is for -/

/-- An entity matches a filter: its key intersects that of the filter, or, where completeness is
required, it is complete and its key includes that of the filter. -/
def FilterConfig.matches (intersects includes : Key → Key → Bool) (config : FilterConfig Key)
    (key : Key) (complete : Bool) : Bool :=
  if config.isComplete then complete && keyMatch includes key config.key
  else keyMatch intersects config.key key

/-- There is an entity that a filter allows and that matches it. -/
def FilterSession.HasMatching (intersects includes : Key → Key → Bool) (w : FilterSession Peer Key)
    (config : FilterConfig Key) : Prop :=
  (config.allowRemote = true ∧ ∃ peer id key complete,
    w.table.entities peer config.targetType.declareType id = some (key, complete) ∧
      config.matches intersects includes key complete = true) ∨
  config.allowLocal = true ∧ ∃ entity ∈ w.localEntities,
    entity.targetType = config.targetType ∧ entity.allowedOrigin.allowsLocal = true ∧
      config.matches intersects includes entity.key entity.complete = true

/-- Every filter is off exactly when there is a matching entity, and every listener was last
notified of that. -/
def FilterSession.Exact (intersects includes : Key → Key → Bool) (w : FilterSession Peer Key) :
    Prop :=
  ∀ ctx ∈ w.writeFilters, (ctx.off = true ↔ w.HasMatching intersects includes ctx.config) ∧
      ∀ listener ∈ ctx.callbacks, listener.notified = ctx.off

/-- A declaration that does not reach a filter of its type repeats the last one of its entity, or
neither it nor that one matches the filter. What is kept of an entity that matches a filter reaches
the filter when the entity is undeclared. When a filter is created, the declarations that are kept
and reach it are those of its type, of peers that are connected, and its own completeness, when it
requires it, is found in the replay; and the entities that match it are kept, and reach it. -/
def FilterSession.Reached (intersects includes : Key → Key → Bool) (w : FilterSession Peer Key) :
    FilterEvent Peer Key → Prop
  | .declare interestId peer type id key complete => ∀ ctx ∈ w.writeFilters,
    ctx.config.allowRemote = true → ctx.config.targetType.declareType = type →
    ctx.config.hears intersects type key interestId = false →
      w.table.entities peer type id = some (key, messageComplete type complete) ∨
      ctx.config.matches intersects includes key (messageComplete type complete) = false ∧
        ∀ old, w.table.entities peer type id = some old →
          ctx.config.matches intersects includes old.1 old.2 = false
  | .undeclare peer type id => ∀ ctx ∈ w.writeFilters,
    ctx.config.allowRemote = true → ctx.config.targetType.declareType = type →
    ∀ entity, w.table.entities peer type id = some entity →
      ctx.config.matches intersects includes entity.1 entity.2 = true →
      ∃ decl, w.table.remoteDeclares.find? (·.tag = (id, type)) = some decl ∧
        ctx.config.reaches intersects decl.key = true
  | .create owner interestId key isAggregate allowedDestination replayed =>
    ∀ config, config = owner.config interestId key isAggregate allowedDestination →
      config.allowRemote = true →
      (∀ decl ∈ w.table.remoteDeclares, config.reaches intersects decl.key = true →
        decl.type ≠ .token → decl.type = config.targetType.declareType ∧
          w.table.entities decl.peer decl.type decl.id = some (decl.key, decl.complete) ∧
          (config.isComplete = true → replayed decl = decl.complete)) ∧
      ∀ peer id entity, w.table.entities peer config.targetType.declareType id = some entity →
        config.matches intersects includes entity.1 entity.2 = true →
        ⟨entity.1, id, config.targetType.declareType, entity.2, peer⟩ ∈ w.table.remoteDeclares ∧
          config.reaches intersects entity.1 = true
  | _ => True

/-- Every step of a run is reached by the filters it is about. -/
def ReachedRun (intersects includes : Key → Key → Bool) (w : FilterSession Peer Key) :
    List (FilterEvent Peer Key) → Prop
  | [] => True
  | e :: events => w.Reached intersects includes e ∧
      ReachedRun intersects includes (w.step intersects includes e) events

end Session

/-! ### The state of a filter -/

section State

variable {Peer Key : Type}

/-- The state of a filter is that of its targets, and its listeners know it. -/
structure WriteFilter.Settled (ctx : WriteFilter Peer Key) : Prop where
  off : ctx.off = !(ctx.targets.isEmpty && ctx.localTargets == 0)
  callbacks : ∀ listener ∈ ctx.callbacks, listener.notified = ctx.off

variable {ctx : WriteFilter Peer Key}

@[simp] theorem updateState_config : ctx.updateState.config = ctx.config := by
  rw [WriteFilter.updateState]
  split <;> rfl

@[simp] theorem updateState_targets : ctx.updateState.targets = ctx.targets := by
  rw [WriteFilter.updateState]
  split <;> rfl

@[simp] theorem updateState_localTargets : ctx.updateState.localTargets = ctx.localTargets := by
  rw [WriteFilter.updateState]
  split <;> rfl

/-- Listeners are notified when the state changes. -/
theorem updateState_settled (h : ∀ listener ∈ ctx.callbacks, listener.notified = ctx.off) :
    ctx.updateState.Settled := by
  rw [WriteFilter.updateState]
  split
  · exact ⟨rfl, by simp⟩
  · next hsame => exact ⟨rfl, fun listener hlistener ↦
      (h listener hlistener).trans (Decidable.not_not.mp hsame).symm⟩

theorem WriteFilter.Settled.addCallback (h : ctx.Settled) (id : UInt32) :
    (ctx.addCallback id).Settled := by
  refine ⟨h.off, fun listener hlistener ↦ ?_⟩
  rcases mem_cons.mp hlistener with rfl | hold
  · rfl
  · exact h.callbacks listener (mem_of_mem_filter hold)

theorem WriteFilter.Settled.removeCallback (h : ctx.Settled) (id : UInt32) :
    (ctx.removeCallback id).Settled :=
  ⟨h.off, fun listener hlistener ↦ h.callbacks listener (mem_of_mem_filter hlistener)⟩

variable [DecidableEq Peer] [DecidableEq Key] {intersects includes : Key → Key → Bool}

@[simp] theorem callback_config (msg : InterestMsg Key) (peer : Peer) :
    (ctx.callback includes msg peer).config = ctx.config := by
  unfold WriteFilter.callback
  split <;> simp

@[simp] theorem callback_localTargets (msg : InterestMsg Key) (peer : Peer) :
    (ctx.callback includes msg peer).localTargets = ctx.localTargets := by
  unfold WriteFilter.callback
  split <;> simp

theorem WriteFilter.Settled.callback (h : ctx.Settled) (msg : InterestMsg Key) (peer : Peer) :
    (ctx.callback includes msg peer).Settled := by
  unfold WriteFilter.callback
  split <;> exact updateState_settled h.callbacks

variable {type : DeclareType} {id : UInt32} {complete : Bool}

theorem callback_decl_targets (htype : type ≠ .token) (id : UInt32) (key : Key) (complete : Bool)
    (peer : Peer) : (ctx.callback includes (.decl type id key complete) peer).targets =
      if ctx.config.pushes includes key complete then
        (peer, id) :: ctx.targets.eraseP (· = (peer, id))
      else ctx.targets.eraseP (· = (peer, id)) := by
  cases type with
  | token => exact absurd rfl htype
  | subscriber => simp [WriteFilter.callback]
  | queryable => simp [WriteFilter.callback]

theorem callback_undecl_targets (htype : type ≠ .token) (id : UInt32) (peer : Peer) :
    (ctx.callback includes (.undecl type id) peer).targets =
      ctx.targets.eraseP (· = (peer, id)) := by
  cases type with
  | token => exact absurd rfl htype
  | subscriber => simp [WriteFilter.callback]
  | queryable => simp [WriteFilter.callback]

theorem callback_token_targets (id : UInt32) (key : Key) (complete : Bool) (peer : Peer) :
    (ctx.callback includes (.decl .token id key complete) peer).targets = ctx.targets := by
  simp [WriteFilter.callback]

theorem callback_dropped_targets (peer : Peer) :
    (ctx.callback includes .connectionDropped peer).targets = ctx.targets.filter (·.1 ≠ peer) := by
  simp [WriteFilter.callback]

theorem declareType_ne_token (target : TargetType) : target.declareType ≠ .token := by
  cases target <;> simp [TargetType.declareType]

variable {config : FilterConfig Key} {key : Key}

/-- A declaration that reaches a filter becomes a target when it matches. -/
theorem pushes_eq (h : config.reaches intersects key = true) (complete : Bool) :
    config.pushes includes key complete =
      (config.allowRemote && config.matches intersects includes key complete) := by
  rw [FilterConfig.pushes, FilterConfig.matches]
  rw [FilterConfig.reaches] at h
  cases hagg : config.isAggregate with
  | true =>
    have hkey : config.key = key := by simpa [hagg] using h
    subst hkey
    cases config.isComplete <;> simp [keyMatch]
  | false =>
    rw [hagg] at h
    cases config.isComplete with
    | true => simp
    | false => simpa using fun _ ↦ h

variable {entity : LocalEntity Key}

/-- The two tests of a local entity agree, as only queryables are required to be complete. -/
theorem registers_eq_true_iff {config : FilterConfig Key}
    (hconfig : config.isComplete = true → config.targetType = .queryable)
    {entity : LocalEntity Key} :
    config.registers intersects includes entity = true ↔ config.allowLocal = true ∧
      entity.targetType = config.targetType ∧ entity.allowedOrigin.allowsLocal = true ∧
      config.matches intersects includes entity.key entity.complete = true := by
  rw [eq_comm (a := entity.targetType)]
  cases htarget : config.targetType with
  | subscriber =>
    have hcomplete : config.isComplete = false := by
      by_contra hne
      have := hconfig (by simpa using hne)
      rw [htarget] at this
      cases this
    simp [FilterConfig.registers, FilterConfig.matches, htarget, hcomplete, and_assoc]
  | queryable =>
    simp [FilterConfig.registers, FilterConfig.matches, htarget, and_assoc]

theorem notifies_eq_registers (hconfig : config.isComplete = true → config.targetType = .queryable)
    (entity : LocalEntity Key) :
    config.notifies intersects includes entity = config.registers intersects includes entity := by
  refine Bool.eq_iff_iff.mpr ((registers_eq_true_iff hconfig).trans ?_).symm
  cases hcomplete : config.isComplete with
  | false =>
    simp only [FilterConfig.notifies, FilterConfig.matches, hcomplete]
    simp
    tauto
  | true =>
    have htarget := hconfig hcomplete
    simp only [FilterConfig.notifies, FilterConfig.matches, hcomplete, htarget]
    cases entity.targetType <;> simp
    tauto

/-! ### What a filter holds -/

/-- An entity of a peer is one that a filter allows and that matches it. -/
def FilterConfig.Counts (intersects includes : Key → Key → Bool) (config : FilterConfig Key)
    (entities : Entities Peer Key) (target : Peer × UInt32) : Prop :=
  config.allowRemote = true ∧ ∃ entity,
    entities target.1 config.targetType.declareType target.2 = some entity ∧
      config.matches intersects includes entity.1 entity.2 = true

/-- The targets of a filter are the entities of peers that match it, and the counter is the number
of those of the session. -/
structure WriteFilter.Holds (intersects includes : Key → Key → Bool) (ctx : WriteFilter Peer Key)
    (entities : Entities Peer Key) (localEntities : List (LocalEntity Key)) : Prop where
  complete : ctx.config.isComplete = true → ctx.config.targetType = .queryable
  nodup : ctx.targets.Nodup
  mem_targets : ∀ target, target ∈ ctx.targets ↔
    ctx.config.Counts intersects includes entities target
  localTargets : ctx.localTargets = localEntities.countP (ctx.config.registers intersects includes)
  settled : ctx.Settled

variable {entities : Entities Peer Key} {localEntities : List (LocalEntity Key)}

theorem eraseP_targets {targets : List (Peer × UInt32)} (h : targets.Nodup)
    (target : Peer × UInt32) : targets.eraseP (· = target) = targets.filter (· ≠ target) :=
  eraseP_eq_filter (g := id) (by simpa using h)

omit [DecidableEq Peer] in
/-- Entities that match a filter as before leave its targets as they are. -/
theorem WriteFilter.Holds.congr (h : ctx.Holds intersects includes entities localEntities)
    {entities' : Entities Peer Key} (hcounts : ∀ target,
      ctx.config.Counts intersects includes entities' target ↔
        ctx.config.Counts intersects includes entities target) :
    ctx.Holds intersects includes entities' localEntities :=
  ⟨h.complete, h.nodup, fun target ↦ (h.mem_targets target).trans (hcounts target).symm,
    h.localTargets, h.settled⟩

variable {peer : Peer}

/-- Another list of targets, with what it stands for -/
theorem WriteFilter.Holds.callback (h : ctx.Holds intersects includes entities localEntities)
    {msg : InterestMsg Key} {entities' : Entities Peer Key}
    (hnodup : (ctx.callback includes msg peer).targets.Nodup)
    (hmem : ∀ target, target ∈ (ctx.callback includes msg peer).targets ↔
      ctx.config.Counts intersects includes entities' target) :
    (ctx.callback includes msg peer).Holds intersects includes entities' localEntities := by
  refine ⟨?_, hnodup, ?_, ?_, h.settled.callback msg peer⟩
  · simpa using h.complete
  · simpa using hmem
  · simpa using h.localTargets

variable {target : Peer × UInt32}

/-- An entity of the filter's type is the only one whose match a step may change. -/
theorem counts_set_of_ne {entity : Option (Key × Bool)}
    (hne : config.targetType.declareType = type → target ≠ (peer, id)) :
    config.Counts intersects includes (entities.set peer type id entity) target ↔
      config.Counts intersects includes entities target := by
  have hother : ¬(target.1 = peer ∧ config.targetType.declareType = type ∧ target.2 = id) :=
    fun ⟨hpeer, htype, hid⟩ ↦ hne htype (Prod.ext hpeer hid)
  simp [FilterConfig.Counts, Entities.set, hother]

theorem counts_set_self {entity : Option (Key × Bool)} : config.Counts intersects includes
        (entities.set peer config.targetType.declareType id entity) (peer, id) ↔
      config.allowRemote = true ∧
        ∃ e, entity = some e ∧ config.matches intersects includes e.1 e.2 = true := by
  simp [FilterConfig.Counts, Entities.set]

/-- A filter that is told of a declaration of its type holds it. -/
theorem WriteFilter.Holds.declare_heard (h : ctx.Holds intersects includes entities localEntities)
    (hreaches : ctx.config.reaches intersects key = true) (peer : Peer) (id : UInt32)
    (complete : Bool) :
    (ctx.callback includes (.decl ctx.config.targetType.declareType id key complete) peer).Holds
      intersects includes (entities.set peer ctx.config.targetType.declareType id
        (some (key, complete))) localEntities := by
  have htargets : (ctx.callback includes
      (.decl ctx.config.targetType.declareType id key complete) peer).targets = _ :=
    callback_decl_targets (declareType_ne_token _) id key complete peer
  rw [eraseP_targets h.nodup, pushes_eq hreaches] at htargets
  have hmem : ∀ target, target ∈ (ctx.callback includes
      (.decl ctx.config.targetType.declareType id key complete) peer).targets ↔
      ctx.config.Counts intersects includes (entities.set peer ctx.config.targetType.declareType id
        (some (key, complete))) target := by
    intro target
    by_cases htarget : target = (peer, id)
    · subst htarget
      rw [htargets, counts_set_self]
      split <;> simp_all
    · rw [htargets, counts_set_of_ne fun _ ↦ htarget, ← h.mem_targets]
      split <;> simp [htarget]
  refine h.callback ?_ hmem
  rw [htargets]
  split
  · exact nodup_cons.mpr ⟨by simp, h.nodup.filter _⟩
  · exact h.nodup.filter _

/-- A filter that is told of an undeclaration of its type does not hold the entity. -/
theorem WriteFilter.Holds.undeclare_heard (h : ctx.Holds intersects includes entities localEntities)
    (peer : Peer) (id : UInt32) :
    (ctx.callback includes (.undecl ctx.config.targetType.declareType id) peer).Holds
      intersects includes (entities.set peer ctx.config.targetType.declareType id none)
      localEntities := by
  have htargets : (ctx.callback includes
      (.undecl ctx.config.targetType.declareType id) peer).targets = _ :=
    callback_undecl_targets (declareType_ne_token _) id peer
  rw [eraseP_targets h.nodup] at htargets
  refine h.callback (by rw [htargets]; exact h.nodup.filter _) fun target ↦ ?_
  rw [htargets]
  by_cases htarget : target = (peer, id)
  · subst htarget
    rw [counts_set_self]
    simp
  · rw [counts_set_of_ne fun _ ↦ htarget, ← h.mem_targets]
    simp [htarget]

/-- A filter does not hold entities of a peer that has disconnected. -/
theorem WriteFilter.Holds.disconnect (h : ctx.Holds intersects includes entities localEntities)
    (peer : Peer) : (ctx.callback includes .connectionDropped peer).Holds intersects includes
      (fun p t i ↦ if p = peer then none else entities p t i) localEntities := by
  have htargets : (ctx.callback includes .connectionDropped peer).targets = _ :=
    callback_dropped_targets peer
  refine h.callback (by rw [htargets]; exact h.nodup.filter _) fun target ↦ ?_
  rw [htargets, mem_filter, h.mem_targets]
  by_cases hpeer : target.1 = peer
  · simp [FilterConfig.Counts, hpeer]
  · simp [FilterConfig.Counts, hpeer]

/-! ### The entities of the session -/

omit [DecidableEq Peer] in
theorem addLocalMatch_holds (h : ctx.Holds intersects includes entities localEntities)
    (hregisters : ctx.config.registers intersects includes entity = true) :
    ctx.addLocalMatch.Holds intersects includes entities (entity :: localEntities) where
  complete := by simpa [WriteFilter.addLocalMatch] using h.complete
  nodup := by simpa [WriteFilter.addLocalMatch] using h.nodup
  mem_targets := by simpa [WriteFilter.addLocalMatch] using h.mem_targets
  localTargets := by simp [WriteFilter.addLocalMatch, h.localTargets, hregisters]
  settled := updateState_settled h.settled.callbacks

omit [DecidableEq Peer] in
/-- An entity that matches a filter is counted. -/
theorem WriteFilter.Holds.register (h : ctx.Holds intersects includes entities localEntities)
    (entity : LocalEntity Key) :
    (if ctx.config.notifies intersects includes entity then ctx.addLocalMatch else ctx).Holds
      intersects includes entities (entity :: localEntities) := by
  rw [notifies_eq_registers h.complete]
  split
  · next hregisters => exact addLocalMatch_holds h hregisters
  · next hregisters => exact ⟨h.complete, h.nodup, h.mem_targets,
      by simp [h.localTargets, hregisters], h.settled⟩

theorem countP_eraseIdx {α : Type} (p : α → Bool) {xs : List α} {n : ℕ} {x : α}
    (hx : xs[n]? = some x) : (xs.eraseIdx n).countP p = xs.countP p - (if p x then 1 else 0) := by
  induction xs generalizing n with
  | nil => cases hx
  | cons y ys ih =>
    cases n with
    | zero =>
      obtain rfl : y = x := by simpa using hx
      simp [countP_cons]
    | succ n =>
      have hmem : x ∈ ys := mem_of_getElem? (by simpa using hx)
      have hpos : p x = true → 0 < ys.countP p := fun hp ↦ countP_pos_iff.mpr ⟨x, hmem, hp⟩
      rw [eraseIdx_cons_succ, countP_cons, countP_cons, ih (by simpa using hx)]
      split <;> split <;> grind

omit [DecidableEq Peer] in
/-- An entity that matches a filter is counted no more. -/
theorem WriteFilter.Holds.unregister (h : ctx.Holds intersects includes entities localEntities)
    {index : ℕ} {entity : LocalEntity Key} (hentity : localEntities[index]? = some entity) :
    (if ctx.config.notifies intersects includes entity then ctx.removeLocalMatch else ctx).Holds
      intersects includes entities (localEntities.eraseIdx index) := by
  rw [notifies_eq_registers h.complete]
  have hcount := countP_eraseIdx (ctx.config.registers intersects includes) hentity
  split
  · next hregisters =>
    exact {
      complete := by simpa [WriteFilter.removeLocalMatch] using h.complete
      nodup := by simpa [WriteFilter.removeLocalMatch] using h.nodup
      mem_targets := by simpa [WriteFilter.removeLocalMatch] using h.mem_targets
      localTargets := by
        simp only [WriteFilter.removeLocalMatch, updateState_localTargets, updateState_config]
        rw [hcount, if_pos hregisters, h.localTargets]
        split <;> omega
      settled := updateState_settled h.settled.callbacks }
  · next hregisters => exact ⟨h.complete, h.nodup, h.mem_targets,
      by rw [hcount, if_neg hregisters, h.localTargets, Nat.sub_zero], h.settled⟩

/-! ### A new filter -/

/-- What is replayed to a new filter is of its type, and declared as it is kept. -/
def FilterConfig.ReplayExact (intersects : Key → Key → Bool) (config : FilterConfig Key)
    (entities : Entities Peer Key) (replayed : DeclareData Peer Key → Bool)
    (decls : List (DeclareData Peer Key)) : Prop :=
  config.allowRemote = true → ∀ decl ∈ decls, config.reaches intersects decl.key = true →
    decl.type ≠ .token → decl.type = config.targetType.declareType ∧
      entities decl.peer decl.type decl.id = some (decl.key, decl.complete) ∧
      (config.isComplete = true → replayed decl = decl.complete)

/-- A declaration makes an entity of a peer a target of a new filter. -/
def FilterConfig.Replays (intersects includes : Key → Key → Bool) (config : FilterConfig Key)
    (decls : List (DeclareData Peer Key)) (target : Peer × UInt32) : Prop :=
  config.allowRemote = true ∧ ∃ decl ∈ decls, config.reaches intersects decl.key = true ∧
    decl.type ≠ .token ∧ (decl.peer, decl.id) = target ∧
      config.matches intersects includes decl.key decl.complete = true

/-- Completeness is replayed where it is required. -/
theorem matches_replayed {replayed : Bool} (h : config.isComplete = true → replayed = complete) :
    config.matches intersects includes key replayed =
      config.matches intersects includes key complete := by
  rw [FilterConfig.matches, FilterConfig.matches]
  split
  · next hcomplete => rw [h hcomplete]
  · rfl

variable {decls : List (DeclareData Peer Key)} {decl : DeclareData Peer Key}

omit [DecidableEq Peer] in
theorem replays_snoc : config.Replays intersects includes (decls ++ [decl]) target ↔
      config.Replays intersects includes decls target ∨ config.allowRemote = true ∧
        config.reaches intersects decl.key = true ∧ decl.type ≠ .token ∧
        (decl.peer, decl.id) = target ∧
        config.matches intersects includes decl.key decl.complete = true := by
  simp only [FilterConfig.Replays, mem_append, mem_singleton, or_and_right, exists_or,
    exists_eq_left, and_or_left]

variable {replayed : DeclareData Peer Key → Bool}

/-- A declaration that is replayed makes its entity a target when it matches, and leaves the others
as they are. -/
theorem replayOne_targets (h : config.ReplayExact intersects entities replayed (decls ++ [decl]))
    (hreaches : config.reaches intersects decl.key = true) (hconfig : ctx.config = config)
    (hnodup : ctx.targets.Nodup)
    (hmem : ∀ target, target ∈ ctx.targets ↔ config.Replays intersects includes decls target) :
    let targets := (ctx.callback includes (.decl decl.type decl.id decl.key (replayed decl))
      decl.peer).targets
    targets.Nodup ∧ ∀ target, target ∈ targets ↔
      config.Replays intersects includes (decls ++ [decl]) target := by
  by_cases htype : decl.type = .token
  · rw [htype, callback_token_targets]
    exact ⟨hnodup, fun target ↦ by simp [replays_snoc, htype, hmem]⟩
  · rw [callback_decl_targets htype, eraseP_targets hnodup, hconfig, pushes_eq hreaches]
    cases hallow : config.allowRemote with
    | false =>
      rw [Bool.false_and, if_neg Bool.false_ne_true]
      refine ⟨hnodup.filter _, fun target ↦ ?_⟩
      rw [mem_filter, hmem]
      simp [FilterConfig.Replays, hallow]
    | true =>
      obtain ⟨htarget, hentity, hreplayed⟩ := h hallow decl (by simp) hreaches htype
      rw [Bool.true_and, matches_replayed hreplayed]
      have hothers : ∀ target, target ≠ (decl.peer, decl.id) →
          (config.Replays intersects includes (decls ++ [decl]) target ↔ target ∈ ctx.targets) := by
        intro target hne
        rw [replays_snoc, hmem]
        simp [Ne.symm hne]
      -- the declarations of one entity that are kept and reach the filter are the same
      have hself : config.Replays intersects includes (decls ++ [decl]) (decl.peer, decl.id) ↔
          config.matches intersects includes decl.key decl.complete = true := by
        constructor
        · rintro ⟨-, other, hother, hreach, hother', hsame, hmatches⟩
          obtain ⟨hpeer, hid⟩ := Prod.mk.inj hsame
          obtain ⟨htarget', hentity', -⟩ := h hallow other hother hreach hother'
          rw [hpeer, hid, htarget', ← htarget, hentity] at hentity'
          obtain ⟨hkey, hcomplete⟩ := Prod.mk.inj (some.inj hentity')
          rw [hkey, hcomplete]
          exact hmatches
        · exact fun hmatches ↦ ⟨hallow, decl, by simp, hreaches, htype, rfl, hmatches⟩
      split
      · next hmatches =>
        refine ⟨nodup_cons.mpr ⟨by simp, hnodup.filter _⟩, fun target ↦ ?_⟩
        by_cases hsame : target = (decl.peer, decl.id)
        · rw [hsame, hself]
          simp [hmatches]
        · rw [hothers target hsame]
          simp [hsame]
      · next hmatches =>
        refine ⟨hnodup.filter _, fun target ↦ ?_⟩
        by_cases hsame : target = (decl.peer, decl.id)
        · rw [hsame, hself]
          simp [hmatches]
        · rw [hothers target hsame]
          simp [hsame]

/-- The targets after a replay are the entities that it was about. -/
theorem replay_holds (includes : Key → Key → Bool)
    (h : config.ReplayExact intersects entities replayed decls) {ctx : WriteFilter Peer Key}
    (hctx : ctx = decls.foldl (WriteFilter.replayOne intersects includes replayed)
      ⟨config, [], 0, false, []⟩) :
    ctx.config = config ∧ ctx.localTargets = 0 ∧ ctx.Settled ∧ ctx.targets.Nodup ∧
      ∀ target, target ∈ ctx.targets ↔ config.Replays intersects includes decls target := by
  induction decls using List.reverseRecOn generalizing ctx with
  | nil =>
    subst hctx
    exact ⟨rfl, rfl, ⟨rfl, by simp⟩, nodup_nil, by simp [FilterConfig.Replays]⟩
  | append_singleton decls decl ih =>
    rw [foldl_append, foldl_cons, foldl_nil] at hctx
    have hbefore : config.ReplayExact intersects entities replayed decls :=
      fun hallow d hd ↦ h hallow d (mem_append_left _ hd)
    obtain ⟨hconfig, hlocal, hsettled, hnodup, hmem⟩ := ih hbefore rfl
    rw [WriteFilter.replayOne, hconfig] at hctx
    split at hctx
    · next hreaches =>
      subst hctx
      exact ⟨by simpa using hconfig, by simpa using hlocal, hsettled.callback _ _,
        replayOne_targets h hreaches hconfig hnodup hmem⟩
    · next hreaches =>
      subst hctx
      exact ⟨hconfig, hlocal, hsettled, hnodup, fun target ↦
        (hmem target).trans (by simp [replays_snoc, hreaches])⟩

omit [DecidableEq Peer] in
/-- The entities of the session are counted one after the other. -/
theorem registered_holds {config : FilterConfig Key} {registered : List (LocalEntity Key)}
    (hconfig : ctx.config = config)
    (h : ctx.Holds intersects includes entities registered) (more : List (LocalEntity Key)) :
    (more.foldl (fun ctx entity ↦ if config.registers intersects includes entity then
      ctx.addLocalMatch else ctx) ctx).Holds intersects includes entities
      (more.reverse ++ registered) := by
  induction more generalizing ctx registered with
  | nil => simpa using h
  | cons entity more ih =>
    rw [foldl_cons, reverse_cons, append_assoc]
    refine ih ?_ ?_
    · split
      · exact (updateState_config).trans hconfig
      · exact hconfig
    · rw [← hconfig, ← notifies_eq_registers h.complete]
      exact h.register entity

/-- A filter that is created holds the entities that match it. -/
theorem writeFilterCreate_holds
    (hcomplete : config.isComplete = true → config.targetType = .queryable)
    (hexact : config.ReplayExact intersects entities replayed decls)
    (hall : config.allowRemote = true → ∀ peer id entity,
      entities peer config.targetType.declareType id = some entity →
      config.matches intersects includes entity.1 entity.2 = true →
      ⟨entity.1, id, config.targetType.declareType, entity.2, peer⟩ ∈ decls ∧
        config.reaches intersects entity.1 = true) :
    (writeFilterCreate intersects includes config decls replayed localEntities).Holds
      intersects includes entities localEntities := by
  have hreverse : config.ReplayExact intersects entities replayed decls.reverse :=
    fun hallow decl hdecl ↦ hexact hallow decl (mem_reverse.mp hdecl)
  obtain ⟨hconfig, hlocal, hsettled, hnodup, hmem⟩ := replay_holds includes hreverse rfl
  have hcounts : ∀ target, config.Replays intersects includes decls.reverse target ↔
      config.Counts intersects includes entities target := by
    intro target
    constructor
    · rintro ⟨hallow, decl, hdecl, hreaches, htype, rfl, hmatches⟩
      obtain ⟨htarget, hentity, -⟩ := hreverse hallow decl hdecl hreaches htype
      exact ⟨hallow, _, htarget ▸ hentity, hmatches⟩
    · rintro ⟨hallow, entity, hentity, hmatches⟩
      obtain ⟨hdecl, hreaches⟩ := hall hallow _ _ _ hentity hmatches
      exact ⟨hallow, _, mem_reverse.mpr hdecl, hreaches, declareType_ne_token _, rfl, hmatches⟩
  have hreplayed : WriteFilter.Holds intersects includes
      (decls.reverse.foldl (WriteFilter.replayOne intersects includes replayed)
        ⟨config, [], 0, false, []⟩) entities [] := by
    refine ⟨?_, hnodup, fun target ↦ ?_, by simpa using hlocal, hsettled⟩
    · rwa [hconfig]
    · rw [hmem, hcounts, hconfig]
  have hregistered := registered_holds hconfig hreplayed localEntities
  rw [append_nil] at hregistered
  exact ⟨hregistered.complete, hregistered.nodup, hregistered.mem_targets,
    hregistered.localTargets.trans countP_reverse, hregistered.settled⟩

/-! ### Steps and runs of a session -/

omit [DecidableEq Key] in
theorem config_complete (owner : FilterOwner) (interestId : UInt32) (key : Key)
    (isAggregate : Bool) (allowedDestination : Locality) :
    (owner.config interestId key isAggregate allowedDestination).isComplete = true →
      (owner.config interestId key isAggregate allowedDestination).targetType = .queryable := by
  cases owner <;> simp [FilterOwner.config]

theorem mem_modify {α : Type} {f : α → α} {xs : List α} {n : ℕ} {y : α} (h : y ∈ xs.modify n f) :
    y ∈ xs ∨ ∃ x ∈ xs, y = f x := by
  obtain ⟨m, hm⟩ := mem_iff_getElem?.mp h
  rw [List.getElem?_modify] at hm
  obtain ⟨x, hx, rfl⟩ := map_eq_some_iff.mp hm
  split
  · exact .inr ⟨x, mem_of_getElem? hx, rfl⟩
  · exact .inl (mem_of_getElem? hx)

/-- Every filter of a session holds the entities that match it. -/
def FilterSession.Holds (intersects includes : Key → Key → Bool) (w : FilterSession Peer Key) :
    Prop :=
  ∀ ctx ∈ w.writeFilters, ctx.Holds intersects includes w.table.entities w.localEntities

variable {w : FilterSession Peer Key}

theorem declare_holds (h : w.Holds intersects includes) {interestId : Option UInt32}
    (hreached : w.Reached intersects includes (.declare interestId peer type id key complete)) :
    (w.step intersects includes (.declare interestId peer type id key complete)).Holds
      intersects includes := by
  intro ctx' hctx'
  obtain ⟨ctx, hctx, rfl⟩ := List.mem_map.mp hctx'
  dsimp only [FilterSession.step, RemoteTable.step]
  split
  · next hhears =>
    obtain ⟨⟨htype, -⟩, hreaches⟩ : (ctx.config.targetType.declareType = type ∧ _) ∧ _ := by
      simpa [FilterConfig.hears] using hhears
    subst htype
    exact (h ctx hctx).declare_heard hreaches peer id _
  · next hhears =>
    refine (h ctx hctx).congr fun target ↦ ?_
    by_cases hsame : ctx.config.targetType.declareType = type ∧ target = (peer, id)
    · obtain ⟨rfl, rfl⟩ := hsame
      rw [counts_set_self, FilterConfig.Counts]
      refine and_congr_right fun hallow ↦ ?_
      rcases hreached ctx hctx hallow rfl (by simpa using hhears) with hold | ⟨hnew, hold⟩
      · rw [hold]
      · simp only [some.injEq, exists_eq_left', hnew, Bool.false_eq_true, false_iff]
        rintro ⟨entity, hentity, hmatches⟩
        rw [hold entity hentity] at hmatches
        cases hmatches
    · exact counts_set_of_ne fun htype htarget ↦ hsame ⟨htype, htarget⟩

theorem undeclare_holds (h : w.Holds intersects includes)
    (hreached : w.Reached intersects includes (.undeclare peer type id)) :
    (w.step intersects includes (.undeclare peer type id)).Holds intersects includes := by
  -- an entity that matches a filter reaches it
  have hunheard : ∀ ctx ∈ w.writeFilters,
      (∀ decl, w.table.remoteDeclares.find? (·.tag = (id, type)) = some decl →
        ctx.config.hears intersects type decl.key none = false) →
      ctx.Holds intersects includes (w.table.entities.set peer type id none) w.localEntities := by
    intro ctx hctx hhears
    refine (h ctx hctx).congr fun target ↦ ?_
    by_cases hsame : ctx.config.targetType.declareType = type ∧ target = (peer, id)
    · obtain ⟨rfl, rfl⟩ := hsame
      rw [counts_set_self]
      simp only [reduceCtorEq, false_and, exists_false, and_false, false_iff]
      rintro ⟨hallow, entity, hentity, hmatches⟩
      obtain ⟨decl, hdecl, hreaches⟩ := hreached ctx hctx hallow rfl entity hentity hmatches
      have := hhears decl hdecl
      simp [FilterConfig.hears, hreaches] at this
    · exact counts_set_of_ne fun htype htarget ↦ hsame ⟨htype, htarget⟩
  intro ctx' hctx'
  dsimp only [FilterSession.step, RemoteTable.step] at hctx' ⊢
  split at hctx'
  · next hfind => exact hunheard ctx' hctx' (by simp [hfind])
  · next decl hfind =>
    obtain ⟨ctx, hctx, rfl⟩ := List.mem_map.mp hctx'
    split
    · next hhears =>
      obtain ⟨htype, -⟩ : ctx.config.targetType.declareType = type ∧ _ := by
        simpa [FilterConfig.hears] using hhears
      subst htype
      exact (h ctx hctx).undeclare_heard peer id
    · next hhears => exact hunheard ctx hctx (by simpa [hfind] using hhears)

theorem create_holds (h : w.Holds intersects includes) {owner : FilterOwner} {interestId : UInt32}
    {isAggregate : Bool} {allowedDestination : Locality} (hreached : w.Reached intersects includes
      (.create owner interestId key isAggregate allowedDestination replayed)) :
    (w.step intersects includes
      (.create owner interestId key isAggregate allowedDestination replayed)).Holds
      intersects includes := by
  intro ctx hctx
  rcases mem_cons.mp hctx with rfl | hold
  · exact writeFilterCreate_holds (config_complete owner _ _ _ _)
      (fun hallow ↦ (hreached _ rfl hallow).1) fun hallow ↦ (hreached _ rfl hallow).2
  · exact h ctx hold

/-- A step that is reached keeps what the filters hold. -/
theorem FilterSession.Holds.next (h : w.Holds intersects includes) {e : FilterEvent Peer Key}
    (hreached : w.Reached intersects includes e) :
    (w.step intersects includes e).Holds intersects includes := by
  cases e with
  | declare interestId peer type id key complete => exact declare_holds h hreached
  | undeclare peer type id => exact undeclare_holds h hreached
  | disconnect peer =>
    intro ctx' hctx'
    obtain ⟨ctx, hctx, rfl⟩ := List.mem_map.mp hctx'
    exact (h ctx hctx).disconnect peer
  | register entity =>
    intro ctx' hctx'
    obtain ⟨ctx, hctx, rfl⟩ := List.mem_map.mp hctx'
    exact (h ctx hctx).register entity
  | unregister index =>
    cases hentity : w.localEntities[index]? with
    | none => simpa only [step, hentity] using h
    | some entity =>
      simp only [step, hentity]
      intro ctx' hctx'
      obtain ⟨ctx, hctx, rfl⟩ := List.mem_map.mp hctx'
      exact (h ctx hctx).unregister hentity
  | create owner interestId key isAggregate allowedDestination replayed =>
    exact create_holds h hreached
  | clear filter => exact fun ctx hctx ↦ h ctx (mem_of_mem_eraseIdx hctx)
  | addCallback filter id =>
    intro ctx' hctx'
    rcases mem_modify hctx' with hold | ⟨ctx, hctx, rfl⟩
    · exact h ctx' hold
    · obtain ⟨hcomplete, hnodup, hmem, hlocal, hsettled⟩ := h ctx hctx
      exact ⟨hcomplete, hnodup, hmem, hlocal, hsettled.addCallback id⟩
  | removeCallback filter id =>
    intro ctx' hctx'
    rcases mem_modify hctx' with hold | ⟨ctx, hctx, rfl⟩
    · exact h ctx' hold
    · obtain ⟨hcomplete, hnodup, hmem, hlocal, hsettled⟩ := h ctx hctx
      exact ⟨hcomplete, hnodup, hmem, hlocal, hsettled.removeCallback id⟩

omit [DecidableEq Peer] [DecidableEq Key] in
/-- A filter is off exactly when it holds something. -/
theorem WriteFilter.Settled.off_iff (h : ctx.Settled) :
    ctx.off = true ↔ (∃ target, target ∈ ctx.targets) ∨ 0 < ctx.localTargets := by
  rw [h.off]
  cases ctx.targets with
  | nil => simp [Nat.pos_iff_ne_zero]
  | cons target targets =>
    simp

omit [DecidableEq Peer] in
/-- What the filters hold is what their states are about. -/
theorem FilterSession.Holds.exact (h : w.Holds intersects includes) :
    w.Exact intersects includes := by
  intro ctx hctx
  obtain ⟨hcomplete, hnodup, hmem, hlocal, hsettled⟩ := h ctx hctx
  refine ⟨hsettled.off_iff.trans (or_congr ?_ ?_), hsettled.callbacks⟩
  · simp only [hmem]
    constructor
    · rintro ⟨⟨peer, id⟩, hallow, ⟨key, complete⟩, hentity, hmatches⟩
      exact ⟨hallow, peer, id, key, complete, hentity, hmatches⟩
    · rintro ⟨hallow, peer, id, key, complete, hentity, hmatches⟩
      exact ⟨(peer, id), hallow, (key, complete), hentity, hmatches⟩
  · rw [hlocal, countP_pos_iff]
    simp only [registers_eq_true_iff hcomplete]
    constructor
    · rintro ⟨entity, hentity, hallow, hrest⟩
      exact ⟨hallow, entity, hentity, hrest⟩
    · rintro ⟨hallow, entity, hentity, hrest⟩
      exact ⟨entity, hentity, hallow, hrest⟩

/-- Steps that are reached keep what the filters hold. -/
theorem FilterSession.Holds.run (h : w.Holds intersects includes)
    {before after : List (FilterEvent Peer Key)}
    (hreached : ReachedRun intersects includes w (before ++ after)) :
    (w.run intersects includes before).Holds intersects includes := by
  induction before generalizing w with
  | nil => exact h
  | cons e before ih => exact ih (h.next hreached.1) hreached.2

end State

end ZenohPico.Session
