import ZenohPico.Session.Locality
import ZenohPico.Session.Resources

/-!
What a session announces of its entities (`src/net/primitives.c`, `src/net/liveliness.c`,
`src/net/filtering.c`), and what it sends again to those who come later
(`_z_interest_push_declarations_to_peer`, `_z_interest_push_interests_to_peer` and
`_z_interest_process_interest` of `src/session/interest.c`).

An entity whose origin is session-local is not announced when it is declared. The tables that are
sent again have it all the same, and nothing looks at its origin there: it stays local as long as
none of them is sent while it is in them (`localOnly_of_allowed`).
-/

open List

namespace ZenohPico.Session

/-! ### Messages -/

/-- `_z_declaration_t` -/
inductive Declaration
  | kexpr (id : UInt16) (key : List UInt8)
  | subscriber (id : UInt32) (key : List UInt8)
  | undeclSubscriber (id : UInt32)
  | queryable (id : UInt32) (key : List UInt8) (complete : Bool)
  | undeclQueryable (id : UInt32)
  | token (id : UInt32) (key : List UInt8)
  | undeclToken (id : UInt32)
  | final
deriving DecidableEq, Repr

/-- `_z_network_message_t`: a declaration, with the id of the interest that it answers, and an
interest. Keys are those that the wire expressions stand for. -/
inductive DeclareMessage
  | declare (interestId : Option UInt32) (decl : Declaration)
  | interest (id : UInt32) (key : List UInt8) (flags : UInt8)
  | interestFinal (id : UInt32)
deriving DecidableEq, Repr

/-- A subscriber or a queryable is announced. -/
def DeclareMessage.announces : DeclareMessage → Bool
  | .declare _ (.subscriber _ _) | .declare _ (.queryable _ _ _) => true
  | _ => false

/-- `_Z_INTEREST_FLAG_*` -/
def interestFlagKeyexprs : UInt8 := 1
def interestFlagSubscribers : UInt8 := 0x02
def interestFlagQueryables : UInt8 := 0x04
def interestFlagTokens : UInt8 := 0x08
def interestFlagRestricted : UInt8 := 0x10
def interestFlagCurrent : UInt8 := 0x20
def interestFlagFuture : UInt8 := 0x40
def interestFlagAggregate : UInt8 := 0x80

/-- `_Z_HAS_FLAG` -/
def hasInterestFlag (flags flag : UInt8) : Bool := flags &&& flag ≠ 0

/-! ### The session -/

/-- `_z_subscription_t`, without its callback -/
structure LocalSubscription where
  id : UInt32
  key : List UInt8
  allowedOrigin : Locality
deriving DecidableEq, Repr

/-- `_z_session_queryable_t`, without its callback -/
structure LocalQueryable where
  id : UInt32
  key : List UInt8
  complete : Bool
  allowedOrigin : Locality
deriving DecidableEq, Repr

/-- `_z_session_interest_t`, without its callback -/
structure LocalInterest where
  id : UInt32
  key : List UInt8
  flags : UInt8
deriving DecidableEq, Repr

/-- The mode of a session, its transport, and whether the build has
`Z_FEATURE_MULTICAST_DECLARATIONS` -/
structure SessionMode where
  isClient : Bool
  isMulticast : Bool
  multicastDeclarations : Bool
deriving DecidableEq, Repr

/-- The tables of `_z_session_t` -/
structure LocalSession where
  entityId : UInt32
  localResources : LocalResources
  subscriptions : List LocalSubscription
  localQueryable : List LocalQueryable
  localTokens : List (UInt32 × List UInt8)
  livelinessSubscriptions : List (UInt32 × List UInt8)
  localInterests : List LocalInterest

/-- The kinds of entities of a session -/
inductive EntityKind
  | subscriber (allowedOrigin : Locality)
  | queryable (complete : Bool) (allowedOrigin : Locality)
  | token
  | livelinessSubscriber (history : Bool)
  | publisher
  | querier
deriving DecidableEq, Repr

/-- The tables that entities are in -/
inductive EntityTable
  | subscriptions
  | localQueryable
  | localTokens
  | livelinessSubscriptions
  | localInterests
deriving DecidableEq, Repr

/-- The table of the entities of a kind. The entity of a publisher or a querier is its interest. -/
def EntityKind.table : EntityKind → EntityTable
  | .subscriber _ => .subscriptions
  | .queryable _ _ => .localQueryable
  | .token => .localTokens
  | .livelinessSubscriber _ => .livelinessSubscriptions
  | .publisher | .querier => .localInterests

namespace LocalSession

/-- Nothing has been declared. -/
def init : LocalSession := ⟨1, .init, [], [], [], [], []⟩

variable (mode : SessionMode) (zn : LocalSession)

/-! ### Declarations -/

/-- `_z_register_subscriber`, where the message may be sent or not -/
def registerSubscriber (key : List UInt8) (allowedOrigin : Locality) (sent : Bool) :
    LocalSession × List DeclareMessage :=
  let registered := { zn with
    entityId := zn.entityId + 1
    subscriptions := ⟨zn.entityId, key, allowedOrigin⟩ :: zn.subscriptions }
  if allowedOrigin.allowsRemote then
    if sent then (registered, [.declare none (.subscriber zn.entityId key)])
    else ({ zn with entityId := zn.entityId + 1 }, [])
  else (registered, [])

/-- `_z_register_queryable` -/
def registerQueryable (key : List UInt8) (complete : Bool) (allowedOrigin : Locality)
    (sent : Bool) : LocalSession × List DeclareMessage :=
  let registered := { zn with
    entityId := zn.entityId + 1
    localQueryable := ⟨zn.entityId, key, complete, allowedOrigin⟩ :: zn.localQueryable }
  if allowedOrigin.allowsRemote then
    if sent then (registered, [.declare none (.queryable zn.entityId key complete)])
    else ({ zn with entityId := zn.entityId + 1 }, [])
  else (registered, [])

/-- `_z_declare_liveliness_token`: a token whose id is taken is undeclared at once. -/
def declareLivelinessToken (key : List UInt8) (sent : Bool) : LocalSession × List DeclareMessage :=
  let counted := { zn with entityId := zn.entityId + 1 }
  if sent then
    match zn.localTokens.find? (·.1 = zn.entityId) with
    | some _ =>
      (counted, [.declare none (.token zn.entityId key), .declare none (.undeclToken zn.entityId)])
    | none =>
      ({ counted with localTokens := (zn.entityId, key) :: zn.localTokens },
        [.declare none (.token zn.entityId key)])
  else (counted, [])

/-- The flags of the interest of a liveliness subscriber -/
def livelinessFlags (history : Bool) : UInt8 :=
  interestFlagKeyexprs ||| interestFlagTokens ||| interestFlagRestricted |||
    (if history then interestFlagCurrent ||| interestFlagFuture else interestFlagFuture)

/-- `_z_register_liveliness_subscriber` -/
def registerLivelinessSubscriber (key : List UInt8) (history sent : Bool) :
    LocalSession × List DeclareMessage :=
  if sent then
    ({ zn with
        entityId := zn.entityId + 1
        livelinessSubscriptions := (zn.entityId, key) :: zn.livelinessSubscriptions },
      [.interest zn.entityId key (livelinessFlags history)])
  else ({ zn with entityId := zn.entityId + 1 }, [])

/-- The flags of `_z_write_filter_create` -/
def writeFilterFlags (interestFlag : UInt8) (routerPeer : Bool) : UInt8 :=
  interestFlag ||| interestFlagRestricted ||| interestFlagCurrent |||
    (if mode.isClient then
      interestFlagKeyexprs ||| interestFlagAggregate ||| interestFlagFuture
    else if routerPeer then interestFlagKeyexprs ||| interestFlagFuture
    else 0)

/-- `_z_add_interest` -/
def addInterest (key : List UInt8) (flags : UInt8) (routerPeer sent : Bool) :
    LocalSession × List DeclareMessage :=
  let registered := { zn with
    entityId := zn.entityId + 1
    localInterests := ⟨zn.entityId, key, flags⟩ :: zn.localInterests }
  if mode.isClient || routerPeer || (mode.multicastDeclarations && mode.isMulticast) then
    if sent then (registered, [.interest zn.entityId key flags])
    else ({ zn with entityId := zn.entityId + 1 }, [])
  else (registered, [])

/-- `_z_declare_publisher` and `_z_declare_querier`, with the write filter: the first id is that of
the publisher or querier. -/
def declareWithFilter (key : List UInt8) (interestFlag : UInt8) (routerPeer sent : Bool) :
    LocalSession × List DeclareMessage :=
  { zn with entityId := zn.entityId + 1 }.addInterest mode key
    (writeFilterFlags mode interestFlag routerPeer) routerPeer sent

/-- The declaration of an entity -/
def declare (key : List UInt8) (kind : EntityKind) (routerPeer sent : Bool) :
    LocalSession × List DeclareMessage :=
  match kind with
  | .subscriber allowedOrigin => zn.registerSubscriber key allowedOrigin sent
  | .queryable complete allowedOrigin => zn.registerQueryable key complete allowedOrigin sent
  | .token => zn.declareLivelinessToken key sent
  | .livelinessSubscriber history => zn.registerLivelinessSubscriber key history sent
  | .publisher => zn.declareWithFilter mode key interestFlagSubscribers routerPeer sent
  | .querier => zn.declareWithFilter mode key interestFlagQueryables routerPeer sent

/-- `_z_undeclare_subscriber` -/
def undeclareSubscriber (id : UInt32) (sent : Bool) : LocalSession × List DeclareMessage :=
  match zn.subscriptions.find? (·.id = id) with
  | none => (zn, [])
  | some sub =>
    ({ zn with subscriptions := zn.subscriptions.eraseP (·.id = id) },
      if sub.allowedOrigin.allowsRemote && sent then [.declare none (.undeclSubscriber id)] else [])

/-- `_z_undeclare_queryable` -/
def undeclareQueryable (id : UInt32) (sent : Bool) : LocalSession × List DeclareMessage :=
  match zn.localQueryable.find? (·.id = id) with
  | none => (zn, [])
  | some qle =>
    ({ zn with localQueryable := zn.localQueryable.eraseP (·.id = id) },
      if qle.allowedOrigin.allowsRemote && sent then [.declare none (.undeclQueryable id)] else [])

/-- `_z_undeclare_liveliness_token` -/
def undeclareLivelinessToken (id : UInt32) (sent : Bool) : LocalSession × List DeclareMessage :=
  match zn.localTokens.find? (·.1 = id) with
  | none => (zn, [])
  | some _ =>
    ({ zn with localTokens := zn.localTokens.eraseP (·.1 = id) },
      if sent then [.declare none (.undeclToken id)] else [])

/-- `_z_undeclare_liveliness_subscriber`: it stays where the message is not sent. -/
def undeclareLivelinessSubscriber (id : UInt32) (sent : Bool) :
    LocalSession × List DeclareMessage :=
  match zn.livelinessSubscriptions.find? (·.1 = id) with
  | none => (zn, [])
  | some _ =>
    if sent then
      ({ zn with livelinessSubscriptions := zn.livelinessSubscriptions.eraseP (·.1 = id) },
        [.interestFinal id])
    else (zn, [])

/-- `_z_remove_interest`, which `_z_undeclare_publisher` and `_z_undeclare_querier` call: the
interest stays where the message is not sent. -/
def removeInterest (id : UInt32) (sent : Bool) : LocalSession × List DeclareMessage :=
  match zn.localInterests.find? (·.id = id) with
  | none => (zn, [])
  | some _ =>
    let removed := { zn with localInterests := zn.localInterests.eraseP (·.id = id) }
    if mode.isClient || (mode.multicastDeclarations && mode.isMulticast) then
      if sent then (removed, [.interestFinal id]) else (zn, [])
    else (removed, [])

/-- The undeclaration of an entity -/
def undeclare (table : EntityTable) (id : UInt32) (sent : Bool) :
    LocalSession × List DeclareMessage :=
  match table with
  | .subscriptions => zn.undeclareSubscriber id sent
  | .localQueryable => zn.undeclareQueryable id sent
  | .localTokens => zn.undeclareLivelinessToken id sent
  | .livelinessSubscriptions => zn.undeclareLivelinessSubscriber id sent
  | .localInterests => zn.removeInterest mode id sent

/-! ### What is sent again -/

variable (intersects : List UInt8 → List UInt8 → Bool)

/-- The key is concerned by an interest of some restriction. -/
def concerned (restrKey : Option (List UInt8)) (key : List UInt8) : Bool :=
  match restrKey with
  | none => true
  | some restr => intersects restr key

/-- `_z_interest_send_decl_resource` -/
def sendDeclResource (interestId : UInt32) (restrKey : Option (List UInt8)) : List DeclareMessage :=
  (zn.localResources.tables.localResources.filter fun res ↦ concerned intersects restrKey res.key).map
    fun res ↦ .declare (some interestId) (.kexpr res.id res.key)

/-- `_z_interest_send_decl_subscriber` -/
def sendDeclSubscriber (interestId : UInt32) (restrKey : Option (List UInt8)) :
    List DeclareMessage :=
  (zn.subscriptions.filter fun sub ↦ concerned intersects restrKey sub.key).map
    fun sub ↦ .declare (some interestId) (.subscriber sub.id sub.key)

/-- `_z_interest_send_decl_queryable` -/
def sendDeclQueryable (interestId : UInt32) (restrKey : Option (List UInt8)) :
    List DeclareMessage :=
  (zn.localQueryable.filter fun qle ↦ concerned intersects restrKey qle.key).map
    fun qle ↦ .declare (some interestId) (.queryable qle.id qle.key qle.complete)

/-- `_z_interest_send_decl_token` -/
def sendDeclToken (interestId : UInt32) (restrKey : Option (List UInt8)) : List DeclareMessage :=
  (zn.localTokens.filter fun token ↦ concerned intersects restrKey token.2).map
    fun token ↦ .declare (some interestId) (.token token.1 token.2)

/-- `_z_interest_push_declarations_to_peer` -/
def pushDeclarationsToPeer : List DeclareMessage :=
  zn.sendDeclResource intersects 0 none ++ zn.sendDeclSubscriber intersects 0 none ++
    zn.sendDeclQueryable intersects 0 none ++ zn.sendDeclToken intersects 0 none ++
    [.declare (some 0) .final]

/-- `_z_interest_push_interests_to_peer` -/
def pushInterestsToPeer : List DeclareMessage :=
  zn.localInterests.map fun intr ↦ .interest intr.id intr.key intr.flags

/-- What `_z_client_reopen_task_fn` sends to the new router -/
def replay : List DeclareMessage := zn.pushDeclarationsToPeer intersects ++ zn.pushInterestsToPeer

/-- `_z_interest_process_interest`, on a multicast transport, after the JOIN. The key is that of the
wire expression, if the interest is restricted. -/
def processInterest (id : UInt32) (flags : UInt8) (restrKey : Option (List UInt8)) :
    List DeclareMessage :=
  if mode.isMulticast && hasInterestFlag flags interestFlagCurrent then
    (if hasInterestFlag flags interestFlagKeyexprs then
      zn.sendDeclResource intersects id restrKey else []) ++
    (if hasInterestFlag flags interestFlagSubscribers then
      zn.sendDeclSubscriber intersects id restrKey else []) ++
    (if hasInterestFlag flags interestFlagQueryables then
      zn.sendDeclQueryable intersects id restrKey else []) ++
    (if hasInterestFlag flags interestFlagTokens then
      zn.sendDeclToken intersects id restrKey else []) ++ [.declare (some id) .final]
  else []

end LocalSession

/-! ### Runs -/

/-- What happens to a session: its resources change, entities are declared and undeclared, a peer
is accepted or connected to, the router is reached again, and an interest is received. An entity
whose declaration declares a resource is two events. A message may be sent or not; of the messages
of a replay the first ones are sent. -/
inductive LocalEvent
  | resource (e : LocalResourceEvent)
  | declare (key : List UInt8) (kind : EntityKind) (routerPeer sent : Bool)
  | undeclare (table : EntityTable) (id : UInt32) (sent : Bool)
  | peerAccepted (sent : ℕ)
  | peerConnected (sent : ℕ)
  | reopened (sent : ℕ)
  | interestReceived (id : UInt32) (flags : UInt8) (restrKey : Option (List UInt8)) (sent : ℕ)
deriving DecidableEq, Repr

namespace LocalSession

variable (mode : SessionMode) (intersects : List UInt8 → List UInt8 → Bool) (zn : LocalSession)

/-- One event, and what is sent -/
def step : LocalEvent → LocalSession × List DeclareMessage
  | .resource e => ({ zn with localResources := zn.localResources.step e }, [])
  | .declare key kind routerPeer sent => zn.declare mode key kind routerPeer sent
  | .undeclare table id sent => zn.undeclare mode table id sent
  | .peerAccepted sent => (zn, (zn.pushDeclarationsToPeer intersects).take sent)
  | .peerConnected sent => (zn, (zn.replay intersects).take sent)
  | .reopened sent => (zn, (zn.replay intersects).take sent)
  | .interestReceived id flags restrKey sent =>
    (zn, (zn.processInterest mode intersects id flags restrKey).take sent)

/-- The events of a run all meet a condition. -/
def AllEvents (P : LocalSession → LocalEvent → Prop) : List LocalEvent → LocalSession → Prop
  | [], _ => True
  | e :: events, zn => P zn e ∧ AllEvents P events (zn.step mode intersects e).1

/-- The subscribers and queryables that are announced are ones that take messages from others. -/
structure OnlyRemote (zn : LocalSession) (messages : List DeclareMessage) : Prop where
  subscribers : ∀ interestId id key, .declare interestId (.subscriber id key) ∈ messages →
    ∃ sub ∈ zn.subscriptions, sub.id = id ∧ sub.key = key ∧ sub.allowedOrigin.allowsRemote = true
  queryables : ∀ interestId id key complete,
    .declare interestId (.queryable id key complete) ∈ messages →
      ∃ qle ∈ zn.localQueryable, qle.id = id ∧ qle.key = key ∧ qle.complete = complete ∧
        qle.allowedOrigin.allowsRemote = true

/-- Nothing session-local is announced by an event. -/
def AnnouncesRemote (zn : LocalSession) (e : LocalEvent) : Prop :=
  (zn.step mode intersects e).1.OnlyRemote (zn.step mode intersects e).2

/-- No subscriber of the table that is concerned is session-local. -/
def SubscribersRemote (restrKey : Option (List UInt8)) : Prop :=
  ∀ sub ∈ zn.subscriptions, concerned intersects restrKey sub.key = true →
    sub.allowedOrigin.allowsRemote = true

/-- No queryable of the table that is concerned is session-local. -/
def QueryablesRemote (restrKey : Option (List UInt8)) : Prop :=
  ∀ qle ∈ zn.localQueryable, concerned intersects restrKey qle.key = true →
    qle.allowedOrigin.allowsRemote = true

/-- The condition on an event: a table is sent again only while no entity that is sent is
session-local. -/
def Allowed : LocalEvent → Prop
  | .peerAccepted _ | .peerConnected _ | .reopened _ =>
    zn.SubscribersRemote intersects none ∧ zn.QueryablesRemote intersects none
  | .interestReceived _ flags restrKey _ =>
    mode.isMulticast = true → hasInterestFlag flags interestFlagCurrent = true →
      (hasInterestFlag flags interestFlagSubscribers = true →
        zn.SubscribersRemote intersects restrKey) ∧
      (hasInterestFlag flags interestFlagQueryables = true →
        zn.QueryablesRemote intersects restrKey)
  | _ => True

variable {mode intersects zn}

theorem OnlyRemote.nil (zn : LocalSession) : zn.OnlyRemote [] := ⟨nofun, nofun⟩

theorem OnlyRemote.append {first second : List DeclareMessage} (hfirst : zn.OnlyRemote first)
    (hsecond : zn.OnlyRemote second) : zn.OnlyRemote (first ++ second) where
  subscribers interestId id key hmem := (mem_append.mp hmem).elim
    (hfirst.subscribers interestId id key) (hsecond.subscribers interestId id key)
  queryables interestId id key complete hmem := (mem_append.mp hmem).elim
    (hfirst.queryables interestId id key complete) (hsecond.queryables interestId id key complete)

variable {messages : List DeclareMessage}

theorem OnlyRemote.subset {sent : List DeclareMessage} (h : zn.OnlyRemote messages)
    (hsent : sent ⊆ messages) : zn.OnlyRemote sent where
  subscribers interestId id key hmem := h.subscribers interestId id key (hsent hmem)
  queryables interestId id key complete hmem :=
    h.queryables interestId id key complete (hsent hmem)

theorem OnlyRemote.of_ite {p : Prop} [Decidable p] (h : p → zn.OnlyRemote messages) :
    zn.OnlyRemote (if p then messages else []) := by
  split
  · next hp => exact h hp
  · exact .nil zn

/-! ### What is sent again -/

variable {restrKey : Option (List UInt8)}

theorem onlyRemote_sendDeclSubscriber (interestId : UInt32)
    (h : zn.SubscribersRemote intersects restrKey) :
    zn.OnlyRemote (zn.sendDeclSubscriber intersects interestId restrKey) where
  subscribers _ id key hmem := by
    obtain ⟨sub, hsub, heq⟩ := mem_map.mp hmem
    obtain ⟨hsub, hconcerned⟩ := mem_filter.mp hsub
    cases heq
    exact ⟨sub, hsub, rfl, rfl, h sub hsub hconcerned⟩
  queryables _ id key complete hmem := by
    obtain ⟨sub, -, heq⟩ := mem_map.mp hmem
    cases heq

theorem onlyRemote_sendDeclQueryable (interestId : UInt32)
    (h : zn.QueryablesRemote intersects restrKey) :
    zn.OnlyRemote (zn.sendDeclQueryable intersects interestId restrKey) where
  subscribers _ id key hmem := by
    obtain ⟨qle, -, heq⟩ := mem_map.mp hmem
    cases heq
  queryables _ id key complete hmem := by
    obtain ⟨qle, hqle, heq⟩ := mem_map.mp hmem
    obtain ⟨hqle, hconcerned⟩ := mem_filter.mp hqle
    cases heq
    exact ⟨qle, hqle, rfl, rfl, rfl, h qle hqle hconcerned⟩

theorem onlyRemote_sendDeclResource (interestId : UInt32) (restrKey : Option (List UInt8)) :
    zn.OnlyRemote (zn.sendDeclResource intersects interestId restrKey) where
  subscribers _ id key hmem := by
    obtain ⟨res, -, heq⟩ := mem_map.mp hmem
    cases heq
  queryables _ id key complete hmem := by
    obtain ⟨res, -, heq⟩ := mem_map.mp hmem
    cases heq

theorem onlyRemote_sendDeclToken (interestId : UInt32) (restrKey : Option (List UInt8)) :
    zn.OnlyRemote (zn.sendDeclToken intersects interestId restrKey) where
  subscribers _ id key hmem := by
    obtain ⟨token, -, heq⟩ := mem_map.mp hmem
    cases heq
  queryables _ id key complete hmem := by
    obtain ⟨token, -, heq⟩ := mem_map.mp hmem
    cases heq

theorem onlyRemote_final (zn : LocalSession) (interestId : Option UInt32) :
    zn.OnlyRemote [.declare interestId .final] where
  subscribers _ _ _ hmem := by simp at hmem
  queryables _ _ _ _ hmem := by simp at hmem

theorem onlyRemote_pushDeclarations (hsub : zn.SubscribersRemote intersects none)
    (hqle : zn.QueryablesRemote intersects none) :
    zn.OnlyRemote (zn.pushDeclarationsToPeer intersects) :=
  ((((onlyRemote_sendDeclResource 0 none).append (onlyRemote_sendDeclSubscriber 0 hsub)).append
    (onlyRemote_sendDeclQueryable 0 hqle)).append (onlyRemote_sendDeclToken 0 none)).append
      (onlyRemote_final zn (some 0))

theorem onlyRemote_replay (hsub : zn.SubscribersRemote intersects none)
    (hqle : zn.QueryablesRemote intersects none) : zn.OnlyRemote (zn.replay intersects) := by
  refine (onlyRemote_pushDeclarations hsub hqle).append ⟨fun _ _ _ hmem ↦ ?_, fun _ _ _ _ hmem ↦ ?_⟩
  · obtain ⟨intr, -, heq⟩ := mem_map.mp hmem
    cases heq
  · obtain ⟨intr, -, heq⟩ := mem_map.mp hmem
    cases heq

theorem onlyRemote_processInterest {id : UInt32} {flags : UInt8} {sent : ℕ}
    (h : zn.Allowed mode intersects (.interestReceived id flags restrKey sent)) :
    zn.OnlyRemote (zn.processInterest mode intersects id flags restrKey) := by
  rw [processInterest]
  refine .of_ite fun hcurrent ↦ ?_
  obtain ⟨hmulticast, hcurrent⟩ := Bool.and_eq_true_iff.mp hcurrent
  obtain ⟨hsub, hqle⟩ := h hmulticast hcurrent
  exact ((((OnlyRemote.of_ite fun _ ↦ onlyRemote_sendDeclResource id restrKey).append
    (.of_ite fun hflag ↦ onlyRemote_sendDeclSubscriber id (hsub hflag))).append
    (.of_ite fun hflag ↦ onlyRemote_sendDeclQueryable id (hqle hflag))).append
    (.of_ite fun _ ↦ onlyRemote_sendDeclToken id restrKey)).append (onlyRemote_final zn (some id))

/-! ### What is announced when it is declared -/

theorem onlyRemote_of_forall (h : ∀ message ∈ messages, message.announces = false) :
    zn.OnlyRemote messages where
  subscribers interestId id key hmem := by cases h _ hmem
  queryables interestId id key complete hmem := by cases h _ hmem

theorem onlyRemote_addInterest (after : LocalSession) (key : List UInt8) (flags : UInt8)
    (routerPeer sent : Bool) :
    after.OnlyRemote (zn.addInterest mode key flags routerPeer sent).2 := by
  refine onlyRemote_of_forall fun message hmem ↦ ?_
  simp only [addInterest] at hmem
  split at hmem
  · split at hmem
    · rw [mem_singleton.mp hmem]
      rfl
    · cases hmem
  · cases hmem

theorem announcesRemote_declare (zn : LocalSession) (key : List UInt8) (kind : EntityKind)
    (routerPeer sent : Bool) :
    zn.AnnouncesRemote mode intersects (.declare key kind routerPeer sent) := by
  rw [AnnouncesRemote, step]
  cases kind with
  | subscriber allowedOrigin =>
    simp only [declare, registerSubscriber]
    split
    · next hremote =>
      split
      · refine ⟨fun interestId id k hmem ↦ ?_, fun _ _ _ _ hmem ↦ by simp at hmem⟩
        obtain ⟨-, rfl, rfl⟩ : interestId = none ∧ id = zn.entityId ∧ k = key := by simpa using hmem
        exact ⟨_, mem_cons_self, rfl, rfl, hremote⟩
      · exact .nil _
    · exact .nil _
  | queryable complete allowedOrigin =>
    simp only [declare, registerQueryable]
    split
    · next hremote =>
      split
      · refine ⟨fun _ _ _ hmem ↦ by simp at hmem, fun interestId id k c hmem ↦ ?_⟩
        obtain ⟨-, rfl, rfl, rfl⟩ :
            interestId = none ∧ id = zn.entityId ∧ k = key ∧ c = complete := by simpa using hmem
        exact ⟨_, mem_cons_self, rfl, rfl, rfl, hremote⟩
      · exact .nil _
    · exact .nil _
  | token =>
    refine onlyRemote_of_forall fun message hmem ↦ ?_
    simp only [declare, declareLivelinessToken] at hmem
    split at hmem
    · split at hmem
      · rcases mem_cons.mp hmem with rfl | hmem
        · rfl
        · rw [mem_singleton.mp hmem]
          rfl
      · rw [mem_singleton.mp hmem]
        rfl
    · cases hmem
  | livelinessSubscriber history =>
    refine onlyRemote_of_forall fun message hmem ↦ ?_
    simp only [declare, registerLivelinessSubscriber] at hmem
    split at hmem
    · rw [mem_singleton.mp hmem]
      rfl
    · cases hmem
  | publisher => exact onlyRemote_addInterest ..
  | querier => exact onlyRemote_addInterest ..

theorem announcesRemote_undeclare (zn : LocalSession) (table : EntityTable) (id : UInt32)
    (sent : Bool) : zn.AnnouncesRemote mode intersects (.undeclare table id sent) := by
  refine onlyRemote_of_forall fun message hmem ↦ ?_
  rw [step] at hmem
  cases table with
  | subscriptions =>
    simp only [undeclare, undeclareSubscriber] at hmem
    split at hmem
    · cases hmem
    · split at hmem
      · rw [mem_singleton.mp hmem]
        rfl
      · cases hmem
  | localQueryable =>
    simp only [undeclare, undeclareQueryable] at hmem
    split at hmem
    · cases hmem
    · split at hmem
      · rw [mem_singleton.mp hmem]
        rfl
      · cases hmem
  | localTokens =>
    simp only [undeclare, undeclareLivelinessToken] at hmem
    split at hmem
    · cases hmem
    · split at hmem
      · rw [mem_singleton.mp hmem]
        rfl
      · cases hmem
  | livelinessSubscriptions =>
    simp only [undeclare, undeclareLivelinessSubscriber] at hmem
    split at hmem
    · cases hmem
    · split at hmem
      · rw [mem_singleton.mp hmem]
        rfl
      · cases hmem
  | localInterests =>
    simp only [undeclare, removeInterest] at hmem
    split at hmem
    · cases hmem
    · split at hmem
      · split at hmem
        · rw [mem_singleton.mp hmem]
          rfl
        · cases hmem
      · cases hmem

theorem announcesRemote_of_allowed {e : LocalEvent} (h : zn.Allowed mode intersects e) :
    zn.AnnouncesRemote mode intersects e := by
  cases e with
  | resource e => exact .nil _
  | declare key kind routerPeer sent => exact announcesRemote_declare zn key kind routerPeer sent
  | undeclare table id sent => exact announcesRemote_undeclare zn table id sent
  | peerAccepted sent => exact (onlyRemote_pushDeclarations h.1 h.2).subset (take_subset sent _)
  | peerConnected sent => exact (onlyRemote_replay h.1 h.2).subset (take_subset sent _)
  | reopened sent => exact (onlyRemote_replay h.1 h.2).subset (take_subset sent _)
  | interestReceived id flags restrKey sent =>
    exact (onlyRemote_processInterest h).subset (take_subset sent _)

/-- In a run in which no session-local entity is in a table when it is sent again, none is ever
announced. -/
theorem localOnly_of_allowed {events : List LocalEvent} {zn : LocalSession}
    (h : AllEvents mode intersects (Allowed mode intersects) events zn) :
    AllEvents mode intersects (AnnouncesRemote mode intersects) events zn := by
  induction events generalizing zn with
  | nil => trivial
  | cons e events ih => exact ⟨announcesRemote_of_allowed h.1, ih h.2⟩

/-- A session-local subscriber, and one that takes messages from others -/
def twoSubscribers : List LocalEvent :=
  [.declare [0x61] (.subscriber .sessionLocal) false true,
    .declare [0x62] (.subscriber .any) false true]

theorem localOnly_undeclared : AllEvents ⟨false, false, false⟩ (fun _ _ ↦ true)
      (AnnouncesRemote ⟨false, false, false⟩ fun _ _ ↦ true)
      (twoSubscribers ++ [.undeclare .subscriptions 1 true, .peerAccepted 3]) init := by
  refine localOnly_of_allowed ⟨trivial, trivial, trivial, ⟨fun sub hsub _ ↦ ?_, nofun⟩, trivial⟩
  obtain rfl := mem_singleton.mp hsub
  rfl

/-- A peer that comes later is told of a session-local subscriber. -/
theorem localOnly_replayed :
    ¬ ∀ (mode : SessionMode) (intersects : List UInt8 → List UInt8 → Bool) (events : List LocalEvent),
      AllEvents mode intersects (AnnouncesRemote mode intersects) events init := by
  intro h
  obtain ⟨-, -, hpeer, -⟩ := h ⟨false, false, false⟩ (fun _ _ ↦ true)
    (twoSubscribers ++ [.peerAccepted 3])
  obtain ⟨sub, hsub, -, hkey, hremote⟩ := hpeer.subscribers (some 0) 1 [0x61] (by decide)
  rcases mem_cons.mp hsub with rfl | hsub
  · cases hkey
  · obtain rfl := mem_singleton.mp hsub
    cases hremote

end LocalSession

end ZenohPico.Session
