import ZenohPico.Session.LocalDeclares

/-!
What a client sends to a router that it reaches again (`_z_client_reopen_task_fn` of
`src/net/session.c`).

The replay is made from the tables of the session, in which an entity is from its declaration to its
undeclaration (`Inv`). The table of the liveliness subscribers is not among them, nor is the
locality of an entity looked at: the router is told exactly what is alive if and only if no
liveliness subscriber and no session-local entity is alive (`Reached.replayExact_iff`). The interest
of a publisher or a querier that is undeclared while nothing can be sent stays in its table.
-/

open List

namespace ZenohPico.Session

/-! ### Entities -/

/-- An entity that was declared. The id of a publisher or a querier is that of its interest. -/
structure Entity where
  id : UInt32
  key : List UInt8
  kind : EntityKind
deriving DecidableEq, Repr

namespace Entity

variable (mode : SessionMode)

/-- The entity in the table of the subscribers -/
def subscription : Entity → Option LocalSubscription
  | ⟨id, key, .subscriber allowedOrigin⟩ => some ⟨id, key, allowedOrigin⟩
  | _ => none

/-- The entity in the table of the queryables -/
def queryable : Entity → Option LocalQueryable
  | ⟨id, key, .queryable complete allowedOrigin⟩ => some ⟨id, key, complete, allowedOrigin⟩
  | _ => none

/-- The entity in the table of the tokens -/
def token : Entity → Option (UInt32 × List UInt8)
  | ⟨id, key, .token⟩ => some (id, key)
  | _ => none

/-- The entity in the table of the interests -/
def filterInterest : Entity → Option LocalInterest
  | ⟨id, key, .publisher⟩ =>
    some ⟨id, key, LocalSession.writeFilterFlags mode interestFlagSubscribers false⟩
  | ⟨id, key, .querier⟩ =>
    some ⟨id, key, LocalSession.writeFilterFlags mode interestFlagQueryables false⟩
  | _ => none

/-- The declaration that a router is to have of an entity -/
def declaration : Entity → Option Declaration
  | ⟨id, key, .subscriber allowedOrigin⟩ =>
    if allowedOrigin.allowsRemote then some (.subscriber id key) else none
  | ⟨id, key, .queryable complete allowedOrigin⟩ =>
    if allowedOrigin.allowsRemote then some (.queryable id key complete) else none
  | ⟨id, key, .token⟩ => some (.token id key)
  | _ => none

/-- The interest that a router is to have of an entity -/
def interest : Entity → Option LocalInterest
  | ⟨id, key, .livelinessSubscriber history⟩ =>
    some ⟨id, key, LocalSession.livelinessFlags history⟩
  | entity => entity.filterInterest mode

end Entity

/-- A client, and the entities that were declared and not undeclared -/
structure ClientWorld where
  zn : LocalSession
  alive : List Entity

namespace ClientWorld

variable (mode : SessionMode) (intersects : List UInt8 → List UInt8 → Bool) (w : ClientWorld)

/-- Nothing has been declared. -/
def init : ClientWorld := ⟨.init, []⟩

/-- The id that an entity of a kind gets -/
def newId (zn : LocalSession) : EntityKind → UInt32
  | .publisher | .querier => zn.entityId + 1
  | _ => zn.entityId

/-- The declaration of an entity succeeds on a client. -/
def succeeds (zn : LocalSession) (kind : EntityKind) (sent : Bool) : Bool :=
  match kind with
  | .subscriber allowedOrigin | .queryable _ allowedOrigin => sent || !allowedOrigin.allowsRemote
  | .token => sent && (zn.localTokens.find? (·.1 = zn.entityId)).isNone
  | .livelinessSubscriber _ | .publisher | .querier => sent

/-- The entities after an event -/
def aliveAfter : LocalEvent → List Entity
  | .declare key kind _ sent =>
    if succeeds w.zn kind sent then ⟨newId w.zn kind, key, kind⟩ :: w.alive else w.alive
  | .undeclare table id _ => w.alive.filter fun e ↦ ¬(e.kind.table = table ∧ e.id = id)
  | _ => w.alive

/-- One event -/
def step (e : LocalEvent) : ClientWorld := ⟨(w.zn.step mode intersects e).1, w.aliveAfter e⟩

/-- The condition on an event: the ids of resources and entities are not in use, and the interest
of a publisher or a querier is not removed without the router being told. -/
def Allowed : LocalEvent → Prop
  | .resource e => w.zn.localResources.Fresh e
  | .declare _ kind _ _ => ∀ e ∈ w.alive, e.id ≠ newId w.zn kind
  | .undeclare table _ sent => table = .localInterests → sent = true
  | _ => True

/-- The worlds of the runs whose events meet the condition -/
inductive Reached : ClientWorld → Prop
  | init : Reached init
  | step {w : ClientWorld} {e : LocalEvent} (h : Reached w) (hallowed : w.Allowed e) :
      Reached (w.step mode intersects e)

/-- A new router receives the declarations and interests of what is alive, and nothing else. -/
structure ReplayExact : Prop where
  nodup : (w.zn.replay intersects).Nodup
  declarations : ∀ decl, (∃ interestId, .declare interestId decl ∈ w.zn.replay intersects) ↔
    decl = .final ∨ (∃ id key, 0 < w.zn.localResources.count id key ∧ decl = .kexpr id key) ∨
      ∃ e ∈ w.alive, e.declaration = some decl
  interests : ∀ intr : LocalInterest,
    .interest intr.id intr.key intr.flags ∈ w.zn.replay intersects ↔
      ∃ e ∈ w.alive, e.interest mode = some intr

/-- The kinds of entities that are sent again, and are to be -/
def replayed : EntityKind → Bool
  | .subscriber allowedOrigin | .queryable _ allowedOrigin => allowedOrigin.allowsRemote
  | .livelinessSubscriber _ => false
  | .token | .publisher | .querier => true

/-! ### What is in the tables -/

/-- The tables have the entities that are alive. -/
structure Inv : Prop where
  resources : w.zn.localResources.Inv
  ids : (w.alive.map Entity.id).Nodup
  subscriptions : w.zn.subscriptions = w.alive.filterMap Entity.subscription
  localQueryable : w.zn.localQueryable = w.alive.filterMap Entity.queryable
  localTokens : w.zn.localTokens = w.alive.filterMap Entity.token
  localInterests : w.zn.localInterests = w.alive.filterMap (Entity.filterInterest mode)

theorem init_inv : init.Inv mode := ⟨LocalResources.init_inv, .nil, rfl, rfl, rfl, rfl⟩

/-- A projection of the entities to a table: it is defined for the entities of the table, and keeps
their ids. -/
structure Projects {α : Type} (f : Entity → Option α) (idOf : α → UInt32) (table : EntityTable) :
    Prop where
  isSome : ∀ e, (f e).isSome = true ↔ e.kind.table = table
  id : ∀ e a, f e = some a → idOf a = e.id

theorem projects_subscription :
    Projects Entity.subscription LocalSubscription.id .subscriptions where
  isSome e := by
    rcases e with ⟨id, key, kind⟩
    cases kind <;> simp [Entity.subscription, EntityKind.table]
  id e a h := by rcases e with ⟨id, key, _ | _ | _ | _ | _ | _⟩ <;> cases h; rfl

theorem projects_queryable : Projects Entity.queryable LocalQueryable.id .localQueryable where
  isSome e := by
    rcases e with ⟨id, key, kind⟩
    cases kind <;> simp [Entity.queryable, EntityKind.table]
  id e a h := by rcases e with ⟨id, key, _ | _ | _ | _ | _ | _⟩ <;> cases h; rfl

theorem projects_token : Projects Entity.token Prod.fst .localTokens where
  isSome e := by
    rcases e with ⟨id, key, kind⟩
    cases kind <;> simp [Entity.token, EntityKind.table]
  id e a h := by rcases e with ⟨id, key, _ | _ | _ | _ | _ | _⟩ <;> cases h; rfl

theorem projects_filterInterest :
    Projects (Entity.filterInterest mode) LocalInterest.id .localInterests where
  isSome e := by
    rcases e with ⟨id, key, kind⟩
    cases kind <;> simp [Entity.filterInterest, EntityKind.table]
  id e a h := by rcases e with ⟨id, key, _ | _ | _ | _ | _ | _⟩ <;> cases h <;> rfl

variable {mode intersects w}

variable {e : Entity} {id : UInt32}

section Projection

variable {α : Type} {f : Entity → Option α} {idOf : α → UInt32} {table other : EntityTable}
  {alive : List Entity}

theorem Projects.eq_none (h : Projects f idOf table) (he : e.kind.table ≠ table) : f e = none :=
  Option.not_isSome_iff_eq_none.mp fun hsome ↦ he ((h.isSome e).mp hsome)

/-- What is undeclared leaves its table. -/
theorem Projects.filterMap_undeclared (h : Projects f idOf table)
    (hids : (alive.map Entity.id).Nodup) (id : UInt32) :
    (alive.filter fun e ↦ ¬(e.kind.table = table ∧ e.id = id)).filterMap f =
      (alive.filterMap f).eraseP (idOf · = id) := by
  induction alive with
  | nil => rfl
  | cons e alive ih =>
    rw [map_cons, nodup_cons] at hids
    by_cases htable : e.kind.table = table
    · obtain ⟨a, ha⟩ := Option.isSome_iff_exists.mp ((h.isSome e).mpr htable)
      have haid := h.id e a ha
      rw [filterMap_cons_some ha]
      by_cases hid : e.id = id
      · have hrest : alive.filter (fun e ↦ ¬(e.kind.table = table ∧ e.id = id)) = alive := by
          refine filter_eq_self.mpr fun e' he' ↦ decide_eq_true fun hsame ↦ hids.1 ?_
          exact mem_map.mpr ⟨e', he', hsame.2.trans hid.symm⟩
        rw [filter_cons_of_neg (by simp [htable, hid]), hrest,
          eraseP_cons_of_pos (by simpa [haid] using hid)]
      · rw [filter_cons_of_pos (by simp [hid]), filterMap_cons_some ha,
          eraseP_cons_of_neg (by simpa [haid] using hid), ih hids.2]
    · have hnone := h.eq_none htable
      rw [filter_cons_of_pos (by simp [htable]), filterMap_cons_none hnone,
        filterMap_cons_none hnone, ih hids.2]

/-- The other tables stay as they are. -/
theorem Projects.filterMap_other (h : Projects f idOf table) (hne : other ≠ table) (id : UInt32) :
    (alive.filter fun e ↦ ¬(e.kind.table = other ∧ e.id = id)).filterMap f = alive.filterMap f := by
  rw [filterMap_filter]
  refine filterMap_congr fun e _ ↦ ?_
  split
  · rfl
  · next hdropped =>
    have hother : e.kind.table = other := by
      by_contra hkept
      simp [hkept] at hdropped
    exact (h.eq_none (hother ▸ hne)).symm

/-- An id that is undeclared is found in its table, or is that of no entity of the table. -/
theorem eraseP_of_find?_none {table : List α} (hfind : table.find? (idOf · = id) = none) :
    table.eraseP (idOf · = id) = table :=
  eraseP_of_forall_not fun a ha ↦ List.find?_eq_none.mp hfind a ha

end Projection

/-! ### One event -/

/-- A new entity is in its table, and in no other. -/
theorem Inv.cons (h : w.Inv mode) (zn : LocalSession) (e : Entity)
    (hid : ∀ e' ∈ w.alive, e'.id ≠ e.id) (hresources : zn.localResources = w.zn.localResources)
    (hsub : zn.subscriptions = (e.subscription.toList ++ w.zn.subscriptions))
    (hqle : zn.localQueryable = (e.queryable.toList ++ w.zn.localQueryable))
    (htoken : zn.localTokens = (e.token.toList ++ w.zn.localTokens))
    (hintr : zn.localInterests = ((e.filterInterest mode).toList ++ w.zn.localInterests)) :
    (⟨zn, e :: w.alive⟩ : ClientWorld).Inv mode := by
  have hcons : ∀ {α : Type} (f : Entity → Option α),
      (e :: w.alive).filterMap f = (f e).toList ++ w.alive.filterMap f := by
    intro α f
    cases hf : f e with
    | none => rw [filterMap_cons_none hf]; rfl
    | some a => rw [filterMap_cons_some hf]; rfl
  refine ⟨by rw [hresources]; exact h.resources, ?_, ?_, ?_, ?_, ?_⟩
  · refine nodup_cons.mpr ⟨fun hmem ↦ ?_, h.ids⟩
    obtain ⟨e', he', heq⟩ := mem_map.mp hmem
    exact hid e' he' heq
  · rw [hsub, h.subscriptions, hcons]
  · rw [hqle, h.localQueryable, hcons]
  · rw [htoken, h.localTokens, hcons]
  · rw [hintr, h.localInterests, hcons]

/-- Nothing but the counter changes. -/
theorem Inv.count (h : w.Inv mode) (entityId : UInt32) :
    (⟨{ w.zn with entityId }, w.alive⟩ : ClientWorld).Inv mode :=
  ⟨h.resources, h.ids, h.subscriptions, h.localQueryable, h.localTokens, h.localInterests⟩

theorem writeFilterFlags_client (hclient : mode.isClient = true) (interestFlag : UInt8)
    (routerPeer : Bool) : LocalSession.writeFilterFlags mode interestFlag routerPeer =
      LocalSession.writeFilterFlags mode interestFlag false := by
  rw [LocalSession.writeFilterFlags, LocalSession.writeFilterFlags, if_pos hclient, if_pos hclient]

variable {key : List UInt8}

/-- The interest of a publisher or a querier -/
theorem Inv.declareWithFilter (h : w.Inv mode) (hclient : mode.isClient = true) {kind : EntityKind}
    {interestFlag : UInt8} (routerPeer : Bool) (hid : ∀ e ∈ w.alive, e.id ≠ w.zn.entityId + 1)
    (hsub : Entity.subscription ⟨w.zn.entityId + 1, key, kind⟩ = none)
    (hqle : Entity.queryable ⟨w.zn.entityId + 1, key, kind⟩ = none)
    (htoken : Entity.token ⟨w.zn.entityId + 1, key, kind⟩ = none)
    (hintr : Entity.filterInterest mode ⟨w.zn.entityId + 1, key, kind⟩ =
      some ⟨w.zn.entityId + 1, key, LocalSession.writeFilterFlags mode interestFlag false⟩)
    (sent : Bool) : (⟨(w.zn.declareWithFilter mode key interestFlag routerPeer sent).1,
      if sent then ⟨w.zn.entityId + 1, key, kind⟩ :: w.alive else w.alive⟩ : ClientWorld).Inv
        mode := by
  rw [LocalSession.declareWithFilter, LocalSession.addInterest, hclient, Bool.true_or, Bool.true_or,
    if_pos rfl, writeFilterFlags_client hclient]
  cases sent with
  | false => exact h.count _
  | true =>
    refine h.cons _ ⟨w.zn.entityId + 1, key, kind⟩ hid ?_ ?_ ?_ ?_ ?_
    · rfl
    · rw [hsub]
      rfl
    · rw [hqle]
      rfl
    · rw [htoken]
      rfl
    · rw [hintr]
      rfl

theorem Inv.declare (h : w.Inv mode) (hclient : mode.isClient = true) {kind : EntityKind}
    {routerPeer sent : Bool} (hallowed : w.Allowed (.declare key kind routerPeer sent)) :
    (w.step mode intersects (.declare key kind routerPeer sent)).Inv mode := by
  have hid : ∀ e ∈ w.alive, e.id ≠ newId w.zn kind := hallowed
  rw [step, LocalSession.step, aliveAfter]
  cases kind with
  | subscriber allowedOrigin =>
    have hcons := fun zn ↦ h.cons zn ⟨w.zn.entityId, key, .subscriber allowedOrigin⟩ hid
    simp only [LocalSession.declare, LocalSession.registerSubscriber, succeeds, newId]
    cases sent
    · cases allowedOrigin with
      | sessionLocal => refine hcons _ ?_ ?_ ?_ ?_ ?_ <;> rfl
      | any => exact h.count _
      | remote => exact h.count _
    · cases allowedOrigin <;> refine hcons _ ?_ ?_ ?_ ?_ ?_ <;> rfl
  | queryable complete allowedOrigin =>
    have hcons := fun zn ↦ h.cons zn ⟨w.zn.entityId, key, .queryable complete allowedOrigin⟩ hid
    simp only [LocalSession.declare, LocalSession.registerQueryable, succeeds, newId]
    cases sent
    · cases allowedOrigin with
      | sessionLocal => refine hcons _ ?_ ?_ ?_ ?_ ?_ <;> rfl
      | any => exact h.count _
      | remote => exact h.count _
    · cases allowedOrigin <;> refine hcons _ ?_ ?_ ?_ ?_ ?_ <;> rfl
  | token =>
    have hcons := fun zn ↦ h.cons zn ⟨w.zn.entityId, key, .token⟩ hid
    cases hfind : w.zn.localTokens.find? (·.1 = w.zn.entityId) with
    | none =>
      simp only [LocalSession.declare, LocalSession.declareLivelinessToken, succeeds, newId, hfind]
      cases sent
      · exact h.count _
      · refine hcons _ ?_ ?_ ?_ ?_ ?_ <;> rfl
    | some token =>
      simp only [LocalSession.declare, LocalSession.declareLivelinessToken, succeeds, newId, hfind]
      cases sent <;> exact h.count _
  | livelinessSubscriber history =>
    have hcons := fun zn ↦ h.cons zn ⟨w.zn.entityId, key, .livelinessSubscriber history⟩ hid
    simp only [LocalSession.declare, LocalSession.registerLivelinessSubscriber, succeeds, newId]
    cases sent
    · exact h.count _
    · refine hcons _ ?_ ?_ ?_ ?_ ?_ <;> rfl
  | publisher => exact h.declareWithFilter hclient routerPeer hid rfl rfl rfl rfl sent
  | querier => exact h.declareWithFilter hclient routerPeer hid rfl rfl rfl rfl sent

variable {zn : LocalSession}

/-- What is undeclared leaves its table, and no other. -/
theorem Inv.filter (h : w.Inv mode) {table : EntityTable}
    (hresources : zn.localResources = w.zn.localResources)
    (hsub : zn.subscriptions = if table = .subscriptions then
      w.zn.subscriptions.eraseP (·.id = id) else w.zn.subscriptions)
    (hqle : zn.localQueryable = if table = .localQueryable then
      w.zn.localQueryable.eraseP (·.id = id) else w.zn.localQueryable)
    (htoken : zn.localTokens = if table = .localTokens then
      w.zn.localTokens.eraseP (·.1 = id) else w.zn.localTokens)
    (hintr : zn.localInterests = if table = .localInterests then
      w.zn.localInterests.eraseP (·.id = id) else w.zn.localInterests) :
    (⟨zn, w.alive.filter fun e ↦ ¬(e.kind.table = table ∧ e.id = id)⟩ : ClientWorld).Inv
      mode := by
  have hafter : ∀ {α : Type} {f : Entity → Option α} {idOf : α → UInt32} {own : EntityTable},
      Projects f idOf own → (w.alive.filter fun e ↦ ¬(e.kind.table = table ∧ e.id = id)).filterMap f =
        if table = own then (w.alive.filterMap f).eraseP (idOf · = id)
        else w.alive.filterMap f := by
    intro α f idOf own hprojects
    split
    · next htable =>
      rw [htable]
      exact hprojects.filterMap_undeclared h.ids id
    · next htable => exact hprojects.filterMap_other htable id
  refine ⟨by rw [hresources]; exact h.resources, h.ids.sublist (filter_sublist.map _), ?_, ?_,
    ?_, ?_⟩
  · rw [hafter projects_subscription, ← h.subscriptions]
    exact hsub
  · rw [hafter projects_queryable, ← h.localQueryable]
    exact hqle
  · rw [hafter projects_token, ← h.localTokens]
    exact htoken
  · rw [hafter (projects_filterInterest mode), ← h.localInterests]
    exact hintr

theorem Inv.undeclare (h : w.Inv mode) (hclient : mode.isClient = true) {table : EntityTable}
    {sent : Bool} (hallowed : w.Allowed (.undeclare table id sent)) :
    (w.step mode intersects (.undeclare table id sent)).Inv mode := by
  rw [step, LocalSession.step, aliveAfter]
  cases table with
  | subscriptions =>
    rw [LocalSession.undeclare, LocalSession.undeclareSubscriber]
    cases hfind : w.zn.subscriptions.find? (·.id = id) with
    | none => exact h.filter rfl (eraseP_of_find?_none hfind).symm rfl rfl rfl
    | some sub => exact h.filter rfl rfl rfl rfl rfl
  | localQueryable =>
    rw [LocalSession.undeclare, LocalSession.undeclareQueryable]
    cases hfind : w.zn.localQueryable.find? (·.id = id) with
    | none => exact h.filter rfl rfl (eraseP_of_find?_none hfind).symm rfl rfl
    | some qle => exact h.filter rfl rfl rfl rfl rfl
  | localTokens =>
    rw [LocalSession.undeclare, LocalSession.undeclareLivelinessToken]
    cases hfind : w.zn.localTokens.find? (·.1 = id) with
    | none => exact h.filter rfl rfl rfl (eraseP_of_find?_none hfind).symm rfl
    | some token => exact h.filter rfl rfl rfl rfl rfl
  | livelinessSubscriptions =>
    rw [LocalSession.undeclare, LocalSession.undeclareLivelinessSubscriber]
    cases w.zn.livelinessSubscriptions.find? (·.1 = id) with
    | none => exact h.filter rfl rfl rfl rfl rfl
    | some sub => cases sent <;> exact h.filter rfl rfl rfl rfl rfl
  | localInterests =>
    obtain rfl : sent = true := hallowed rfl
    rw [LocalSession.undeclare, LocalSession.removeInterest, hclient]
    cases hfind : w.zn.localInterests.find? (·.id = id) with
    | none => exact h.filter rfl rfl rfl rfl (eraseP_of_find?_none hfind).symm
    | some intr => exact h.filter rfl rfl rfl rfl rfl

theorem Inv.step (h : w.Inv mode) (hclient : mode.isClient = true) {e : LocalEvent}
    (hallowed : w.Allowed e) : (w.step mode intersects e).Inv mode := by
  cases e with
  | resource e =>
    exact ⟨h.resources.next hallowed, h.ids, h.subscriptions, h.localQueryable, h.localTokens,
      h.localInterests⟩
  | declare key kind routerPeer sent => exact h.declare hclient hallowed
  | undeclare table id sent => exact h.undeclare hclient hallowed
  | peerAccepted sent => exact h
  | peerConnected sent => exact h
  | reopened sent => exact h
  | interestReceived id flags restrKey sent => exact h

theorem Reached.inv (hclient : mode.isClient = true) (h : Reached mode intersects w) :
    w.Inv mode := by
  induction h with
  | init => exact init_inv mode
  | step _ hallowed ih => exact ih.step hclient hallowed

/-! ### What is in a replay -/

theorem mem_replay_declare {interestId : Option UInt32} {decl : Declaration} :
    .declare interestId decl ∈ zn.replay intersects ↔ interestId = some 0 ∧ (decl = .final ∨
        (∃ res ∈ zn.localResources.tables.localResources, decl = .kexpr res.id res.key) ∨
        (∃ sub ∈ zn.subscriptions, decl = .subscriber sub.id sub.key) ∨
        (∃ qle ∈ zn.localQueryable, decl = .queryable qle.id qle.key qle.complete) ∨
        ∃ token ∈ zn.localTokens, decl = .token token.1 token.2) := by
  simp only [LocalSession.replay, LocalSession.pushDeclarationsToPeer,
    LocalSession.sendDeclResource, LocalSession.sendDeclSubscriber, LocalSession.sendDeclQueryable,
    LocalSession.sendDeclToken, LocalSession.pushInterestsToPeer, LocalSession.concerned,
    filter_true, mem_append, mem_map, mem_singleton, DeclareMessage.declare.injEq]
  constructor
  · rintro (((((⟨res, hres, rfl, rfl⟩ | ⟨sub, hsub, rfl, rfl⟩) | ⟨qle, hqle, rfl, rfl⟩) |
      ⟨token, htoken, rfl, rfl⟩) | ⟨rfl, rfl⟩) | ⟨intr, -, heq⟩)
    · exact ⟨rfl, .inr (.inl ⟨res, hres, rfl⟩)⟩
    · exact ⟨rfl, .inr (.inr (.inl ⟨sub, hsub, rfl⟩))⟩
    · exact ⟨rfl, .inr (.inr (.inr (.inl ⟨qle, hqle, rfl⟩)))⟩
    · exact ⟨rfl, .inr (.inr (.inr (.inr ⟨token, htoken, rfl⟩)))⟩
    · exact ⟨rfl, .inl rfl⟩
    · cases heq
  · rintro ⟨rfl, rfl | ⟨res, hres, rfl⟩ | ⟨sub, hsub, rfl⟩ | ⟨qle, hqle, rfl⟩ | ⟨token, htoken, rfl⟩⟩
    · exact .inl (.inr ⟨rfl, rfl⟩)
    · exact .inl (.inl (.inl (.inl (.inl ⟨res, hres, rfl, rfl⟩))))
    · exact .inl (.inl (.inl (.inl (.inr ⟨sub, hsub, rfl, rfl⟩))))
    · exact .inl (.inl (.inl (.inr ⟨qle, hqle, rfl, rfl⟩)))
    · exact .inl (.inl (.inr ⟨token, htoken, rfl, rfl⟩))

theorem mem_replay_interest {intr : LocalInterest} :
    .interest intr.id intr.key intr.flags ∈ zn.replay intersects ↔ intr ∈ zn.localInterests := by
  simp only [LocalSession.replay, LocalSession.pushDeclarationsToPeer,
    LocalSession.sendDeclResource, LocalSession.sendDeclSubscriber, LocalSession.sendDeclQueryable,
    LocalSession.sendDeclToken, LocalSession.pushInterestsToPeer, mem_append, mem_map,
    mem_singleton, DeclareMessage.interest.injEq, reduceCtorEq, and_false, exists_false, false_or]
  constructor
  · rintro ⟨other, hother, hid, hkey, hflags⟩
    rcases other with ⟨id, key, flags⟩
    obtain rfl : id = intr.id := hid
    obtain rfl : key = intr.key := hkey
    obtain rfl : flags = intr.flags := hflags
    exact hother
  · exact fun hintr ↦ ⟨intr, hintr, rfl, rfl, rfl⟩

theorem Projects.map_sublist {α : Type} {f : Entity → Option α} {idOf : α → UInt32}
    {table : EntityTable} (h : Projects f idOf table) (alive : List Entity) :
    ((alive.filterMap f).map idOf).Sublist (alive.map Entity.id) := by
  induction alive with
  | nil => exact .slnil
  | cons e alive ih =>
    cases hf : f e with
    | none =>
      rw [filterMap_cons_none hf]
      exact ih.cons _
    | some a =>
      rw [filterMap_cons_some hf, map_cons, map_cons, h.id e a hf]
      exact ih.cons_cons _

/-- Messages of one kind that keep the ids apart -/
theorem nodup_map_of_id {α β : Type} {l : List α} {idOf : α → β} {g : α → DeclareMessage}
    (hids : (l.map idOf).Nodup) (hg : ∀ a b, g a = g b → idOf a = idOf b) : (l.map g).Nodup :=
  (List.Nodup.of_map idOf hids).map_on fun a ha b hb heq ↦
    inj_on_of_nodup_map hids ha hb (hg a b heq)

theorem Inv.replay_nodup (h : w.Inv mode) : (w.zn.replay intersects).Nodup := by
  have hids : ∀ {α : Type} {f : Entity → Option α} {idOf : α → UInt32} {table : EntityTable},
      Projects f idOf table → ((w.alive.filterMap f).map idOf).Nodup :=
    fun hprojects ↦ h.ids.sublist (hprojects.map_sublist w.alive)
  have hres : (w.zn.localResources.tables.localResources.map fun res ↦
      DeclareMessage.declare (some 0) (.kexpr res.id res.key)).Nodup :=
    nodup_map_of_id h.resources.ids fun a b heq ↦ by simp_all
  have hsub : (w.zn.subscriptions.map fun sub ↦
      DeclareMessage.declare (some 0) (.subscriber sub.id sub.key)).Nodup :=
    nodup_map_of_id (h.subscriptions ▸ hids projects_subscription) fun a b heq ↦ by simp_all
  have hqle : (w.zn.localQueryable.map fun qle ↦
      DeclareMessage.declare (some 0) (.queryable qle.id qle.key qle.complete)).Nodup :=
    nodup_map_of_id (h.localQueryable ▸ hids projects_queryable) fun a b heq ↦ by simp_all
  have htoken : (w.zn.localTokens.map fun token ↦
      DeclareMessage.declare (some 0) (.token token.1 token.2)).Nodup :=
    nodup_map_of_id (h.localTokens ▸ hids projects_token) fun a b heq ↦ by simp_all
  have hintr : (w.zn.localInterests.map fun intr ↦
      DeclareMessage.interest intr.id intr.key intr.flags).Nodup :=
    nodup_map_of_id (h.localInterests ▸ hids (projects_filterInterest mode)) fun a b heq ↦ by
      simp_all
  simp only [LocalSession.replay, LocalSession.pushDeclarationsToPeer,
    LocalSession.sendDeclResource, LocalSession.sendDeclSubscriber, LocalSession.sendDeclQueryable,
    LocalSession.sendDeclToken, LocalSession.pushInterestsToPeer, LocalSession.concerned,
    filter_true, append_assoc, nodup_append, hres, hsub, hqle, htoken, hintr]
  -- the parts are of different kinds
  simp [or_imp, forall_and, -Prod.exists, -Prod.forall]

/-! ### The replay is exact -/

/-- Where it is sent again at all, what a router is to have of an entity is what its table has. -/
theorem declaration_iff (he : replayed e.kind = true) (decl : Declaration) :
    e.declaration = some decl ↔
      (∃ sub, e.subscription = some sub ∧ decl = .subscriber sub.id sub.key) ∨
      (∃ qle, e.queryable = some qle ∧ decl = .queryable qle.id qle.key qle.complete) ∨
      ∃ token, e.token = some token ∧ decl = .token token.1 token.2 := by
  rcases e with ⟨id, key, kind⟩
  cases kind with
  | subscriber allowedOrigin =>
    have hremote : allowedOrigin.allowsRemote = true := he
    simp [Entity.declaration, Entity.subscription, Entity.queryable, Entity.token, hremote, eq_comm]
  | queryable complete allowedOrigin =>
    have hremote : allowedOrigin.allowsRemote = true := he
    simp [Entity.declaration, Entity.subscription, Entity.queryable, Entity.token, hremote, eq_comm]
  | token =>
    simp [Entity.declaration, Entity.subscription, Entity.queryable, Entity.token, eq_comm]
  | livelinessSubscriber history => cases he
  | publisher =>
    simp [Entity.declaration, Entity.subscription, Entity.queryable, Entity.token]
  | querier =>
    simp [Entity.declaration, Entity.subscription, Entity.queryable, Entity.token]

theorem interest_eq (he : replayed e.kind = true) : e.interest mode = e.filterInterest mode := by
  rcases e with ⟨id, key, kind⟩
  cases kind with
  | livelinessSubscriber history => cases he
  | _ => rfl

/-- A resource is in the table as long as it was registered more often than unregistered. -/
theorem Inv.mem_resources (h : w.Inv mode) (decl : Declaration) :
    (∃ res ∈ w.zn.localResources.tables.localResources, decl = .kexpr res.id res.key) ↔
      ∃ id key, 0 < w.zn.localResources.count id key ∧ decl = .kexpr id key := by
  constructor
  · rintro ⟨res, hres, rfl⟩
    exact ⟨res.id, res.key, (h.resources.exact.registered_iff _ _).mp ⟨res, hres, rfl, rfl⟩, rfl⟩
  · rintro ⟨id, key, hcount, rfl⟩
    obtain ⟨res, hres, rfl, rfl⟩ := (h.resources.exact.registered_iff id key).mpr hcount
    exact ⟨res, hres, rfl⟩

theorem Inv.replayExact (h : w.Inv mode) (hall : ∀ e ∈ w.alive, replayed e.kind = true) :
    w.ReplayExact mode intersects where
  nodup := h.replay_nodup
  declarations decl := by
    have halive : (∃ e ∈ w.alive, e.declaration = some decl) ↔
        (∃ sub ∈ w.zn.subscriptions, decl = .subscriber sub.id sub.key) ∨
        (∃ qle ∈ w.zn.localQueryable, decl = .queryable qle.id qle.key qle.complete) ∨
        ∃ token ∈ w.zn.localTokens, decl = .token token.1 token.2 := by
      rw [h.subscriptions, h.localQueryable, h.localTokens]
      simp only [mem_filterMap]
      constructor
      · rintro ⟨e, he, hdecl⟩
        rcases (declaration_iff (hall e he) decl).mp hdecl with ⟨sub, hsub, heq⟩ | ⟨qle, hqle, heq⟩ |
          ⟨token, htoken, heq⟩
        · exact .inl ⟨sub, ⟨e, he, hsub⟩, heq⟩
        · exact .inr (.inl ⟨qle, ⟨e, he, hqle⟩, heq⟩)
        · exact .inr (.inr ⟨token, ⟨e, he, htoken⟩, heq⟩)
      · rintro (⟨sub, ⟨e, he, hsub⟩, heq⟩ | ⟨qle, ⟨e, he, hqle⟩, heq⟩ |
          ⟨token, ⟨e, he, htoken⟩, heq⟩)
        · exact ⟨e, he, (declaration_iff (hall e he) decl).mpr (.inl ⟨sub, hsub, heq⟩)⟩
        · exact ⟨e, he, (declaration_iff (hall e he) decl).mpr (.inr (.inl ⟨qle, hqle, heq⟩))⟩
        · exact ⟨e, he, (declaration_iff (hall e he) decl).mpr (.inr (.inr ⟨token, htoken, heq⟩))⟩
    simp only [mem_replay_declare, h.mem_resources, halive, exists_eq_left]
  interests intr := by
    rw [mem_replay_interest, h.localInterests, mem_filterMap]
    refine exists_congr fun e ↦ and_congr_right fun he ↦ ?_
    rw [interest_eq (hall e he)]

theorem Inv.eq_of_id (h : w.Inv mode) {other : Entity} (he : e ∈ w.alive) (hother : other ∈ w.alive)
    (hid : e.id = other.id) : e = other :=
  inj_on_of_nodup_map h.ids he hother hid

/-- The table of the interests has none of a liveliness subscriber. -/
theorem Inv.not_exact_of_liveliness (h : w.Inv mode) {history : Bool}
    (he : ⟨id, key, .livelinessSubscriber history⟩ ∈ w.alive) :
    ¬ w.ReplayExact mode intersects := by
  intro hexact
  have hmem := (hexact.interests ⟨id, key, LocalSession.livelinessFlags history⟩).mpr
    ⟨_, he, rfl⟩
  rw [mem_replay_interest, h.localInterests] at hmem
  obtain ⟨other, hother, hintr⟩ := mem_filterMap.mp hmem
  have hid : id = other.id := (projects_filterInterest mode).id other _ hintr
  obtain rfl := h.eq_of_id he hother hid
  cases hintr

/-- An entity that has no declaration and is declared again all the same -/
theorem Inv.not_exact_of_hidden (h : w.Inv mode) (he : e ∈ w.alive) (hhidden : e.declaration = none)
    {decl : Declaration} (hsent : ∃ interestId, .declare interestId decl ∈ w.zn.replay intersects)
    (hfinal : decl ≠ .final) (hkexpr : ∀ id key, decl ≠ .kexpr id key)
    (hid : ∀ other : Entity, other.declaration = some decl → other.id = e.id) :
    ¬ w.ReplayExact mode intersects := by
  intro hexact
  obtain heq | ⟨_, _, -, heq⟩ | ⟨other, hother, hdecl⟩ := (hexact.declarations decl).mp hsent
  · exact hfinal heq
  · exact hkexpr _ _ heq
  · obtain rfl := h.eq_of_id he hother (hid other hdecl).symm
    rw [hhidden] at hdecl
    cases hdecl

variable {allowedOrigin : Locality}

theorem Inv.not_exact_of_local_subscriber (h : w.Inv mode)
    (he : ⟨id, key, .subscriber allowedOrigin⟩ ∈ w.alive)
    (hlocal : allowedOrigin.allowsRemote = false) : ¬ w.ReplayExact mode intersects := by
  have hsub : ⟨id, key, allowedOrigin⟩ ∈ w.zn.subscriptions := by
    rw [h.subscriptions]
    exact mem_filterMap.mpr ⟨_, he, rfl⟩
  have hsent : ∃ interestId, .declare interestId (.subscriber id key) ∈ w.zn.replay intersects :=
    ⟨some 0, mem_replay_declare.mpr ⟨rfl, .inr (.inr (.inl ⟨_, hsub, rfl⟩))⟩⟩
  refine h.not_exact_of_hidden he (by simp [Entity.declaration, hlocal]) hsent (by simp)
    (by simp) fun other hdecl ↦ ?_
  rcases other with ⟨_, _, kind⟩
  cases kind <;> simp_all [Entity.declaration]

theorem Inv.not_exact_of_local_queryable (h : w.Inv mode) {complete : Bool}
    (he : ⟨id, key, .queryable complete allowedOrigin⟩ ∈ w.alive)
    (hlocal : allowedOrigin.allowsRemote = false) : ¬ w.ReplayExact mode intersects := by
  have hqle : ⟨id, key, complete, allowedOrigin⟩ ∈ w.zn.localQueryable := by
    rw [h.localQueryable]
    exact mem_filterMap.mpr ⟨_, he, rfl⟩
  have hsent : ∃ interestId, .declare interestId (.queryable id key complete) ∈
      w.zn.replay intersects :=
    ⟨some 0, mem_replay_declare.mpr ⟨rfl, .inr (.inr (.inr (.inl ⟨_, hqle, rfl⟩)))⟩⟩
  refine h.not_exact_of_hidden he (by simp [Entity.declaration, hlocal]) hsent (by simp)
    (by simp) fun other hdecl ↦ ?_
  rcases other with ⟨_, _, kind⟩
  cases kind <;> simp_all [Entity.declaration]

/-- A client that is reached by a run without overlapping ids, and without a publisher or querier
whose end could not be sent, tells a new router exactly what is alive if and only if no liveliness
subscriber and no session-local entity is. -/
theorem Reached.replayExact_iff (hclient : mode.isClient = true) (h : Reached mode intersects w) :
    w.ReplayExact mode intersects ↔ ∀ e ∈ w.alive, replayed e.kind = true := by
  have hinv := h.inv hclient
  refine ⟨fun hexact e he ↦ ?_, hinv.replayExact⟩
  rcases e with ⟨id, key, kind⟩
  cases kind with
  | subscriber allowedOrigin =>
    by_contra hlocal
    exact hinv.not_exact_of_local_subscriber he (Bool.eq_false_iff.mpr hlocal) hexact
  | queryable complete allowedOrigin =>
    by_contra hlocal
    exact hinv.not_exact_of_local_queryable he (Bool.eq_false_iff.mpr hlocal) hexact
  | livelinessSubscriber history => exact absurd hexact (hinv.not_exact_of_liveliness he)
  | token => rfl
  | publisher => rfl
  | querier => rfl

/-- A client, and a subscriber to everything and a publisher on it -/
def clientMode : SessionMode := ⟨true, false, false⟩

def publishing : ClientWorld :=
  (init.step clientMode (fun _ _ ↦ true) (.declare [0x61] (.subscriber .any) false true)).step
    clientMode (fun _ _ ↦ true) (.declare [0x62] .publisher false true)

theorem reached_publishing : Reached clientMode (fun _ _ ↦ true) publishing :=
  .step (.step .init nofun) fun e he ↦ by
    obtain rfl := mem_singleton.mp he
    decide

theorem publishing_replayExact : publishing.ReplayExact clientMode fun _ _ ↦ true := by
  refine (Reached.replayExact_iff rfl reached_publishing).mpr fun e he ↦ ?_
  rcases mem_cons.mp he with rfl | he
  · rfl
  · obtain rfl := mem_singleton.mp he
    rfl

/-- A liveliness subscriber is not known to a router that is reached again. -/
theorem liveliness_not_replayed :
    ¬ ∀ (mode : SessionMode) (intersects : List UInt8 → List UInt8 → Bool)
      (events : List LocalEvent), mode.isClient = true →
        (events.foldl (ClientWorld.step mode intersects) init).ReplayExact mode intersects := by
  intro h
  have hexact := h clientMode (fun _ _ ↦ true)
    [.declare [0x61] (.livelinessSubscriber false) false true] rfl
  have hmem := (hexact.interests ⟨1, [0x61], LocalSession.livelinessFlags false⟩).mpr
    ⟨_, mem_cons_self, rfl⟩
  exact absurd hmem (by decide)

end ClientWorld

end ZenohPico.Session
