import ZenohPico.Session.KeyexprOps
import ZenohPico.Session.RemoteDeclares

/-!
The liveliness tokens of the peers (`src/session/liveliness.c`, and the token cases of
`_z_handle_declare_inner` in `src/session/rx.c`).

The tokens of all peers are in one map, in which a token is found by its id alone, although each
peer numbers its own. A token under an id that is taken replaces the token of the other peer, for
which the subscribers are sent a DELETE, or is taken for it where the keys are equal. A declaration
that carries the id of a pending liveliness query is taken for an answer to it, and a peer that
leaves keeps its tokens in the map. Where a peer meets only its own tokens in the map, the
subscribers learn what happens (`Reached.stepCorrect`).
-/

open List Option

namespace ZenohPico.Session

/-! ### The session -/

/-- `z_sample_kind_t` -/
inductive SampleKind
  | put
  | delete
deriving DecidableEq, Repr

/-- A call of the callback of a liveliness subscriber -/
structure LivelinessSample (Key : Type) where
  subscriber : UInt32
  kind : SampleKind
  key : Key
deriving DecidableEq, Repr

/-- `_z_keyexpr_intmap_t`: no two of its entries have the same id. -/
abbrev KeyexprIntmap (Key : Type) := List (UInt32 × Key)

/-- The liveliness part of `_z_session_t` -/
structure LivelinessSession (Peer Key : Type) where
  remoteTokens : KeyexprIntmap Key
  remoteDeclares : List (DeclareData Peer Key)
  livelinessSubscriptions : List (UInt32 × Key)
  livelinessPendingQueries : KeyexprIntmap Key
  livelinessQueryId : UInt32

/-- The results of the token cases of `_z_handle_declare_inner` -/
inductive TokenResult
  | ok
  | entityUnknown
  | declarationUnknown
deriving DecidableEq, Repr

section Code

variable {Peer Key : Type}

namespace KeyexprIntmap

/-- `_z_keyexpr_intmap_get` -/
def get (map : KeyexprIntmap Key) (id : UInt32) : Option Key :=
  (map.find? (·.1 = id)).map Prod.snd

/-- `_z_keyexpr_intmap_remove` -/
def remove (map : KeyexprIntmap Key) (id : UInt32) : KeyexprIntmap Key := map.filter (·.1 ≠ id)

/-- `_z_keyexpr_intmap_insert`, which replaces an entry of the same id -/
def insert (map : KeyexprIntmap Key) (id : UInt32) (key : Key) : KeyexprIntmap Key :=
  (id, key) :: map.remove id

theorem get_remove_of_ne (map : KeyexprIntmap Key) {id other : UInt32} (h : other ≠ id) :
    (map.remove id).get other = map.get other := by
  induction map with
  | nil => rfl
  | cons entry map ih =>
    rw [get, get, remove] at ih ⊢
    by_cases hid : entry.1 = id
    · have hother : entry.1 ≠ other := fun heq ↦ h (heq.symm.trans hid)
      rw [filter_cons_of_neg (by simpa using hid), List.find?_cons_of_neg (by simpa using hother)]
      exact ih
    · rw [filter_cons_of_pos (by simpa using hid), List.find?_cons, List.find?_cons]
      split
      · rfl
      · exact ih

@[simp] theorem get_insert_self (map : KeyexprIntmap Key) (id : UInt32) (key : Key) :
    (map.insert id key).get id = some key := by
  simp [get, insert]

theorem get_insert_of_ne (map : KeyexprIntmap Key) {id other : UInt32} (key : Key)
    (h : other ≠ id) : (map.insert id key).get other = map.get other := by
  rw [insert, get, List.find?_cons_of_neg (by simpa using Ne.symm h)]
  exact map.get_remove_of_ne h

end KeyexprIntmap

variable (ops : KeyexprOps Key)

/-- `_z_trigger_liveliness_subscriptions_declare` and `_z_trigger_liveliness_subscriptions_undeclare` -/
def triggerLivelinessSubscriptions (subscriptions : List (UInt32 × Key)) (kind : SampleKind)
    (key : Key) : List (LivelinessSample Key) :=
  (subscriptions.filter fun sub ↦ ops.intersects sub.2 key).map fun sub ↦ ⟨sub.1, kind, key⟩

/-- `_z_liveliness_subscription_trigger_history`, for a subscriber -/
def subscriptionTriggerHistory (remoteTokens : KeyexprIntmap Key) (id : UInt32) (key : Key) :
    List (LivelinessSample Key) :=
  (remoteTokens.filter fun token ↦ ops.intersects key token.2).map fun token ↦ ⟨id, .put, token.2⟩

variable (zn : LivelinessSession Peer Key)

/-- `_z_liveliness_process_remote_token_declare` -/
def processRemoteTokenDeclare (id : UInt32) (key : Key) :
    LivelinessSession Peer Key × List (LivelinessSample Key) :=
  let put := triggerLivelinessSubscriptions ops zn.livelinessSubscriptions .put key
  let inserted := { zn with remoteTokens := zn.remoteTokens.insert id key }
  match zn.remoteTokens.get id with
  | none => (inserted, put)
  | some replacedKey =>
    if ops.equals replacedKey key then (zn, [])
    else
      (inserted, triggerLivelinessSubscriptions ops zn.livelinessSubscriptions .delete
        replacedKey ++ put)

/-- `_z_liveliness_process_token_declare`. What is sent for the id of a pending query is an answer
to it, whether its key matches the query or not. -/
def processTokenDeclare (interestId : Option UInt32) (id : UInt32) (key : Key) :
    LivelinessSession Peer Key × List (LivelinessSample Key) :=
  match interestId.bind zn.livelinessPendingQueries.get with
  | some _ => (zn, [])
  | none => processRemoteTokenDeclare ops zn id key

/-- The case `_Z_DECL_TOKEN` of `_z_handle_declare_inner` -/
def handleDeclToken (peer : Peer) (interestId : Option UInt32) (id : UInt32)
    (key : Key) : LivelinessSession Peer Key × List (LivelinessSample Key) :=
  let processed := processTokenDeclare ops zn interestId id key
  ({ processed.1 with
      remoteDeclares := processDeclares processed.1.remoteDeclares peer .token id key false },
    processed.2)

/-- `_z_liveliness_process_remote_token_undeclare` -/
def processRemoteTokenUndeclare (id : UInt32) :
    LivelinessSession Peer Key × List (LivelinessSample Key) × TokenResult :=
  match zn.remoteTokens.get id with
  | none => (zn, [], .entityUnknown)
  | some key =>
    ({ zn with remoteTokens := zn.remoteTokens.remove id },
      triggerLivelinessSubscriptions ops zn.livelinessSubscriptions .delete key, .ok)

/-- The case `_Z_UNDECL_TOKEN` of `_z_handle_declare_inner` -/
def handleUndeclToken (id : UInt32) :
    LivelinessSession Peer Key × List (LivelinessSample Key) × TokenResult :=
  match processRemoteTokenUndeclare ops zn id with
  | (zn', samples, .ok) =>
    match processUndeclares zn'.remoteDeclares .token id with
    | some remoteDeclares => ({ zn' with remoteDeclares }, samples, .ok)
    | none => (zn', samples, .declarationUnknown)
  | failed => failed

/-- `_z_liveliness_subscription_undeclare_all` -/
def subscriptionUndeclareAll : LivelinessSession Peer Key × List (LivelinessSample Key) :=
  ({ zn with remoteTokens := [] }, zn.remoteTokens.flatMap fun token ↦
    triggerLivelinessSubscriptions ops zn.livelinessSubscriptions .delete token.2)

/-- `_z_unsafe_liveliness_register_pending_query` -/
def registerPendingQuery (key : Key) : LivelinessSession Peer Key :=
  { zn with
    livelinessQueryId := zn.livelinessQueryId + 1
    livelinessPendingQueries := zn.livelinessPendingQueries.insert zn.livelinessQueryId key }

/-- A declaration is found afterwards, and so is what was there. -/
theorem processDeclares_known (declares : List (DeclareData Peer Key)) (peer : Peer)
    (type : DeclareType) (id : UInt32) (key : Key) (complete : Bool) (tag : UInt32 × DeclareType)
    (h : tag = (id, type) ∨ (declares.find? (·.tag = tag)).isSome = true) :
    ((processDeclares declares peer type id key complete).find? (·.tag = tag)).isSome = true := by
  rw [processDeclares]
  cases hfound : declares.find? (·.tag = (id, type)) with
  | none =>
    rw [List.find?_cons]
    split
    · rfl
    · next htag =>
      refine h.resolve_left fun heq ↦ ?_
      simp [DeclareData.tag, heq] at htag
  | some found =>
    have hsame := Foundations.map_find?_updateFirst (p := (·.tag = (id, type)))
      (f := fun decl : DeclareData Peer Key ↦
        { decl with complete := messageComplete type complete })
      (g := DeclareData.tag) (k := fun _ ↦ ()) (fun _ ↦ rfl) (fun _ ↦ rfl) tag declares
    have hbefore : (declares.find? (·.tag = tag)).isSome = true := by
      rcases h with rfl | h
      · rw [hfound]
        rfl
      · exact h
    rw [← isSome_map (f := fun _ ↦ ())] at hbefore ⊢
    rw [hsame]
    exact hbefore

end Code

/-! ### The peers -/

/-- A session, what its peers have declared and not undeclared, and which peers are there. A peer
that comes back is another one. -/
structure TokenWorld (Peer Key : Type) where
  zn : LivelinessSession Peer Key
  tokens : Peer → UInt32 → Option Key
  connected : List Peer
  gone : List Peer

/-- What happens to a session. A declaration carries the id of an interest where it answers one. -/
inductive TokenEvent (Peer Key : Type)
  | connect (peer : Peer)
  | declare (peer : Peer) (interestId : Option UInt32) (id : UInt32) (key : Key)
  | undeclare (peer : Peer) (id : UInt32)
  | leave (peer : Peer)
  | transportFailed
  | subscribe (id : UInt32) (key : Key) (history : Bool)
  | unsubscribe (id : UInt32)
  | query (key : Key)
  | queryDone (id : UInt32)
deriving DecidableEq, Repr

namespace TokenWorld

variable {Peer Key : Type}

/-- Nothing has been declared. -/
def init : TokenWorld Peer Key := ⟨⟨[], [], [], [], 1⟩, fun _ _ ↦ none, [], []⟩

/-- A token of a peer changed -/
def setToken [DecidableEq Peer] (tokens : Peer → UInt32 → Option Key) (peer : Peer) (id : UInt32)
    (token : Option Key) : Peer → UInt32 → Option Key :=
  fun p i ↦ if p = peer ∧ i = id then token else tokens p i

variable [DecidableEq Peer] (ops : KeyexprOps Key)

/-- One event: the world after it, what the subscribers receive, and the result -/
def step (w : TokenWorld Peer Key) :
    TokenEvent Peer Key → TokenWorld Peer Key × List (LivelinessSample Key) × TokenResult
  | .connect peer => ({ w with connected := peer :: w.connected }, [], .ok)
  | .declare peer interestId id key =>
    let handled := handleDeclToken ops w.zn peer interestId id key
    ({ w with zn := handled.1, tokens := setToken w.tokens peer id (some key) }, handled.2, .ok)
  | .undeclare peer id =>
    let handled := handleUndeclToken ops w.zn id
    ({ w with zn := handled.1, tokens := setToken w.tokens peer id none }, handled.2)
  | .leave peer =>
    -- `_z_interest_peer_disconnected` tells the interests, and no token is looked at
    ({ w with connected := w.connected.erase peer, gone := peer :: w.gone }, [], .ok)
  | .transportFailed =>
    let undeclared := subscriptionUndeclareAll ops w.zn
    (⟨undeclared.1, fun _ _ ↦ none, [], w.connected ++ w.gone⟩, undeclared.2, .ok)
  | .subscribe id key history =>
    ({ w with
        zn := { w.zn with
          livelinessSubscriptions := (id, key) :: w.zn.livelinessSubscriptions } },
      if history then subscriptionTriggerHistory ops w.zn.remoteTokens id key else [], .ok)
  | .unsubscribe id =>
    ({ w with
        zn := { w.zn with
          livelinessSubscriptions := w.zn.livelinessSubscriptions.eraseP (·.1 = id) } }, [], .ok)
  | .query key => ({ w with zn := registerPendingQuery w.zn key }, [], .ok)
  | .queryDone id =>
    ({ w with
        zn := { w.zn with
          livelinessPendingQueries := w.zn.livelinessPendingQueries.remove id } }, [], .ok)

/-- A peer that is there is the one that does something. -/
def WellFormed (w : TokenWorld Peer Key) : TokenEvent Peer Key → Prop
  | .connect peer => peer ∉ w.connected ∧ peer ∉ w.gone
  | .declare peer .. | .undeclare peer _ | .leave peer => peer ∈ w.connected
  | _ => True

/-- What the map has under an id is a token of a peer. -/
def Own (w : TokenWorld Peer Key) (peer : Peer) (id : UInt32) : Prop :=
  ∀ key, w.zn.remoteTokens.get id = some key → w.tokens peer id = some key

/-- The condition on an event: a peer declares and undeclares under ids under which the map has
nothing or a token of that peer, a token that is there is declared again under its own key or one
that does not compare equal to it, and no declaration carries the id of a pending query. -/
def Allowed (w : TokenWorld Peer Key) : TokenEvent Peer Key → Prop
  | .declare peer interestId id key =>
    interestId.bind w.zn.livelinessPendingQueries.get = none ∧ w.Own peer id ∧
      ∀ k, w.zn.remoteTokens.get id = some k → ops.equals k key = true → k = key
  | .undeclare peer id => w.Own peer id
  | _ => True

/-- The worlds of the runs whose events meet a condition -/
inductive Reached (P : TokenWorld Peer Key → TokenEvent Peer Key → Prop) :
    TokenWorld Peer Key → Prop
  | init : Reached P init
  | step {w : TokenWorld Peer Key} {e : TokenEvent Peer Key} (h : Reached P w)
      (he : w.WellFormed e) (hP : P w e) : Reached P (w.step ops e).1

omit [DecidableEq Peer] in
/-- A peer undeclares a token, or declares another key under its id. -/
def GivesUp (peer : Peer) (id : UInt32) (key : Key) : TokenEvent Peer Key → Prop
  | .undeclare p i => p = peer ∧ i = id
  | .declare p _ i k => p = peer ∧ i = id ∧ k ≠ key
  | _ => False

/-- A subscriber receives a DELETE for a token that its peer gives up, or whose peer is gone, and a
PUT for a token that is new; what a peer has declared it can undeclare. -/
structure StepCorrect (w : TokenWorld Peer Key) (e : TokenEvent Peer Key) : Prop where
  deletes : ∀ sample ∈ (w.step ops e).2.1, sample.kind = .delete →
    ∃ peer id, w.tokens peer id = some sample.key ∧
      (GivesUp peer id sample.key e ∨ peer ∈ (w.step ops e).1.gone)
  puts : ∀ peer interestId id key, e = .declare peer interestId id key →
    w.tokens peer id ≠ some key → ∀ sub ∈ w.zn.livelinessSubscriptions,
      ops.intersects sub.2 key = true → ⟨sub.1, .put, key⟩ ∈ (w.step ops e).2.1
  undeclares : ∀ peer id, e = .undeclare peer id → (w.tokens peer id).isSome = true →
    (w.step ops e).2.2 = .ok

/-! ### What holds in every state -/

/-- The map has the tokens of the peers, each under the id of one peer, and what is in the map has
been declared. -/
structure Inv (w : TokenWorld Peer Key) : Prop where
  declared : ∀ peer id key, w.tokens peer id = some key → w.zn.remoteTokens.get id = some key
  owner : ∀ peer other id, (w.tokens peer id).isSome = true → (w.tokens other id).isSome = true →
    peer = other
  owned : ∀ id key, (id, key) ∈ w.zn.remoteTokens → ∃ peer, w.tokens peer id = some key
  present : ∀ peer id, (w.tokens peer id).isSome = true → peer ∈ w.connected ∨ peer ∈ w.gone
  known : ∀ peer id, (w.tokens peer id).isSome = true →
    (w.zn.remoteDeclares.find? (·.tag = (id, .token))).isSome = true

omit [DecidableEq Peer] in
theorem init_inv : (init : TokenWorld Peer Key).Inv where
  declared := nofun
  owner := nofun
  owned := nofun
  present := nofun
  known := nofun

variable {ops} {w : TokenWorld Peer Key} {peer : Peer} {id : UInt32} {key : Key}

theorem setToken_self (tokens : Peer → UInt32 → Option Key) (token : Option Key) :
    setToken tokens peer id token peer id = token := if_pos ⟨rfl, rfl⟩

/-- A token that is there after another one changed is that one, or was there before. -/
theorem setToken_some {tokens : Peer → UInt32 → Option Key} {token : Option Key} {p : Peer}
    {i : UInt32} {k : Key} (h : setToken tokens peer id token p i = some k) :
    (p = peer ∧ i = id ∧ token = some k) ∨ (¬(p = peer ∧ i = id) ∧ tokens p i = some k) := by
  by_cases hsame : p = peer ∧ i = id
  · rw [setToken, if_pos hsame] at h
    exact .inl ⟨hsame.1, hsame.2, h⟩
  · rw [setToken, if_neg hsame] at h
    exact .inr ⟨hsame, h⟩

/-- What a declaration does to the map where it meets no token of another peer -/
structure Declares (before after : KeyexprIntmap Key) (id : UInt32) (key : Key) : Prop where
  self : after.get id = some key
  others : ∀ i, i ≠ id → after.get i = before.get i
  mem : ∀ i k, (i, k) ∈ after → (i = id ∧ k = key) ∨ (i ≠ id ∧ (i, k) ∈ before)

theorem declares_insert (map : KeyexprIntmap Key) (id : UInt32) (key : Key) :
    Declares map (map.insert id key) id key where
  self := map.get_insert_self id key
  others i hi := map.get_insert_of_ne key hi
  mem i k hmem := by
    rcases mem_cons.mp hmem with heq | hmem
    · exact .inl (Prod.mk.inj heq)
    · obtain ⟨hmem, hne⟩ := mem_filter.mp hmem
      exact .inr ⟨of_decide_eq_true hne, hmem⟩

variable (ops) in
omit [DecidableEq Peer] in
/-- A token that is declared is in the map afterwards, the one it replaces is undeclared, and it is
announced if it was not there. -/
theorem processRemoteTokenDeclare_cases (zn : LivelinessSession Peer Key) (id : UInt32) (key : Key)
    (hkeys : ∀ k, zn.remoteTokens.get id = some k → ops.equals k key = true → k = key) :
    (zn.remoteTokens.get id = some key ∧ processRemoteTokenDeclare ops zn id key = (zn, [])) ∨
    (zn.remoteTokens.get id ≠ some key ∧ ∃ replaced : List (LivelinessSample Key),
      processRemoteTokenDeclare ops zn id key =
        ({ zn with remoteTokens := zn.remoteTokens.insert id key }, replaced ++
          triggerLivelinessSubscriptions ops zn.livelinessSubscriptions .put key) ∧
      ∀ sample ∈ replaced, zn.remoteTokens.get id = some sample.key) := by
  rw [processRemoteTokenDeclare]
  cases hget : zn.remoteTokens.get id with
  | none => exact .inr ⟨nofun, [], rfl, fun _ hmem ↦ by cases hmem⟩
  | some replacedKey =>
    dsimp only
    by_cases hkey : ops.equals replacedKey key = true
    · rw [if_pos hkey, hkeys replacedKey hget hkey]
      exact .inl ⟨rfl, rfl⟩
    · rw [if_neg hkey]
      refine .inr ⟨fun heq ↦ hkey ?_, _, rfl, fun sample hmem ↦ ?_⟩
      · rw [some.inj heq]
        exact ops.equals_refl key
      obtain ⟨sub, -, rfl⟩ := List.mem_map.mp hmem
      rfl

variable (ops) in
theorem Inv.declares (h : w.Inv) {interestId : Option UInt32}
    (hallowed : w.Allowed ops (.declare peer interestId id key)) : Declares w.zn.remoteTokens
      (w.step ops (.declare peer interestId id key)).1.zn.remoteTokens id key := by
  obtain ⟨hquery, -, hkeys⟩ := hallowed
  rw [step, handleDeclToken, processTokenDeclare, hquery]
  obtain ⟨hget, heq⟩ | ⟨-, replaced, heq, -⟩ :=
    processRemoteTokenDeclare_cases ops w.zn id key hkeys
  · dsimp only
    rw [heq]
    refine ⟨hget, fun _ _ ↦ rfl, fun i k hmem ↦ ?_⟩
    by_cases hi : i = id
    · subst hi
      obtain ⟨owner, howner⟩ := h.owned i k hmem
      exact .inl ⟨rfl, some.inj ((h.declared owner i k howner).symm.trans hget)⟩
    · exact .inr ⟨hi, hmem⟩
  · dsimp only
    rw [heq]
    exact declares_insert ..

/-! ### One event -/

theorem Inv.declare (h : w.Inv) {interestId : Option UInt32} (hpeer : peer ∈ w.connected)
    (hallowed : w.Allowed ops (.declare peer interestId id key)) :
    (w.step ops (.declare peer interestId id key)).1.Inv := by
  have hmap := h.declares ops hallowed
  have hdeclares : (w.step ops (.declare peer interestId id key)).1.zn.remoteDeclares =
      processDeclares w.zn.remoteDeclares peer .token id key false := by
    rw [step, handleDeclToken, processTokenDeclare, hallowed.1]
    obtain ⟨-, heq⟩ | ⟨-, replaced, heq, -⟩ :=
      processRemoteTokenDeclare_cases ops w.zn id key hallowed.2.2
    · dsimp only
      rw [heq]
    · dsimp only
      rw [heq]
  -- another peer with a token under the id would have it in the map
  have hother : ∀ p k, w.tokens p id = some k → p = peer := fun p k hp ↦
    h.owner p peer id (by rw [hp]; rfl) (by rw [hallowed.2.1 k (h.declared p id k hp)]; rfl)
  refine ⟨fun p i k hp ↦ ?_, fun p q i hp hq ↦ ?_, fun i k hmem ↦ ?_, fun p i hp ↦ ?_,
    fun p i hp ↦ ?_⟩
  · obtain ⟨rfl, rfl, hk⟩ | ⟨hne, hp⟩ := setToken_some hp
    · rw [← hk]
      exact hmap.self
    · have hi : i ≠ id := fun hi ↦ hne ⟨hother p k (hi ▸ hp), hi⟩
      rw [hmap.others i hi]
      exact h.declared p i k hp
  · obtain ⟨k, hp⟩ := isSome_iff_exists.mp hp
    obtain ⟨l, hq⟩ := isSome_iff_exists.mp hq
    obtain ⟨hpp, hpi, -⟩ | ⟨-, hp'⟩ := setToken_some hp <;>
      obtain ⟨hqp, hqi, -⟩ | ⟨-, hq'⟩ := setToken_some hq
    · exact hpp.trans hqp.symm
    · exact hpp.trans (hother q l (hpi ▸ hq')).symm
    · exact (hother p k (hqi ▸ hp')).trans hqp.symm
    · exact h.owner p q i (by rw [hp']; rfl) (by rw [hq']; rfl)
  · obtain ⟨rfl, rfl⟩ | ⟨hi, hmem⟩ := hmap.mem i k hmem
    · exact ⟨peer, setToken_self ..⟩
    · obtain ⟨p, hp⟩ := h.owned i k hmem
      exact ⟨p, (if_neg fun hsame ↦ hi hsame.2).trans hp⟩
  · obtain ⟨k, hp⟩ := isSome_iff_exists.mp hp
    obtain ⟨rfl, -, -⟩ | ⟨-, hp⟩ := setToken_some hp
    · exact .inl hpeer
    · exact h.present p i (by rw [hp]; rfl)
  · obtain ⟨k, hp⟩ := isSome_iff_exists.mp hp
    rw [hdeclares]
    obtain ⟨-, rfl, -⟩ | ⟨-, hp⟩ := setToken_some hp
    · exact processDeclares_known _ _ _ _ _ _ _ (.inl rfl)
    · exact processDeclares_known _ _ _ _ _ _ _ (.inr (h.known p i (by rw [hp]; rfl)))

variable (ops) in
omit [DecidableEq Peer] in
/-- What a peer undeclares leaves the map and the list, and the subscribers are told. -/
theorem Inv.handleUndeclToken (h : w.Inv) (htoken : w.tokens peer id = some key) :
    Session.handleUndeclToken ops w.zn id = ({ w.zn with
          remoteTokens := w.zn.remoteTokens.remove id
          remoteDeclares := w.zn.remoteDeclares.eraseP (·.tag = (id, .token)) },
        triggerLivelinessSubscriptions ops w.zn.livelinessSubscriptions .delete key, .ok) := by
  have hget := h.declared peer id key htoken
  have hknown := h.known peer id (by rw [htoken]; rfl)
  obtain ⟨decl, hdecl⟩ := isSome_iff_exists.mp hknown
  rw [Session.handleUndeclToken, processRemoteTokenUndeclare, hget]
  dsimp only
  rw [processUndeclares, hdecl]

omit [DecidableEq Peer] in
/-- What no peer has declared under an id is not undeclared. -/
theorem handleUndeclToken_none (hget : w.zn.remoteTokens.get id = none) :
    Session.handleUndeclToken ops w.zn id = (w.zn, [], .entityUnknown) := by
  rw [Session.handleUndeclToken, processRemoteTokenUndeclare, hget]

omit [DecidableEq Peer] in
/-- What a peer that is allowed to undeclare it has not declared is not known. -/
theorem get_of_not_declared (hallowed : w.Allowed ops (.undeclare peer id))
    (htoken : w.tokens peer id = none) : w.zn.remoteTokens.get id = none := by
  cases hget : w.zn.remoteTokens.get id with
  | none => rfl
  | some k => exact absurd (hallowed k hget) (by rw [htoken]; nofun)

theorem Inv.undeclare (h : w.Inv) (hallowed : w.Allowed ops (.undeclare peer id)) :
    (w.step ops (.undeclare peer id)).1.Inv := by
  have hother : ∀ p k, w.tokens p id = some k → p = peer := fun p k hp ↦
    h.owner p peer id (by rw [hp]; rfl) (by rw [hallowed k (h.declared p id k hp)]; rfl)
  have hleft : ∀ p i k, setToken w.tokens peer id none p i = some k →
      i ≠ id ∧ w.tokens p i = some k := by
    intro p i k hp
    obtain ⟨-, -, hk⟩ | ⟨hne, hp⟩ := setToken_some hp
    · cases hk
    · exact ⟨fun hi ↦ hne ⟨hother p k (hi ▸ hp), hi⟩, hp⟩
  cases htoken : w.tokens peer id with
  | none =>
    have hget := get_of_not_declared hallowed htoken
    rw [step, handleUndeclToken_none hget]
    refine ⟨fun p i k hp ↦ h.declared p i k (hleft p i k hp).2, fun p q i hp hq ↦ ?_,
      fun i k hmem ↦ ?_, fun p i hp ↦ ?_, fun p i hp ↦ ?_⟩
    · obtain ⟨k, hp⟩ := isSome_iff_exists.mp hp
      obtain ⟨l, hq⟩ := isSome_iff_exists.mp hq
      exact h.owner p q i (by rw [(hleft p i k hp).2]; rfl) (by rw [(hleft q i l hq).2]; rfl)
    · obtain ⟨p, hp⟩ := h.owned i k hmem
      refine ⟨p, (if_neg fun hsame ↦ ?_).trans hp⟩
      rw [hsame.1, hsame.2, htoken] at hp
      cases hp
    · obtain ⟨k, hp⟩ := isSome_iff_exists.mp hp
      exact h.present p i (by rw [(hleft p i k hp).2]; rfl)
    · obtain ⟨k, hp⟩ := isSome_iff_exists.mp hp
      exact h.known p i (by rw [(hleft p i k hp).2]; rfl)
  | some key =>
    rw [step, h.handleUndeclToken ops htoken]
    refine ⟨fun p i k hp ↦ ?_, fun p q i hp hq ↦ ?_, fun i k hmem ↦ ?_, fun p i hp ↦ ?_,
      fun p i hp ↦ ?_⟩
    · obtain ⟨hi, hp⟩ := hleft p i k hp
      exact (w.zn.remoteTokens.get_remove_of_ne hi).trans (h.declared p i k hp)
    · obtain ⟨k, hp⟩ := isSome_iff_exists.mp hp
      obtain ⟨l, hq⟩ := isSome_iff_exists.mp hq
      exact h.owner p q i (by rw [(hleft p i k hp).2]; rfl) (by rw [(hleft q i l hq).2]; rfl)
    · obtain ⟨hmem, hne⟩ := mem_filter.mp hmem
      obtain ⟨p, hp⟩ := h.owned i k hmem
      exact ⟨p, (if_neg fun hsame ↦ of_decide_eq_true hne hsame.2).trans hp⟩
    · obtain ⟨k, hp⟩ := isSome_iff_exists.mp hp
      exact h.present p i (by rw [(hleft p i k hp).2]; rfl)
    · obtain ⟨k, hp⟩ := isSome_iff_exists.mp hp
      obtain ⟨hi, hp⟩ := hleft p i k hp
      have hknown := h.known p i (by rw [hp]; rfl)
      rwa [← Foundations.find?_eraseP_of_ne (a := (id, DeclareType.token))
        (fun heq ↦ hi (Prod.mk.inj heq).1)] at hknown

theorem Inv.step (h : w.Inv) {e : TokenEvent Peer Key} (he : w.WellFormed e)
    (hallowed : w.Allowed ops e) : (w.step ops e).1.Inv := by
  cases e with
  | connect peer =>
    exact ⟨h.declared, h.owner, h.owned, fun p i hp ↦
      (h.present p i hp).imp_left (mem_cons_of_mem peer), h.known⟩
  | declare peer interestId id key => exact h.declare he hallowed
  | undeclare peer id => exact h.undeclare hallowed
  | leave peer =>
    refine ⟨h.declared, h.owner, h.owned, fun p i hp ↦ ?_, h.known⟩
    by_cases hsame : p = peer
    · exact .inr (hsame ▸ mem_cons_self)
    · exact (h.present p i hp).imp (mem_erase_of_ne hsame).mpr (mem_cons_of_mem peer)
  | transportFailed =>
    exact ⟨nofun, nofun, nofun, nofun, nofun⟩
  | subscribe id key history => exact ⟨h.declared, h.owner, h.owned, h.present, h.known⟩
  | unsubscribe id => exact ⟨h.declared, h.owner, h.owned, h.present, h.known⟩
  | query key => exact ⟨h.declared, h.owner, h.owned, h.present, h.known⟩
  | queryDone id => exact ⟨h.declared, h.owner, h.owned, h.present, h.known⟩

theorem Reached.inv (h : Reached ops (Allowed ops) w) : w.Inv := by
  induction h with
  | init => exact init_inv
  | step _ he hallowed ih => exact ih.step he hallowed

/-! ### What the subscribers receive -/

variable {subscriptions : List (UInt32 × Key)}

omit [DecidableEq Peer] in
theorem mem_trigger {kind : SampleKind} {sample : LivelinessSample Key}
    (h : sample ∈ triggerLivelinessSubscriptions ops subscriptions kind key) :
    sample.kind = kind ∧ sample.key = key := by
  obtain ⟨sub, -, rfl⟩ := List.mem_map.mp h
  exact ⟨rfl, rfl⟩

omit [DecidableEq Peer] in
theorem trigger_mem {sub : UInt32 × Key} (hsub : sub ∈ subscriptions)
    (hkey : ops.intersects sub.2 key = true) (kind : SampleKind) :
    ⟨sub.1, kind, key⟩ ∈ triggerLivelinessSubscriptions ops subscriptions kind key :=
  List.mem_map.mpr ⟨sub, mem_filter.mpr ⟨hsub, hkey⟩, rfl⟩

theorem stepCorrect_declare {interestId : Option UInt32}
    (hallowed : w.Allowed ops (.declare peer interestId id key)) :
    w.StepCorrect ops (.declare peer interestId id key) := by
  have hstep : (w.step ops (.declare peer interestId id key)).2.1 =
      (processRemoteTokenDeclare ops w.zn id key).2 := by
    rw [TokenWorld.step, handleDeclToken, processTokenDeclare, hallowed.1]
  refine ⟨fun sample hmem hkind ↦ ?_, fun p q i k heq hnew sub hsub hkey ↦ ?_, nofun⟩
  · rw [hstep] at hmem
    obtain ⟨-, heq⟩ | ⟨hne, replaced, heq, hreplaced⟩ :=
      processRemoteTokenDeclare_cases ops w.zn id key hallowed.2.2
    · rw [heq] at hmem
      cases hmem
    · rw [heq] at hmem
      rcases mem_append.mp hmem with hmem | hmem
      · -- the peer gives up the token it had under the id
        have hget := hreplaced sample hmem
        exact ⟨peer, id, hallowed.2.1 _ hget, .inl ⟨rfl, rfl, fun hkey ↦ hne (hkey ▸ hget)⟩⟩
      · exact absurd ((mem_trigger hmem).1.symm.trans hkind) (by decide)
  · obtain ⟨rfl, -, rfl, rfl⟩ : peer = p ∧ interestId = q ∧ id = i ∧ key = k := by
      simpa using heq
    rw [hstep]
    obtain ⟨hget, -⟩ | ⟨-, replaced, heq, -⟩ :=
      processRemoteTokenDeclare_cases ops w.zn id key hallowed.2.2
    · exact absurd (hallowed.2.1 key hget) hnew
    · rw [heq]
      exact mem_append_right _ (trigger_mem hsub hkey .put)

theorem Inv.stepCorrect_undeclare (h : w.Inv) (hallowed : w.Allowed ops (.undeclare peer id)) :
    w.StepCorrect ops (.undeclare peer id) := by
  cases htoken : w.tokens peer id with
  | none =>
    have hget := get_of_not_declared hallowed htoken
    refine ⟨fun sample hmem ↦ ?_, nofun, fun p i heq hhonest ↦ ?_⟩
    · rw [TokenWorld.step, handleUndeclToken_none hget] at hmem
      cases hmem
    · obtain ⟨rfl, rfl⟩ : peer = p ∧ id = i := by simpa using heq
      rw [htoken] at hhonest
      cases hhonest
  | some key =>
    have hundecl := h.handleUndeclToken ops htoken
    refine ⟨fun sample hmem hkind ↦ ?_, nofun, fun p i heq _ ↦ ?_⟩
    · rw [TokenWorld.step, hundecl] at hmem
      obtain rfl := (mem_trigger hmem).2
      exact ⟨peer, id, htoken, .inl ⟨rfl, rfl⟩⟩
    · obtain ⟨rfl, rfl⟩ : peer = p ∧ id = i := by simpa using heq
      rw [TokenWorld.step, hundecl]

theorem Inv.correct (h : w.Inv) {e : TokenEvent Peer Key} (hallowed : w.Allowed ops e) :
    w.StepCorrect ops e := by
  cases e with
  | declare peer interestId id key => exact stepCorrect_declare hallowed
  | undeclare peer id => exact h.stepCorrect_undeclare hallowed
  | transportFailed =>
    refine ⟨fun sample hmem hkind ↦ ?_, nofun, nofun⟩
    obtain ⟨token, htoken, hmem⟩ := mem_flatMap.mp hmem
    obtain ⟨peer, hpeer⟩ := h.owned token.1 token.2 htoken
    have hpresent := h.present peer token.1 (by rw [hpeer]; rfl)
    refine ⟨peer, token.1, ?_, .inr (mem_append.mpr hpresent)⟩
    rw [hpeer, (mem_trigger hmem).2]
  | subscribe id key history =>
    refine ⟨fun sample hmem hkind ↦ ?_, nofun, nofun⟩
    rw [TokenWorld.step] at hmem
    split at hmem
    · obtain ⟨token, -, rfl⟩ := List.mem_map.mp hmem
      cases hkind
    · cases hmem
  | connect peer => exact ⟨nofun, nofun, nofun⟩
  | leave peer => exact ⟨nofun, nofun, nofun⟩
  | unsubscribe id => exact ⟨nofun, nofun, nofun⟩
  | query key => exact ⟨nofun, nofun, nofun⟩
  | queryDone id => exact ⟨nofun, nofun, nofun⟩

/-- In a run in which no peer meets a token of another one under its ids, the subscribers receive
what they should at every event, and every honest undeclaration succeeds. -/
theorem Reached.stepCorrect (h : Reached ops (Allowed ops) w) {e : TokenEvent Peer Key}
    (hallowed : w.Allowed ops e) : w.StepCorrect ops e :=
  h.inv.correct hallowed

/-! ### Two peers -/

/-- Every key matches every other. -/
def anyKey : KeyexprOps ℕ := { KeyexprOps.exact with intersects := fun _ _ ↦ true }

/-- Two peers are connected, there is a subscriber, and the first peer has declared a token. -/
def oneToken : TokenWorld ℕ ℕ :=
  ((((init.step anyKey (.connect 1)).1.step anyKey (.connect 2)).1.step anyKey
    (.subscribe 1 0 false)).1.step anyKey (.declare 1 none 7 10)).1

theorem reached_oneToken {P : TokenWorld ℕ ℕ → TokenEvent ℕ ℕ → Prop}
    (hP : ∀ w e, w.zn.remoteTokens = [] → w.zn.livelinessPendingQueries = [] → P w e) :
    Reached anyKey P oneToken := by
  refine .step (.step (.step (.step .init ?_ ?_) ?_ ?_) trivial ?_) ?_ ?_
  · exact ⟨not_mem_nil, not_mem_nil⟩
  · exact hP _ _ rfl rfl
  · exact ⟨by decide, by decide⟩
  · exact hP _ _ rfl rfl
  · exact hP _ _ rfl rfl
  · exact mem_cons_of_mem 2 mem_cons_self
  · exact hP _ _ rfl rfl

theorem stepCorrect_otherId : oneToken.StepCorrect anyKey (.declare 2 none 8 20) := by
  have hreached : Reached anyKey (Allowed anyKey) oneToken := by
    refine reached_oneToken fun w e htokens hqueries ↦ ?_
    have hown : ∀ peer id, w.Own peer id := fun _ _ _ hget ↦ by rw [htokens] at hget; cases hget
    cases e with
    | declare peer interestId id key =>
      refine ⟨?_, hown peer id, fun _ hget ↦ by rw [htokens] at hget; cases hget⟩
      rw [hqueries]
      cases interestId <;> rfl
    | undeclare peer id => exact hown peer id
    | _ => trivial
  exact hreached.stepCorrect ⟨rfl, nofun, nofun⟩

/-- A second peer declares a token under the id of the first one: the subscriber is sent a DELETE
for a token that is still there. -/
theorem sameId_not_stepCorrect :
    ¬ ∀ (ops : KeyexprOps ℕ) (w : TokenWorld ℕ ℕ), Reached ops (fun _ _ ↦ True) w →
      ∀ e, w.WellFormed e → w.StepCorrect ops e := by
  intro h
  have hstep := h anyKey oneToken (reached_oneToken fun _ _ _ _ ↦ trivial) (.declare 2 none 7 20)
    mem_cons_self
  obtain ⟨peer, id, htoken, hgives | hgone⟩ := hstep.deletes ⟨1, .delete, 10⟩ (by decide) rfl
  · obtain ⟨rfl, rfl, -⟩ := hgives
    cases htoken
  · cases hgone

end TokenWorld

end ZenohPico.Session
