import Mathlib.Data.List.Induction
import ZenohPico.Session.RemoteTokens

/-!
What a session keeps of the entities of its peers (`_z_handle_declare_inner` of
`src/session/rx.c`), over whole runs.

The declaration of a token passes through the table of liveliness tokens before it enters the list
of declarations, and so does its undeclaration, which ends there where the table has no such token.
A token that was declared only in answer to a liveliness query is not in the table, and is never
undeclared. With this the list is what the peers have declared exactly in the runs whose steps are
all clean (`remoteDeclares_exact_iff`).
-/

open List Option

namespace ZenohPico.Session

variable {id : UInt32}

section Code

variable {Peer Key : Type} (ops : KeyexprOps Key) (zn : LivelinessSession Peer Key)

/-- The cases `_Z_DECL_SUBSCRIBER`, `_Z_DECL_QUERYABLE` and `_Z_DECL_TOKEN` of
`_z_handle_declare_inner` -/
def handleDeclare (peer : Peer) (type : DeclareType) (interestId : Option UInt32) (id : UInt32)
    (key : Key) (complete : Bool) : LivelinessSession Peer Key :=
  match type with
  | .token => (handleDeclToken ops zn peer interestId id key).1
  | type =>
    { zn with remoteDeclares := processDeclares zn.remoteDeclares peer type id key complete }

/-- The cases `_Z_UNDECL_SUBSCRIBER`, `_Z_UNDECL_QUERYABLE` and `_Z_UNDECL_TOKEN` of
`_z_handle_declare_inner` -/
def handleUndeclare (type : DeclareType) (id : UInt32) : LivelinessSession Peer Key × TokenResult :=
  match type with
  | .token =>
    let handled := handleUndeclToken ops zn id
    (handled.1, handled.2.2)
  | type =>
    match processUndeclares zn.remoteDeclares type id with
    | some remoteDeclares => ({ zn with remoteDeclares }, .ok)
    | none => (zn, .declarationUnknown)

/-- A declaration enters the list, whatever the table of tokens does with it. -/
theorem handleDeclare_remoteDeclares (peer : Peer) (type : DeclareType) (interestId : Option UInt32)
    (id : UInt32) (key : Key) (complete : Bool) :
    (handleDeclare ops zn peer type interestId id key complete).remoteDeclares =
      processDeclares zn.remoteDeclares peer type id key complete := by
  cases type with
  | subscriber => rfl
  | queryable => rfl
  | token =>
    have hlist : (processTokenDeclare ops zn interestId id key).1.remoteDeclares =
        zn.remoteDeclares := by
      rw [processTokenDeclare]
      split
      · rfl
      · rw [processRemoteTokenDeclare]
        split
        · rfl
        · split <;> rfl
    rw [handleDeclare, handleDeclToken]
    dsimp only
    rw [hlist]
    rfl

/-- What is found in the list, and in the table of tokens if it is a token, leaves the list. -/
theorem handleUndeclare_ok {type : DeclareType} {remoteDeclares : List (DeclareData Peer Key)}
    (hfound : processUndeclares zn.remoteDeclares type id = some remoteDeclares)
    (htoken : type = .token → (zn.remoteTokens.get id).isSome = true) :
    (handleUndeclare ops zn type id).1.remoteDeclares = remoteDeclares ∧
      (handleUndeclare ops zn type id).2 = .ok := by
  cases type with
  | subscriber => simp [handleUndeclare, hfound]
  | queryable => simp [handleUndeclare, hfound]
  | token =>
    obtain ⟨key, hkey⟩ := isSome_iff_exists.mp (htoken rfl)
    simp [handleUndeclare, handleUndeclToken, processRemoteTokenUndeclare, hkey, hfound]

/-- A token that is not in the table is not undeclared. -/
theorem handleUndeclare_token_none (hnone : zn.remoteTokens.get id = none) :
    (handleUndeclare ops zn .token id).2 = .entityUnknown := by
  simp [handleUndeclare, handleUndeclToken, processRemoteTokenUndeclare, hnone]

end Code

/-! ### The peers -/

/-- A session, and what its peers have declared -/
structure EntityWorld (Peer Key : Type) where
  zn : LivelinessSession Peer Key
  entities : Entities Peer Key

/-- What the peers do, and the liveliness queries of the session. Keys are those that the wire
expressions stand for, and a declaration carries the id of an interest where it answers one. -/
inductive EntityEvent (Peer Key : Type)
  | declare (peer : Peer) (type : DeclareType) (interestId : Option UInt32) (id : UInt32)
      (key : Key) (complete : Bool)
  | undeclare (peer : Peer) (type : DeclareType) (id : UInt32)
  | disconnect (peer : Peer)
  | transportFailed
  | query (key : Key)
  | queryDone (id : UInt32)
deriving DecidableEq, Repr

namespace EntityWorld

variable {Peer Key : Type}

/-- Nothing has been declared. -/
def init : EntityWorld Peer Key := ⟨⟨[], [], [], [], 1⟩, fun _ _ _ ↦ none⟩

/-- The list, and what the peers have declared -/
def table (w : EntityWorld Peer Key) : RemoteTable Peer Key := ⟨w.zn.remoteDeclares, w.entities⟩

variable [DecidableEq Peer] (ops : KeyexprOps Key)

/-- One event: the world after it, and its result -/
def step (w : EntityWorld Peer Key) : EntityEvent Peer Key → EntityWorld Peer Key × TokenResult
  | .declare peer type interestId id key complete =>
    (⟨handleDeclare ops w.zn peer type interestId id key complete,
      w.entities.set peer type id (some (key, messageComplete type complete))⟩, .ok)
  | .undeclare peer type id =>
    let handled := handleUndeclare ops w.zn type id
    (⟨handled.1, w.entities.set peer type id none⟩, handled.2)
  | .disconnect peer =>
    -- `_z_interest_peer_disconnected` leaves the list and the tokens as they are
    ({ w with entities := fun p t i ↦ if p = peer then none else w.entities p t i }, .ok)
  | .transportFailed =>
    -- the tokens are dropped, the list stays
    (⟨(subscriptionUndeclareAll ops w.zn).1, fun _ _ _ ↦ none⟩, .ok)
  | .query key => ({ w with zn := registerPendingQuery w.zn key }, .ok)
  | .queryDone id =>
    ({ w with
        zn := { w.zn with
          livelinessPendingQueries := w.zn.livelinessPendingQueries.remove id } }, .ok)

/-- A run -/
def run (w : EntityWorld Peer Key) (events : List (EntityEvent Peer Key)) : EntityWorld Peer Key :=
  events.foldl (fun w e ↦ (w.step ops e).1) w

omit [DecidableEq Peer] in
/-- An honest peer undeclares what it has declared. -/
def Honest (w : EntityWorld Peer Key) : EntityEvent Peer Key → Prop
  | .undeclare peer type id => (w.entities peer type id).isSome
  | _ => True

omit [DecidableEq Peer] in
/-- An entity is declared with an id that no other peer has an entity of its type under, and keeps
its key when it is redeclared. A token that is undeclared is in the table of tokens. A peer
disconnects when it has no entities left, and the transport fails when no peer has. -/
def Clean (w : EntityWorld Peer Key) : EntityEvent Peer Key → Prop
  | .declare peer type _ id key _ => ∀ p entity, w.entities p type id = some entity →
      p = peer ∧ entity.1 = key
  | .undeclare _ type id => type = .token → (w.zn.remoteTokens.get id).isSome
  | .disconnect peer => ∀ type id, w.entities peer type id = none
  | .transportFailed => ∀ peer type id, w.entities peer type id = none
  | .query _ | .queryDone _ => True

/-- Every step of a run is one that the predicate allows. -/
def AllSteps (P : EntityWorld Peer Key → EntityEvent Peer Key → Prop) (w : EntityWorld Peer Key) :
    List (EntityEvent Peer Key) → Prop
  | [] => True
  | e :: events => P w e ∧ AllSteps P (w.step ops e).1 events

/-- The list is exact at every time of a run, and no undeclaration fails. -/
def ExactRun (events : List (EntityEvent Peer Key)) : Prop :=
  ∀ before after, events = before ++ after → (init.run ops before).table.Exact ∧
    ∀ peer type id rest, after = .undeclare peer type id :: rest →
      ((init.run ops before).step ops (.undeclare peer type id)).2 = .ok

variable {ops}

theorem allSteps_snoc {P : EntityWorld Peer Key → EntityEvent Peer Key → Prop}
    (events : List (EntityEvent Peer Key)) (e : EntityEvent Peer Key) : ∀ w : EntityWorld Peer Key,
      AllSteps ops P w (events ++ [e]) ↔ AllSteps ops P w events ∧ P (w.run ops events) e := by
  induction events with
  | nil =>
    intro w
    simp [AllSteps, run]
  | cons first events ih =>
    intro w
    rw [cons_append, AllSteps, AllSteps, ih, and_assoc]
    rfl

theorem run_snoc (w : EntityWorld Peer Key) (events : List (EntityEvent Peer Key))
    (e : EntityEvent Peer Key) : w.run ops (events ++ [e]) = ((w.run ops events).step ops e).1 := by
  rw [run, foldl_append]
  rfl

/-! ### One event -/

variable {w : EntityWorld Peer Key}

theorem step_declare_table (peer : Peer) (type : DeclareType) (interestId : Option UInt32)
    (id : UInt32) (key : Key) (complete : Bool) :
    (w.step ops (.declare peer type interestId id key complete)).1.table =
      w.table.step (.declare peer type id key complete) := by
  rw [step, table, handleDeclare_remoteDeclares]
  rfl

/-- An entity that the list and the table of tokens have is undeclared. -/
theorem step_undeclare_table (h : w.table.Exact) {peer : Peer} {type : DeclareType}
    (hhonest : w.Honest (.undeclare peer type id)) (hclean : w.Clean (.undeclare peer type id)) :
    (w.step ops (.undeclare peer type id)).1.table = w.table.step (.undeclare peer type id) ∧
      (w.step ops (.undeclare peer type id)).2 = .ok := by
  obtain ⟨remoteDeclares, hfound⟩ := isSome_iff_exists.mp (h.undeclare_isSome hhonest)
  obtain ⟨hlist, hok⟩ := handleUndeclare_ok ops w.zn hfound hclean
  refine ⟨?_, hok⟩
  rw [step, table, RemoteTable.step, hfound]
  dsimp only
  rw [hlist]
  rfl

variable {e : EntityEvent Peer Key}

/-- A clean step of an honest peer keeps the list exact. -/
theorem next (h : w.table.Inv) (hhonest : w.Honest e) (hclean : w.Clean e) :
    (w.step ops e).1.table.Inv := by
  cases e with
  | declare peer type interestId id key complete =>
    rw [step_declare_table]
    exact h.next (e := .declare peer type id key complete) trivial hclean
  | undeclare peer type id =>
    rw [(step_undeclare_table h.exact hhonest hclean).1]
    exact h.next (e := .undeclare peer type id) hhonest trivial
  | disconnect peer => exact h.next (e := .disconnect peer) trivial hclean
  | transportFailed =>
    have hentities : w.entities = fun _ _ _ ↦ none := funext₃ hclean
    rw [step, table, subscriptionUndeclareAll, ← hentities]
    exact h
  | query key => exact h
  | queryDone id => exact h

/-- After any other step the list is not exact, or an undeclaration has failed. -/
theorem clean_of_exact (h : w.table.Inv) (hexact : (w.step ops e).1.table.Exact)
    (hundeclare : ∀ peer type id, e = .undeclare peer type id → (w.step ops e).2 = .ok) :
    w.Clean e := by
  cases e with
  | declare peer type interestId id key complete =>
    rw [step_declare_table] at hexact
    exact h.clean_of_exact hexact
  | undeclare peer type id =>
    rintro rfl
    by_contra hnone
    have hfailed := handleUndeclare_token_none ops w.zn (not_isSome_iff_eq_none.mp hnone)
    rw [step] at hundeclare
    exact absurd (hfailed.symm.trans (hundeclare peer .token id rfl)) (by decide)
  | disconnect peer => exact h.clean_of_exact (e := .disconnect peer) hexact
  | transportFailed =>
    -- the list is the same as before, and has nothing
    intro peer type id
    by_contra hne
    obtain ⟨entity, hentity⟩ := ne_none_iff_exists'.mp hne
    have hafter := (hexact.mem_iff _).mp (h.exact.mem hentity)
    cases hafter
  | query key => trivial
  | queryDone id => trivial

/-! ### Runs -/

variable {events : List (EntityEvent Peer Key)}

theorem exactRun_snoc (h : ExactRun ops (events ++ [e])) : ExactRun ops events := by
  rintro before after rfl
  obtain ⟨hexact, hundeclare⟩ := h before (after ++ [e]) (by simp)
  refine ⟨hexact, ?_⟩
  rintro peer type id rest rfl
  exact hundeclare peer type id (rest ++ [e]) rfl

theorem run_inv (hhonest : AllSteps ops Honest init events)
    (hclean : AllSteps ops Clean init events) : (init.run ops events).table.Inv := by
  induction events using List.reverseRecOn with
  | nil => exact init_remoteInv
  | append_singleton events e ih =>
    obtain ⟨hhonest, hhonestLast⟩ := (allSteps_snoc events e _).mp hhonest
    obtain ⟨hclean, hcleanLast⟩ := (allSteps_snoc events e _).mp hclean
    rw [run_snoc]
    exact next (ih hhonest hclean) hhonestLast hcleanLast

end EntityWorld

open EntityWorld

/-- In a run of honest peers the list is exact at every time, and no undeclaration fails, exactly
when every step of the run is clean. -/
theorem remoteDeclares_exact_iff {Peer Key : Type} [DecidableEq Peer] (ops : KeyexprOps Key)
    (events : List (EntityEvent Peer Key)) (hhonest : AllSteps ops Honest init events) :
    ExactRun ops events ↔ AllSteps ops Clean init events := by
  constructor
  · intro hexact
    induction events using List.reverseRecOn with
    | nil => trivial
    | append_singleton events e ih =>
      obtain ⟨hhonestBefore, -⟩ := (allSteps_snoc events e _).mp hhonest
      have hclean := ih hhonestBefore (exactRun_snoc hexact)
      refine (allSteps_snoc events e _).mpr ⟨hclean, ?_⟩
      have hstep : ((run ops init events).step ops e).1.table.Exact := by
        rw [← run_snoc]
        exact (hexact (events ++ [e]) [] (by simp)).1
      refine clean_of_exact (run_inv hhonestBefore hclean) hstep ?_
      rintro peer type id rfl
      exact (hexact events _ rfl).2 peer type id [] rfl
  · rintro hclean before after rfl
    induction after using List.reverseRecOn with
    | nil =>
      rw [append_nil] at hhonest hclean
      exact ⟨(run_inv hhonest hclean).exact, by simp⟩
    | append_singleton after e ih =>
      rw [← append_assoc] at hhonest hclean
      obtain ⟨hhonest, hhonestLast⟩ := (allSteps_snoc _ e _).mp hhonest
      obtain ⟨hclean, hcleanLast⟩ := (allSteps_snoc _ e _).mp hclean
      obtain ⟨hexact, hundeclare⟩ := ih hhonest hclean
      refine ⟨hexact, fun peer type id rest heq ↦ ?_⟩
      cases after with
      | nil =>
        obtain ⟨rfl, rfl⟩ := List.cons.inj heq
        rw [append_nil] at hhonestLast hcleanLast
        exact (step_undeclare_table hexact hhonestLast hcleanLast).2
      | cons first after =>
        obtain ⟨rfl, -⟩ := List.cons.inj heq
        exact hundeclare peer type id after rfl

/-- Two peers declare queryables and tokens, one of them in answer to a query and again without,
and both change and go. -/
def cleanDeclarations : List (EntityEvent ℕ ℕ) :=
  [.declare 1 .queryable none 5 7 true, .query 7, .declare 1 .token (some 1) 8 7 false, .queryDone 1,
    .declare 1 .token none 8 7 false, .declare 2 .queryable none 6 7 false,
    .declare 1 .queryable none 5 7 false, .undeclare 1 .queryable 5, .undeclare 1 .token 8,
    .disconnect 1]

theorem remoteDeclares_exact_redeclared : ExactRun KeyexprOps.exact cleanDeclarations := by
  refine (remoteDeclares_exact_iff KeyexprOps.exact cleanDeclarations
    ⟨trivial, trivial, trivial, trivial, trivial, trivial, trivial, by exact rfl, by exact rfl,
      trivial, trivial⟩).mpr ⟨nofun, trivial, ?_, trivial, ?_, ?_, ?_, nofun, fun _ ↦ rfl, ?_, trivial⟩
  · intro p entity hentity
    by_cases hp : p = 1 <;> simp_all [EntityWorld.step, EntityWorld.init, Entities.set]
  · intro p entity hentity
    by_cases hp : p = 1 <;> simp_all [EntityWorld.step, EntityWorld.init, Entities.set, eq_comm]
  · intro p entity hentity
    by_cases hp : p = 1 <;> simp_all [EntityWorld.step, EntityWorld.init, Entities.set]
  · intro p entity hentity
    by_cases hp : p = 1 <;> by_cases hp' : p = 2 <;>
      simp_all [EntityWorld.step, EntityWorld.init, Entities.set, eq_comm]
  · intro type id
    by_cases hqueryable : type = .queryable ∧ id = 5 <;>
      by_cases htoken : type = .token ∧ id = 8 <;>
      simp_all [EntityWorld.step, EntityWorld.init, Entities.set]

/-- The subscriber of peer 2 is taken for a redeclaration of that of peer 1, and when peer 1
undeclares its own, peer 2 cannot. -/
theorem remoteDeclares_not_exact_colliding :
    ¬ ∀ (ops : KeyexprOps ℕ) (events : List (EntityEvent ℕ ℕ)), AllSteps ops Honest init events →
      ExactRun ops events := by
  intro h
  have hundeclare := (h KeyexprOps.exact [.declare 1 .subscriber none 5 7 false,
    .declare 2 .subscriber none 5 8 false, .undeclare 1 .subscriber 5, .undeclare 2 .subscriber 5]
    ⟨trivial, trivial, rfl, rfl, trivial⟩ [.declare 1 .subscriber none 5 7 false,
      .declare 2 .subscriber none 5 8 false, .undeclare 1 .subscriber 5] _ rfl).2 2 .subscriber 5 []
    rfl
  exact absurd hundeclare (by decide)

end ZenohPico.Session
